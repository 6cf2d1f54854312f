import PooledHttp.Content.MediaType
import PooledHttp.Content.Program
import PooledHttp.Dialogue
import PooledHttp.Http.Response

/-! The three ways to answer from below a document root: serve a file, run a program, and ask
whether a path exists. They classify failures alike. -/

namespace PooledHttp

/-- What is asked of the file system, each time by the text of a path. -/
inductive FileCall
  | look (path : String)
  | read (path : String)
  /-- Runs a program in a directory, with the query in a variable. -/
  | execute (program directory query : String)
deriving DecidableEq, Repr

namespace FileCall

def path : FileCall → String
  | look path | read path | execute path _ _ => path

abbrev Answer : FileCall → Type
  | look _ => Except SystemError Kind
  | read _ | execute _ _ _ => Except SystemError Bytes

end FileCall

def Machine.answer (m : Machine) : (call : FileCall) → call.Answer
  | .look path => m.inspect path.toList
  | .read path => m.contents path.toList
  | .execute program directory query =>
    Program.run m directory.toList program.toList "QUERY_STRING".toList query.toList

inductive ContentError
  | notFound (path : String)
  | forbidden (path : String)
  | program (path : String) (cause : SystemError)
deriving DecidableEq, Repr

namespace ContentError

def status : ContentError → Status
  | notFound _ => .notFound
  | forbidden _ => .forbidden
  | program _ _ => .internalServerError

def path : ContentError → String
  | notFound path | forbidden path | program path _ => path

def message : ContentError → String
  | notFound path => "File not found: " ++ path
  | forbidden path => "Access denied: " ++ path
  | program path cause => "Failed to run CGI program " ++ path ++ ": " ++ cause.message

/-- What the client is told. The cause of a program's failure is kept from it. -/
def summary : ContentError → String
  | notFound _ => "File not found"
  | forbidden _ => "Access denied"
  | program _ _ => "Could not run CGI program"

def response (e : ContentError) : Response := .error e.status e.path e.summary

/-- Whatever else keeps a file from being found counts as forbidden. -/
def ofLookup (path : String) : SystemError → ContentError
  | .notFound => .notFound path
  | _ => .forbidden path

end ContentError

/-- An answer from below a document root, as far as the file system has a say in it. -/
abbrev Content (α : Type) := Dialogue FileCall.Answer (Except ContentError α)

namespace Content

def resolve (root path : String) : Except ContentError String :=
  match Target.resolve? root.toList path.toList with
  | none => .error (.forbidden path)
  | some file => .ok (String.ofList file)

/-- Goes on with the file that a request path leads to, and what is known of it. -/
def locate {α : Type} (root path : String) (next : String → Kind → Content α) : Content α :=
  match resolve root path with
  | .error e => .done (.error e)
  | .ok file => .ask (.look file) fun
    | .error cause => .done (.error (.ofLookup path cause))
    | .ok kind => next file kind

/-- Regular files alone are served. -/
def serve (root path : String) : Content Response :=
  locate root path fun file kind =>
    match kind with
    | .regular _ => .ask (.read file) fun
      | .error cause => .done (.error (.ofLookup path cause))
      | .ok content => .done (.ok (.content (MediaType.ofPath file.toList) content))
    | .other => .done (.error (.forbidden path))

def ensureExists (root path : String) : Content Unit :=
  locate root path fun _ _ => .done (.ok ())

/-- A regular file that may be executed is run in the document root, with the query in a variable;
what it prints is the page. -/
def run (root path query : String) : Content Response :=
  locate root path fun file kind =>
    match kind with
    | .regular true => .ask (.execute file root query) fun
      | .error cause => .done (.error (.program path cause))
      | .ok output => .done (.ok (.content "text/html" output))
    | _ => .done (.error (.forbidden path))

end Content

/-- A document root, as a path text, on a machine. -/
structure Site where
  machine : Machine
  root : String
deriving DecidableEq, Repr

namespace Site

/-- Paths that ask for a program hold these three letters somewhere. -/
def isDynamic (path : String) : Bool := hasMark path.toList
where
  hasMark : List Char → Bool
    | [] => false
    | c :: rest => ['c', 'g', 'i'].isPrefixOf (c :: rest) || hasMark rest

def resolve (site : Site) (path : String) : Except ContentError String :=
  Content.resolve site.root path

def serve (site : Site) (path : String) : Except ContentError Response :=
  (Content.serve site.root path).result site.machine.answer

def ensureExists (site : Site) (path : String) : Except ContentError Unit :=
  (Content.ensureExists site.root path).result site.machine.answer

def run (site : Site) (path query : String) : Except ContentError Response :=
  (Content.run site.root path query).result site.machine.answer

end Site

end PooledHttp
