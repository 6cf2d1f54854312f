import PooledHttp.Text.Basic
import PooledHttp.Text.PercentEscape

/-! A request: its first line, its headers up to the first blank line, and the order in which
defects are reported. What follows the blank line is never looked at, except that the whole input
must be well-formed UTF-8 and hold something besides white space. -/

namespace PooledHttp

inductive Method
  | get
  | head
  | post
deriving DecidableEq, Repr

namespace Method

def text : Method → String
  | get => "GET"
  | head => "HEAD"
  | post => "POST"

def ofToken? : List Char → Option Method
  | ['G', 'E', 'T'] => some get
  | ['H', 'E', 'A', 'D'] => some head
  | ['P', 'O', 'S', 'T'] => some post
  | _ => none

end Method

inductive Version
  | http10
  | http11
deriving DecidableEq, Repr

namespace Version

def text : Version → String
  | http10 => "HTTP/1.0"
  | http11 => "HTTP/1.1"

def ofToken? : List Char → Option Version
  | ['H', 'T', 'T', 'P', '/', '1', '.', '0'] => some http10
  | ['H', 'T', 'T', 'P', '/', '1', '.', '1'] => some http11
  | _ => none

end Version

inductive RequestError
  | empty
  | requestLine
  | unsupportedMethod (token : String)
  | version (token : String)
  | header (line : String)
deriving DecidableEq, Repr

def RequestError.message : RequestError → String
  | empty => "Empty request"
  | requestLine => "Invalid request line format"
  | unsupportedMethod token => "Unsupported HTTP method: " ++ token
  | version token => "Invalid HTTP version: " ++ token
  | header line => "Invalid header: " ++ line

structure RequestLine where
  method : Method
  uri : List Char
  version : Version
deriving DecidableEq, Repr

/-- Three words, of which the method is checked before the version. -/
def RequestLine.read (line : List Char) : Except RequestError RequestLine :=
  match Blank.words line with
  | [methodToken, uri, versionToken] =>
    match Method.ofToken? methodToken with
    | none => .error (.unsupportedMethod (String.ofList methodToken))
    | some method =>
      match Version.ofToken? versionToken with
      | none => .error (.version (String.ofList versionToken))
      | some version => .ok ⟨method, uri, version⟩
  | _ => .error .requestLine

def cutAt? (mark : Char) (text : List Char) : Option (List Char × List Char) :=
  if mark ∈ text then some (text.takeWhile (· != mark), (text.dropWhile (· != mark)).drop 1)
  else none

/-- Lines end at a line feed; carriage returns at their end do not belong to them. -/
def requestLines (text : List Char) : List (List Char) :=
  (text.splitOn '\n').map fun line => (line.reverse.dropWhile (· == '\r')).reverse

/-- A name and a value, both trimmed, around the first colon of the line. -/
def readHeader (line : List Char) : Except RequestError (String × String) :=
  match cutAt? ':' line with
  | none => .error (.header (String.ofList line))
  | some (name, value) =>
    .ok (String.ofList (Blank.trim name), String.ofList (Blank.trim value))

def isBlankLine (line : List Char) : Bool := (Blank.trim line).isEmpty

structure Request where
  method : Method
  uri : String
  path : String
  query : String
  version : Version
  /-- As they stand in the request; a later header of the same name prevails. -/
  headers : List (String × String)
deriving DecidableEq, Repr

namespace Request

/-- The path is the decoded text before the first question mark, the query the raw text after it. -/
def ofLine (line : RequestLine) (headers : List (String × String)) : Request :=
  let (rawPath, query) := (cutAt? '?' line.uri).getD (line.uri, [])
  { method := line.method
    uri := String.ofList line.uri
    path := String.ofList (PercentEscape.decode rawPath)
    query := String.ofList query
    version := line.version
    headers }

def ofText (text : List Char) : Except RequestError Request :=
  if isBlankLine text then .error .empty
  else
    match requestLines text with
    | [] => .error .requestLine
    | first :: rest =>
      match RequestLine.read first with
      | .error e => .error e
      | .ok line =>
        match (rest.takeWhile (fun l => !isBlankLine l)).mapM readHeader with
        | .error e => .error e
        | .ok headers => .ok (ofLine line headers)

def parse (raw : Bytes) : Except RequestError Request :=
  match Utf8.decode? raw with
  | none => .error .requestLine
  | some text => ofText text

def header? (r : Request) (name : String) : Option String := r.headers.reverse.lookup name

end Request

end PooledHttp
