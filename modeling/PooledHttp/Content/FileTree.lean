import PooledHttp.Content.Target
import PooledHttp.SystemError
import PooledHttp.Text.Utf8

/-! Directories, regular files and symbolic links, and the walk along a path text: from the root of
the tree or from a working directory, following links, up to forty of them. -/

namespace PooledHttp

inductive Entry
  | directory
  | file (content : Bytes) (executable : Bool)
  | link (target : List Char)
deriving DecidableEq, Repr

/-- What a look at an entry tells. -/
inductive Kind
  | regular (executable : Bool)
  | other
deriving DecidableEq, Repr

def Entry.kind : Entry → Kind
  | .file _ executable => .regular executable
  | _ => .other

/-- A place in a tree: the names that lead to it from the root. -/
abbrev Place := List (List Char)

/-- Entries by place; of two at one place the first counts. The root is always a directory. -/
structure FileTree where
  entries : List (Place × Entry)
deriving DecidableEq, Repr

namespace FileTree

def empty : FileTree := ⟨[]⟩

def entry? (t : FileTree) (place : Place) : Option Entry :=
  if place = [] then some .directory else t.entries.lookup place

def put (t : FileTree) (place : Place) (entry : Entry) : FileTree := ⟨(place, entry) :: t.entries⟩

/-- Makes every directory on the way to `place`, which is one too. -/
def putDirectory (t : FileTree) (place : Place) : FileTree :=
  ((List.range (place.length + 1)).map place.take).foldl
    (fun t p => if (t.entry? p).isSome then t else t.put p .directory) t

/-- Puts an entry and the directories above it. -/
def putBelow (t : FileTree) (place : Place) (entry : Entry) : FileTree :=
  (t.putDirectory place.dropLast).put place entry

def isDirectory (t : FileTree) (place : Place) : Bool := t.entry? place == some .directory

/-- The steps that a path text asks for. A slash at the end asks for a directory, as a dot does. -/
def steps (path : List Char) : List (List Char) :=
  let names := (Target.segments path).filter (· ≠ [])
  if path.getLast? = some '/' then names ++ [['.']] else names

/-- Where a path text starts. -/
def origin (directory : Place) (path : List Char) : Place :=
  if path.head? = some '/' then [] else directory

/-- The longest name of a file, in bytes. -/
def longestName : Nat := 255

/-- The longest path text, in bytes. -/
def longestPath : Nat := 4095

def mostLinks : Nat := 40

/-- Goes on from `here`, with `links` more links to follow. Each step needs a directory to start
from. -/
def walk (t : FileTree) (links : Nat) (here : Place) :
    List (List Char) → Except SystemError (Place × Entry)
  | [] =>
    match t.entry? here with
    | some entry => .ok (here, entry)
    | none => .error .notFound
  | name :: rest =>
    if !t.isDirectory here then .error .notDirectory
    else if name = ['.'] then t.walk links here rest
    else if name = Target.parent then t.walk links here.dropLast rest
    else if longestName < (Utf8.encode name).length then .error .nameTooLong
    else
      match t.entry? (here ++ [name]) with
      | none => .error .notFound
      | some (.link target) =>
        match links with
        | 0 => .error .tooManyLinks
        | links + 1 => t.walk links (origin here target) (steps target ++ rest)
      | some _ => t.walk links (here ++ [name]) rest
termination_by names => (links, names.length)

/-- What a path text names, seen from a working directory. -/
def find (t : FileTree) (directory : Place) (path : List Char) :
    Except SystemError (Place × Entry) :=
  if '\x00' ∈ path then .error .nulByte
  else if path = [] then .error .notFound
  else if longestPath < (Utf8.encode path).length then .error .nameTooLong
  else t.walk mostLinks (origin directory path) (steps path)

end FileTree

/-- A tree and the directory from which relative paths start. -/
structure Machine where
  tree : FileTree
  directory : Place
deriving DecidableEq, Repr

namespace Machine

def find (m : Machine) (path : List Char) : Except SystemError (Place × Entry) :=
  m.tree.find m.directory path

def inspect (m : Machine) (path : List Char) : Except SystemError Kind :=
  (m.find path).map fun found => found.2.kind

def contents (m : Machine) (path : List Char) : Except SystemError Bytes :=
  match m.find path with
  | .error e => .error e
  | .ok (_, .file content _) => .ok content
  | .ok _ => .error .isDirectory

/-- The machine as seen by a process that has moved to another directory. -/
def enter (m : Machine) (path : List Char) : Except SystemError Machine :=
  match m.find path with
  | .error e => .error e
  | .ok (place, .directory) => .ok { m with directory := place }
  | .ok _ => .error .notDirectory

end Machine

end PooledHttp
