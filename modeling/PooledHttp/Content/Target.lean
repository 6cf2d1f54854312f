/-! From the path of a request to a file below the document root. A path is read as components, and
those that would lead out of the root are refused, so what is appended to the root can only lead
further down. -/

namespace PooledHttp.Target

def defaultPage : List Char := "home.html".toList

def segments (path : List Char) : List (List Char) := path.splitOn '/'

def parent : List Char := ['.', '.']

inductive Component
  | root
  | current
  | parent
  | normal (name : List Char)
deriving DecidableEq, Repr

/-- Empty segments and single dots say nothing. -/
def Component.ofSegment? (segment : List Char) : Option Component :=
  if segment = [] ∨ segment = ['.'] then none
  else if segment = Target.parent then some .parent
  else some (.normal segment)

/-- What a path begins with: a slash, or a single dot, which counts here and nowhere else. -/
def lead (path : List Char) : List Component :=
  if path.head? = some '/' then [.root]
  else if (segments path).head? = some ['.'] then [.current]
  else []

def components (path : List Char) : List Component :=
  lead path ++ (segments path).filterMap Component.ofSegment?

/-- An absolute path takes the place of the base. Before any other a slash is put in, unless the
base is empty or ends in one. -/
def push (base path : List Char) : List Char :=
  if path.head? = some '/' then path
  else if base.isEmpty || base.getLast? = some '/' then base ++ path
  else base ++ '/' :: path

def descend (base : List Char) : Component → Option (List Char)
  | .normal name => some (push base name)
  | .current => some base
  | .root | .parent => none

def wantsDefault (path : List Char) : Bool := path.isEmpty || path.getLast? = some '/'

/-- The file text for a request path, or `none` where the path would lead out of the root. -/
def resolve? (root path : List Char) : Option (List Char) :=
  ((components (path.dropWhile (· == '/'))).foldlM descend root).map fun file =>
    if wantsDefault path then push file defaultPage else file

end PooledHttp.Target
