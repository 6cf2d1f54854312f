import PooledHttp.Content.Target

/-! The media type of a file, told from the letters after the last dot of its name. -/

namespace PooledHttp.MediaType

/-- The last name of a path. A path that ends in two dots has none. -/
def fileName? (path : List Char) : Option (List Char) :=
  match (Target.components path).getLast? with
  | some (.normal name) => some name
  | _ => none

/-- What follows the last dot. A dot at the very start of a name marks no extension. -/
def extension? (name : List Char) : Option (List Char) :=
  let reversed := name.reverse
  match reversed.dropWhile (· != '.') with
  | [] => none
  | _ :: stem => if stem.isEmpty then none else some (reversed.takeWhile (· != '.')).reverse

def ofExtension (extension : String) : String :=
  match extension with
  | "html" | "htm" => "text/html"
  | "gif" => "image/gif"
  | "jpg" | "jpeg" => "image/jpeg"
  | "png" => "image/png"
  | _ => "text/plain"

def ofPath (path : List Char) : String :=
  match (fileName? path).bind extension? with
  | some extension => ofExtension (String.ofList (extension.map Char.toLower))
  | none => "text/plain"

end PooledHttp.MediaType
