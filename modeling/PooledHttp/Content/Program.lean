import PooledHttp.Content.Shell

/-! Starting a program. The new process first moves to its directory, and only there looks up the
program's path; a file that begins with `#!` is handed to the interpreter named behind it. -/

namespace PooledHttp.Program

/-- The place of the one interpreter that runs scripts. -/
def shellPlace : Place := ["bin".toList, "sh".toList]

/-- The longest setting of a variable, in bytes. -/
def longestSetting : Nat := 131071

/-- The text of the interpreter's path, if the first line names one. -/
def interpreter? (content : Bytes) : Option (List Char) :=
  match Shell.ofBytes content with
  | '#' :: '!' :: rest =>
    some (((rest.takeWhile (· != '\n')).dropWhile fun c => c == ' ' || c == '\t').takeWhile
      fun c => c != ' ' && c != '\t')
  | _ => none

/-- An executable file at a path, as the process sees it. -/
def executable (m : Machine) (path : List Char) : Except SystemError (Place × Bytes) :=
  match m.find path with
  | .error e => .error e
  | .ok (place, .file content true) => .ok (place, content)
  | .ok _ => .error .permissionDenied

/-- Runs the program at `path` in `directory` with one variable set, and gives its output. How it
ends does not matter, nor what it writes elsewhere. -/
def run (m : Machine) (directory path name value : List Char) : Except SystemError Bytes :=
  if '\x00' ∈ value then .error .nulByte
  else
    match m.enter directory with
    | .error e => .error e
    | .ok m =>
      match executable m path with
      | .error e => .error e
      | .ok (_, content) =>
        if longestSetting < (Utf8.encode (name ++ '=' :: value)).length then
          .error .argumentsTooLong
        else
          match interpreter? content with
          | none => .error .execFormat
          | some interpreter =>
            match executable m interpreter with
            | .error e => .error e
            | .ok (place, _) =>
              if place = shellPlace then
                .ok (Shell.output ⟨m, [(name, Shell.ofBytes (Utf8.encode value))]⟩ content)
              else .error .execFormat

end PooledHttp.Program
