import PooledHttp.Content.FileTree
import PooledHttp.Content.Script

/-! What a script writes to its output. It can print text and variables, copy files, and end early;
any other command writes nothing. A character stands for one byte. -/

namespace PooledHttp.Shell

/-- The machine, with the directory the script runs in, and the variables it is given. -/
structure Surroundings where
  machine : Machine
  settings : List (List Char × List Char)

def ofBytes (bytes : Bytes) : List Char := bytes.map fun b => Char.ofNat b.toNat

def toBytes (text : List Char) : Bytes := text.map fun c => UInt8.ofNat c.toNat

def self : List Char := ['1']

def value (s : Surroundings) (name : List Char) : List Char :=
  if name = ['$'] then self
  else if name = ['?'] then ['0']
  else (s.settings.lookup name).getD []

def isSeparator (c : Char) : Bool := c == ' ' || c == '\t' || c == '\n'

/-- Words finished so far, and the one that is being put together. -/
abbrev Fields := List (List Char) × Option (List Char)

def extend (fields : Fields) (text : List Char) : Fields :=
  (fields.1, some (fields.2.getD [] ++ text))

def cut (fields : Fields) : Fields := (fields.1 ++ fields.2.toList, none)

def extendSplit (fields : Fields) (text : List Char) : Fields :=
  text.foldl (fun fields c => if isSeparator c then cut fields else extend fields [c]) fields

def expandPiece (s : Surroundings) (fields : Fields) : Script.Piece → Fields
  | .text chars => extend fields chars
  | .parameter name true => extend fields (value s name)
  | .parameter name false => extendSplit fields (value s name)

def expand (s : Surroundings) (word : Script.Word) : List (List Char) :=
  (cut (word.foldl (expandPiece s) ([], if word.isEmpty then some [] else none))).1

/-- A part of a format: text as it stands, or the place of the next argument. -/
inductive Directive
  | literal (text : List Char)
  | argument
deriving DecidableEq, Repr

def isOctal (c : Char) : Bool := '0' ≤ c && c ≤ '7'

def octalValue (digits : List Char) : Char :=
  Char.ofNat (digits.foldl (fun n c => n * 8 + (c.toNat - '0'.toNat)) 0 % 256)

def escape (c : Char) : List Char :=
  match c with
  | 'n' => ['\n']
  | 't' => ['\t']
  | 'r' => ['\r']
  | 'a' => ['\x07']
  | 'b' => ['\x08']
  | 'v' => ['\x0b']
  | 'f' => ['\x0c']
  | '\\' => ['\\']
  | c => ['\\', c]

/-- Backslashes begin escapes, of which octal ones have up to three digits. Percent signs begin
conversions if `conversions` is set. -/
def directives (conversions : Bool) (format : List Char) : List Directive :=
  match format with
  | [] => []
  | '\\' :: c :: rest =>
    let digits := ((c :: rest).take 3).takeWhile isOctal
    if digits.isEmpty then .literal (escape c) :: directives conversions rest
    else .literal [octalValue digits] :: directives conversions ((c :: rest).drop digits.length)
  | '%' :: c :: rest =>
    if conversions ∧ c = 's' then .argument :: directives conversions rest
    else if conversions ∧ c = '%' then .literal ['%'] :: directives conversions rest
    else .literal ['%'] :: directives conversions (c :: rest)
  | c :: rest => .literal [c] :: directives conversions rest
termination_by format.length
decreasing_by all_goals (simp only [List.length_cons, List.length_drop]; omega)

def fill : List Directive → List (List Char) → List Char × List (List Char)
  | [], arguments => ([], arguments)
  | .literal text :: rest, arguments =>
    let (out, left) := fill rest arguments
    (text ++ out, left)
  | .argument :: rest, arguments =>
    let (out, left) := fill rest arguments.tail
    (arguments.headD [] ++ out, left)

/-- The format is used again while it takes arguments and some are left. -/
def fillAll (format : List Directive) : Nat → List (List Char) → List Char
  | 0, arguments => (fill format arguments).1
  | n + 1, arguments =>
    let (out, left) := fill format arguments
    if left.isEmpty ∨ left.length = arguments.length then out else out ++ fillAll format n left

def print : List (List Char) → List Char
  | [] => []
  | format :: arguments => fillAll (directives true format) arguments.length arguments

def echo (arguments : List (List Char)) : List Char :=
  let (words, ending) := match arguments with
    | ['-', 'n'] :: rest => (rest, [])
    | _ => (arguments, ['\n'])
  (fill (directives false ((words.intersperse [' ']).flatten)) []).1 ++ ending

/-- The input of a script is empty. -/
def copy (s : Surroundings) (names : List (List Char)) : List Char :=
  names.flatMap fun name =>
    match s.machine.find name with
    | .ok (_, .file content _) => ofBytes content
    | _ => []

def run (s : Surroundings) : List Script.Command → List Char
  | [] => []
  | command :: rest =>
    match (command.flatMap (expand s)).map String.ofList with
    | "printf" :: arguments => print (arguments.map String.toList) ++ run s rest
    | "echo" :: arguments => echo (arguments.map String.toList) ++ run s rest
    | "cat" :: arguments => copy s (arguments.map String.toList) ++ run s rest
    | "exit" :: _ => []
    | "kill" :: arguments => if String.ofList self ∈ arguments then [] else run s rest
    | _ => run s rest

def output (s : Surroundings) (script : Bytes) : Bytes :=
  toBytes (run s (Script.read (ofBytes script)))

end PooledHttp.Shell
