/-! The commands of a script: words made of text, quoted text and variables, ended by white space,
semicolons and line ends. A character stands for one byte. -/

namespace PooledHttp.Script

inductive Piece
  | text (chars : List Char)
  /-- Outside quotes the value of a variable is cut into words. -/
  | parameter (name : List Char) (quoted : Bool)
deriving DecidableEq, Repr

abbrev Word := List Piece

abbrev Command := List Word

inductive Mode
  | plain
  | single
  | double
  | comment
  | escaped (quoted : Bool)
  | dollar (quoted : Bool)
  | name (quoted : Bool) (letters : List Char)
  | braced (quoted : Bool) (letters : List Char)
deriving DecidableEq, Repr

structure Scanner where
  mode : Mode
  word : Option Word
  command : Command
  script : List Command
deriving DecidableEq, Repr

namespace Scanner

def initial : Scanner := ⟨.plain, none, [], []⟩

/-- The mode to return to, inside or outside double quotes. -/
def outer (quoted : Bool) : Mode := if quoted then .double else .plain

def add (s : Scanner) (piece : Piece) (mode : Mode) : Scanner :=
  { s with mode, word := some (s.word.getD [] ++ [piece]) }

/-- Quotes make a word even when nothing stands between them. -/
def openQuote (s : Scanner) (mode : Mode) : Scanner :=
  { s with mode, word := some (s.word.getD []) }

def endWord (s : Scanner) : Scanner :=
  match s.word with
  | none => s
  | some word => { s with word := none, command := s.command ++ [word] }

def endCommand (s : Scanner) : Scanner :=
  let s := s.endWord
  if s.command.isEmpty then s else { s with command := [], script := s.script ++ [s.command] }

def feedPlain (s : Scanner) (c : Char) : Scanner :=
  let s := { s with mode := .plain }
  if c = '\n' ∨ c = ';' then s.endCommand
  else if c = ' ' ∨ c = '\t' then s.endWord
  else if c = '\'' then s.openQuote .single
  else if c = '"' then s.openQuote .double
  else if c = '\\' then { s with mode := .escaped false }
  else if c = '$' then { s with mode := .dollar false }
  else if c = '#' ∧ s.word.isNone then { s with mode := .comment }
  else s.add (.text [c]) .plain

def feedDouble (s : Scanner) (c : Char) : Scanner :=
  if c = '"' then { s with mode := .plain }
  else if c = '\\' then { s with mode := .escaped true }
  else if c = '$' then { s with mode := .dollar true }
  else s.add (.text [c]) .double

def feedOuter (s : Scanner) (quoted : Bool) (c : Char) : Scanner :=
  if quoted then s.feedDouble c else s.feedPlain c

def isNameChar (c : Char) : Bool := c.isAlphanum || c == '_'

def feed (s : Scanner) (c : Char) : Scanner :=
  match s.mode with
  | .plain => s.feedPlain c
  | .double => s.feedDouble c
  | .single => if c = '\'' then { s with mode := .plain } else s.add (.text [c]) .single
  | .comment => if c = '\n' then s.feedPlain c else s
  | .escaped quoted =>
    if c = '\n' then { s with mode := outer quoted }
    else if quoted ∧ c ∉ ['$', '`', '"', '\\'] then s.add (.text ['\\', c]) .double
    else s.add (.text [c]) (outer quoted)
  | .dollar quoted =>
    if c = '{' then { s with mode := .braced quoted [] }
    else if c = '$' ∨ c = '?' ∨ c.isDigit then s.add (.parameter [c] quoted) (outer quoted)
    else if isNameChar c then { s with mode := .name quoted [c] }
    else (s.add (.text ['$']) (outer quoted)).feedOuter quoted c
  | .name quoted letters =>
    if isNameChar c then { s with mode := .name quoted (letters ++ [c]) }
    else (s.add (.parameter letters quoted) (outer quoted)).feedOuter quoted c
  | .braced quoted letters =>
    if c = '\x7d' then s.add (.parameter letters quoted) (outer quoted)
    else { s with mode := .braced quoted (letters ++ [c]) }

end Scanner

def read (text : List Char) : List Command :=
  ((text ++ ['\n']).foldl Scanner.feed Scanner.initial).script

end PooledHttp.Script
