/-! UTF-8, read one byte at a time. The scan yields a character for each well-formed sequence and
`none` for each maximal ill-formed one; the strict and the forgiving reading are two views of it. -/

namespace PooledHttp

abbrev Bytes := List UInt8

namespace Utf8

/-- A character of which some bytes are still owed. The next one must lie between `low` and
`high`; `value` holds the bits read so far. -/
structure Partial where
  owed : Nat
  low : UInt8
  high : UInt8
  value : Nat
deriving DecidableEq, Repr

/-- The first byte of a longer character. The narrowed ranges exclude overlong forms, surrogates
and values above U+10FFFF. -/
def lead? (b : UInt8) : Option Partial :=
  if 0xC2 ≤ b ∧ b ≤ 0xDF then some ⟨1, 0x80, 0xBF, b.toNat % 32⟩
  else if b = 0xE0 then some ⟨2, 0xA0, 0xBF, 0⟩
  else if b = 0xED then some ⟨2, 0x80, 0x9F, 13⟩
  else if 0xE1 ≤ b ∧ b ≤ 0xEF then some ⟨2, 0x80, 0xBF, b.toNat % 16⟩
  else if b = 0xF0 then some ⟨3, 0x90, 0xBF, 0⟩
  else if 0xF1 ≤ b ∧ b ≤ 0xF3 then some ⟨3, 0x80, 0xBF, b.toNat % 8⟩
  else if b = 0xF4 then some ⟨3, 0x80, 0x8F, 4⟩
  else none

def start (b : UInt8) : List (Option Char) × Option Partial :=
  if b < 0x80 then ([some (Char.ofNat b.toNat)], none)
  else match lead? b with
    | some p => ([], some p)
    | none => ([none], none)

/-- A byte that cannot continue ends the ill-formed sequence and is read again as a first byte. -/
def step : Option Partial → UInt8 → List (Option Char) × Option Partial
  | none, b => start b
  | some p, b =>
    if p.low ≤ b ∧ b ≤ p.high then
      if p.owed ≤ 1 then ([some (Char.ofNat (p.value * 64 + b.toNat % 64))], none)
      else ([], some ⟨p.owed - 1, 0x80, 0xBF, p.value * 64 + b.toNat % 64⟩)
    else (none :: (start b).1, (start b).2)

def scanFrom : Option Partial → Bytes → List (Option Char)
  | none, [] => []
  | some _, [] => [none]
  | p, b :: bytes => match step p b with
    | (out, next) => out ++ scanFrom next bytes

def scan (bytes : Bytes) : List (Option Char) := scanFrom none bytes

def decode? (bytes : Bytes) : Option (List Char) := (scan bytes).mapM id

/-- One replacement character stands for each ill-formed sequence. -/
def decodeLossy (bytes : Bytes) : List Char := (scan bytes).map (·.getD '\uFFFD')

def encode (text : List Char) : Bytes := text.flatMap String.utf8EncodeChar

def ofString (text : String) : Bytes := encode text.toList

end Utf8

end PooledHttp
