import PooledHttp.Text.Utf8

/-! Percent escapes in a path. What is no escape is copied as it stands; the decoded bytes become
text by the forgiving reading of UTF-8. -/

namespace PooledHttp.PercentEscape

def percent : UInt8 := 0x25

def plus : UInt8 := 0x2B

def hexDigit? (b : UInt8) : Option UInt8 :=
  if 0x30 ≤ b ∧ b ≤ 0x39 then some (b - 0x30)
  else if 0x41 ≤ b ∧ b ≤ 0x46 then some (b - 0x37)
  else if 0x61 ≤ b ∧ b ≤ 0x66 then some (b - 0x57)
  else none

/-- The two bytes after a percent sign: a hexadecimal numeral of two digits, or of one digit
behind a plus sign. -/
def value? (high low : UInt8) : Option UInt8 :=
  if high = plus then hexDigit? low
  else match hexDigit? high, hexDigit? low with
    | some h, some l => some (h * 16 + l)
    | _, _ => none

def decodeBytes : Bytes → Bytes
  | b :: high :: low :: rest =>
    if b = percent then
      match value? high low with
      | some v => v :: decodeBytes rest
      | none => b :: decodeBytes (high :: low :: rest)
    else b :: decodeBytes (high :: low :: rest)
  | b :: rest => b :: decodeBytes rest
  | [] => []

def decode (text : List Char) : List Char := Utf8.decodeLossy (decodeBytes (Utf8.encode text))

end PooledHttp.PercentEscape
