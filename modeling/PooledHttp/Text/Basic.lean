/-! White space and numerals. White space are the twenty-five code points with the Unicode property
White_Space; text is trimmed of them or cut into words along them. Decimal numerals are written plain
or padded with zeros, and read back below a limit. -/

namespace PooledHttp

namespace Blank

def isBlank (c : Char) : Bool :=
  let n := c.toNat
  (0x09 ≤ n && n ≤ 0x0D) || n == 0x20 || n == 0x85 || n == 0xA0 || n == 0x1680 ||
    (0x2000 ≤ n && n ≤ 0x200A) || n == 0x2028 || n == 0x2029 || n == 0x202F || n == 0x205F ||
    n == 0x3000

def trimStart (text : List Char) : List Char := text.dropWhile isBlank

def trimEnd (text : List Char) : List Char := (text.reverse.dropWhile isBlank).reverse

def trim (text : List Char) : List Char := trimEnd (trimStart text)

def words (text : List Char) : List (List Char) :=
  (text.splitOnP isBlank).filter (fun word => !word.isEmpty)

end Blank

namespace Decimal

def digits (n : Nat) : List Char := Nat.toDigits 10 n

def text (n : Nat) : String := String.ofList (digits n)

def padded (width n : Nat) : List Char := (digits n).leftpad width '0'

def digit? (c : Char) : Option Nat :=
  if '0' ≤ c ∧ c ≤ '9' then some (c.toNat - '0'.toNat) else none

def ofDigits? (text : List Char) : Option Nat :=
  if text.isEmpty then none
  else text.foldlM (fun n c => (digit? c).map (n * 10 + ·)) 0

/-- A numeral up to `limit`. One plus sign may precede it, and zeros may pad it. -/
def read? (limit : Nat) (text : List Char) : Option Nat :=
  (ofDigits? (if text.head? = some '+' then text.tail else text)).filter (· ≤ limit)

def max16 : Nat := UInt16.size - 1

def max64 : Nat := UInt64.size - 1

end Decimal

end PooledHttp
