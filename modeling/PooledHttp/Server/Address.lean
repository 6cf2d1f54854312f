import PooledHttp.Http.Request
import PooledHttp.Text.Basic

/-! Socket addresses and their text. Of the zero groups in an address of version six the first
longest run is left out; an embedded address of version four is written with dots. -/

namespace PooledHttp

inductive IpAddress
  | v4 (octets : List Nat)
  | v6 (groups : List Nat)
deriving DecidableEq, Repr

structure SocketAddress where
  ip : IpAddress
  /-- The zone of an address of version six, or zero. -/
  scope : Nat
  port : Nat
deriving DecidableEq, Repr

namespace IpAddress

def isUnspecified : IpAddress → Bool
  | v4 octets => octets.all (· == 0)
  | v6 groups => groups.all (· == 0)

def loopback : IpAddress → IpAddress
  | v4 _ => v4 [127, 0, 0, 1]
  | v6 _ => v6 [0, 0, 0, 0, 0, 0, 0, 1]

def octetsText (octets : List Nat) : List Char :=
  ['.'].intercalate (octets.map Decimal.digits)

def groupsText (groups : List Nat) : List Char :=
  [':'].intercalate (groups.map (Nat.toDigits 16))

def longestZeros (groups : List Nat) : Nat × Nat :=
  (List.range groups.length).foldl (fun best start =>
    let length := ((groups.drop start).takeWhile (· == 0)).length
    if best.2 < length then (start, length) else best) (0, 0)

def text : IpAddress → List Char
  | v4 octets => octetsText octets
  | v6 groups =>
    match groups with
    | [0, 0, 0, 0, 0, 0xFFFF, high, low] =>
      "::ffff:".toList ++ octetsText [high / 256, high % 256, low / 256, low % 256]
    | _ =>
      let (start, length) := longestZeros groups
      if length ≤ 1 then groupsText groups
      else groupsText (groups.take start) ++ [':', ':'] ++
        groupsText (groups.drop (start + length))

/-- A number of at most three digits, without padding, that fits into a byte. -/
def readOctet? (text : List Char) : Option Nat :=
  if 3 < text.length ∨ (text.head? = some '0' ∧ text.length ≠ 1) then none
  else (Decimal.ofDigits? text).filter (· < 256)

def readV4? (text : List Char) : Option (List Nat) :=
  ((text.splitOn '.').mapM readOctet?).filter (·.length == 4)

def hexDigit? (c : Char) : Option Nat :=
  if '0' ≤ c ∧ c ≤ '9' then some (c.toNat - '0'.toNat)
  else if 'a' ≤ c ∧ c ≤ 'f' then some (c.toNat - 'a'.toNat + 10)
  else if 'A' ≤ c ∧ c ≤ 'F' then some (c.toNat - 'A'.toNat + 10)
  else none

def readGroup? (text : List Char) : Option Nat :=
  if text.isEmpty ∨ 4 < text.length then none
  else text.foldlM (fun n c => (hexDigit? c).map (n * 16 + ·)) 0

/-- Groups separated by colons. An address of version four may stand for the last two. -/
def readGroups? (embedded : Bool) (text : List Char) : Option (List Nat) :=
  if text.isEmpty then some []
  else
    let pieces := text.splitOn ':'
    match (if embedded then pieces.getLast?.bind readV4? else none) with
    | some [a, b, c, d] =>
      (pieces.dropLast.mapM readGroup?).map (· ++ [a * 256 + b, c * 256 + d])
    | _ => pieces.mapM readGroup?

def cutAtGap? : List Char → Option (List Char × List Char)
  | ':' :: ':' :: rest => some ([], rest)
  | c :: rest => (cutAtGap? rest).map fun (before, after) => (c :: before, after)
  | [] => none

def readV6? (text : List Char) : Option (List Nat) :=
  match cutAtGap? text with
  | none => (readGroups? true text).filter (·.length == 8)
  | some (before, after) =>
    match readGroups? false before, readGroups? true after with
    | some front, some back =>
      if front.length + back.length ≤ 7 then
        some (front ++ List.replicate (8 - front.length - back.length) 0 ++ back)
      else none
    | _, _ => none

end IpAddress

namespace SocketAddress

def text (a : SocketAddress) : String :=
  String.ofList <|
    (match a.ip with
    | .v4 _ => a.ip.text
    | .v6 _ =>
      let zone := if a.scope = 0 then [] else '%' :: Decimal.digits a.scope
      '[' :: a.ip.text ++ zone ++ [']']) ++ ':' :: Decimal.digits a.port

def readPort? (text : List Char) : Option Nat :=
  (Decimal.ofDigits? text).filter (· ≤ Decimal.max16)

def readZone? (text : List Char) : Option Nat :=
  (Decimal.ofDigits? text).filter (· < UInt32.size)

def readText? : List Char → Option SocketAddress
  | '[' :: rest =>
    match cutAt? ']' rest with
    | some (inner, ':' :: portText) =>
      let (ipText, zoneText) := match cutAt? '%' inner with
        | some (ipText, zoneText) => (ipText, some zoneText)
        | none => (inner, none)
      match IpAddress.readV6? ipText, (zoneText.map readZone?).getD (some 0),
          readPort? portText with
      | some groups, some scope, some port => some ⟨.v6 groups, scope, port⟩
      | _, _, _ => none
    | _ => none
  | text =>
    match cutAt? ':' text with
    | some (ipText, portText) =>
      match IpAddress.readV4? ipText, readPort? portText with
      | some octets, some port => some ⟨.v4 octets, 0, port⟩
      | _, _ => none
    | none => none

def read? (text : String) : Option SocketAddress := readText? text.toList

/-- Where the server itself can be reached. It can listen on every address of the machine at once,
but a connection must go to one of them. -/
def wakeAddress (a : SocketAddress) : SocketAddress :=
  if a.ip.isUnspecified then ⟨a.ip.loopback, 0, a.port⟩ else a

end SocketAddress

end PooledHttp
