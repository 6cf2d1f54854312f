import PooledHttp.Text.Basic

/-! Points in time and lengths of time, in whole nanoseconds, and their text in seconds with six
decimals, cut off and never rounded. -/

namespace PooledHttp

structure Span where
  nanos : Nat
deriving DecidableEq, Repr

/-- A point in time, in nanoseconds since the start of 1970; earlier ones are negative. -/
structure Instant where
  nanos : Int
deriving DecidableEq, Repr

namespace Span

def zero : Span := ⟨0⟩

def second : Nat := 1000000000

def ofParts (seconds nanos : Nat) : Span := ⟨seconds * second + nanos⟩

def seconds (d : Span) : Nat := d.nanos / second

def subsecond (d : Span) : Nat := d.nanos % second

def text (d : Span) : String :=
  String.ofList (Decimal.digits d.seconds ++ '.' :: Decimal.padded 6 (d.subsecond / 1000))

end Span

namespace Instant

def ofParts (seconds : Int) (nanos : Nat) : Instant := ⟨seconds * Span.second + nanos⟩

def epoch : Instant := ⟨0⟩

/-- How long after `earlier` the instant lies, or no time if it does not. -/
def since (later earlier : Instant) : Span := ⟨(later.nanos - earlier.nanos).toNat⟩

/-- Times before the epoch show as the epoch. -/
def text (t : Instant) : String := (t.since epoch).text

end Instant

end PooledHttp
