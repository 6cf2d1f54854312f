import PooledHttp.Text.Basic
import PooledHttp.Text.Utf8

/-! A byte buffer that doubles its reserved capacity until the data and one spare byte fit. Memory
comes from an allocator that may refuse; a refused append leaves no trace. -/

namespace PooledHttp

inductive Refusal
  | beyondLimit
  | exhausted
deriving DecidableEq, Repr

def Refusal.message : Refusal → String
  | beyondLimit =>
    "memory allocation failed because the computed capacity exceeded the collection's maximum"
  | exhausted => "memory allocation failed because the memory allocator returned an error"

/-- Says of a number of bytes whether, and why, it is refused. -/
abbrev Allocator := Nat → Option Refusal

namespace Allocator

def largest : Nat := UInt64.size / 2 - 1

def addressSpace : Nat := 0x800000000000

def ofMachine : Allocator := fun size =>
  if largest < size then some .beyondLimit
  else if addressSpace ≤ size then some .exhausted
  else none

end Allocator

structure AllocationError where
  requested : Nat
  cause : Refusal
deriving DecidableEq, Repr

def AllocationError.message (e : AllocationError) : String :=
  "log buffer could not grow to " ++ Decimal.text e.requested ++ " bytes: " ++ e.cause.message

structure LogBuffer where
  bytes : Bytes
  capacity : Nat
deriving DecidableEq, Repr

namespace LogBuffer

def defaultCapacity : Nat := 4096

/-- Twice the capacity, or the largest size there is. -/
def double (capacity : Nat) : Nat := min (2 * capacity) Decimal.max64

/-- Doubles once, and again while the result falls short. -/
def grown (required capacity : Nat) : Nat :=
  if _h : capacity = 0 ∨ Decimal.max64 ≤ capacity ∨ required ≤ double capacity then
    double capacity
  else grown required (double capacity)
termination_by required - capacity
decreasing_by simp only [double] at *; omega

def reserve (allocate : Allocator) (size : Nat) : Except AllocationError Unit :=
  match allocate size with
  | some cause => .error ⟨size, cause⟩
  | none => .ok ()

/-- An empty buffer. One byte at least is reserved. -/
def create (allocate : Allocator) (capacity : Nat) : Except AllocationError LogBuffer :=
  (reserve allocate (max capacity 1)).map fun _ => ⟨[], max capacity 1⟩

/-- Room for the data and one byte more. The capacity may change, the bytes do not. -/
def makeRoom (allocate : Allocator) (b : LogBuffer) (data : Bytes) :
    Except AllocationError LogBuffer :=
  let required := b.bytes.length + data.length + 1
  if required ≤ b.capacity then .ok b
  else
    (reserve allocate (grown required b.capacity)).map fun _ =>
      { b with capacity := grown required b.capacity }

def add (b : LogBuffer) (data : Bytes) : LogBuffer := { b with bytes := b.bytes ++ data }

def append (allocate : Allocator) (b : LogBuffer) (data : Bytes) :
    Except AllocationError LogBuffer :=
  if data.isEmpty then .ok b else (b.makeRoom allocate data).map (·.add data)

def appendOrKeep (allocate : Allocator) (b : LogBuffer) (data : Bytes) : LogBuffer :=
  match b.append allocate data with
  | .ok next => next
  | .error _ => b

def describe (b : LogBuffer) : String :=
  "SyncLog \x7b len: " ++ Decimal.text b.bytes.length ++ ", capacity: " ++
    Decimal.text b.capacity ++ " \x7d"

end LogBuffer

end PooledHttp
