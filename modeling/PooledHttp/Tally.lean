import PooledHttp.Text.Basic

/-! What one worker has served: a total and a counter for each kind of success. Counters stop at
the largest 64-bit number; the addition that would pass it fails and leaves them as they are. -/

namespace PooledHttp

inductive Served
  | static
  | dynamic
  | post
deriving DecidableEq, Repr

structure Tally where
  worker : Nat
  total : Nat
  static : Nat
  dynamic : Nat
  post : Nat
deriving DecidableEq, Repr

/-- A counter was full. The total is counted before the kind, so `left` may hold a total that is
one ahead. -/
structure TallyOverflow where
  left : Tally
deriving DecidableEq, Repr

def TallyOverflow.message (_ : TallyOverflow) : String := "attempt to add with overflow"

namespace Tally

def start (worker : Nat) : Tally := ⟨worker, 0, 0, 0, 0⟩

def counter (t : Tally) : Served → Nat
  | .static => t.static
  | .dynamic => t.dynamic
  | .post => t.post

def increment (t : Tally) : Served → Tally
  | .static => { t with static := t.static + 1 }
  | .dynamic => { t with dynamic := t.dynamic + 1 }
  | .post => { t with post := t.post + 1 }

/-- A request that ended in an error counts toward the total alone. -/
def recordError (t : Tally) : Except TallyOverflow Tally :=
  if t.total < Decimal.max64 then .ok { t with total := t.total + 1 } else .error ⟨t⟩

def record (t : Tally) (kind : Served) : Except TallyOverflow Tally :=
  match t.recordError with
  | .error e => .error e
  | .ok t => if t.counter kind < Decimal.max64 then .ok (t.increment kind) else .error ⟨t⟩

/-- Counts one answered request, under its kind if it succeeded. -/
def count (t : Tally) : Option Served → Except TallyOverflow Tally
  | some kind => t.record kind
  | none => t.recordError

def fields (t : Tally) : List (String × String) :=
  [("Stat-Thread-Id", Decimal.text t.worker),
   ("Stat-Thread-Count", Decimal.text t.total),
   ("Stat-Thread-Static", Decimal.text t.static),
   ("Stat-Thread-Dynamic", Decimal.text t.dynamic),
   ("Stat-Thread-Post", Decimal.text t.post)]

end Tally

end PooledHttp
