import PooledHttp.Clock

/-! The bounded queue between the acceptor and the workers: a circular buffer with two counters,
what is queued and what is in flight, that is, accepted and not yet finished. The admission policy
says which of them the capacity bounds. Each function is one critical section. -/

namespace PooledHttp

inductive AdmissionPolicy
  | inFlight
  | queue
deriving DecidableEq, Repr

namespace AdmissionPolicy

def text : AdmissionPolicy → String
  | inFlight => "in-flight"
  | queue => "queue"

def ofText? (name : String) : Option AdmissionPolicy :=
  [inFlight, queue].find? (·.text == name)

end AdmissionPolicy

/-- An accepted connection that waits for a worker. -/
structure Pending (α : Type) where
  connection : α
  arrival : Instant
deriving DecidableEq, Repr

structure RequestQueue (α : Type) where
  capacity : Nat
  policy : AdmissionPolicy
  slots : Array (Option (Pending α))
  front : Nat
  rear : Nat
  queued : Nat
  inFlight : Nat
  closed : Bool
deriving DecidableEq, Repr

/-- What would be a programming error in a user of the queue or in the queue itself. -/
inductive QueueFault
  | noCapacity
  | slotOutOfRange
  | emptySlot
  | unmatchedFinish
deriving DecidableEq, Repr

def QueueFault.message : QueueFault → String
  | noCapacity => "queue capacity must be >= 1"
  | slotOutOfRange => "index out of bounds"
  | emptySlot => "queued > 0 implies the front slot is occupied"
  | unmatchedFinish => "finish_handling without a matching dequeue"

/-- A connection that came too late; it still belongs to the one who offered it. -/
structure QueueClosed (α : Type) where
  connection : α
deriving DecidableEq, Repr

namespace QueueClosed

def message {α : Type} (_ : QueueClosed α) : String := "request queue is closed"

/-- Says nothing about the connection. -/
def describe {α : Type} (_ : QueueClosed α) : String := "QueueClosed(..)"

end QueueClosed

inductive Admission (α : Type)
  | mustWait
  | rejected (returned : QueueClosed α)
  | accepted (queue : RequestQueue α)

inductive Delivery (α : Type)
  | mustWait
  | drained
  | delivered (request : Pending α) (queue : RequestQueue α)

namespace RequestQueue

variable {α : Type}

def create (capacity : Nat) (policy : AdmissionPolicy) : Except QueueFault (RequestQueue α) :=
  if capacity = 0 then .error .noCapacity
  else .ok
    { capacity, policy, slots := Array.replicate capacity none
      front := 0, rear := 0, queued := 0, inFlight := 0, closed := false }

def isFull (q : RequestQueue α) : Bool :=
  match q.policy with
  | .inFlight => q.capacity ≤ q.inFlight
  | .queue => q.capacity ≤ q.queued

def push (q : RequestQueue α) (request : Pending α) : RequestQueue α :=
  { q with
    slots := q.slots.setIfInBounds q.rear (some request)
    rear := (q.rear + 1) % q.capacity
    queued := q.queued + 1
    inFlight := q.inFlight + 1 }

/-- Empties the front slot. What it held stays in flight. -/
def pop (q : RequestQueue α) : RequestQueue α :=
  { q with
    slots := q.slots.setIfInBounds q.front none
    front := (q.front + 1) % q.capacity
    queued := q.queued - 1 }

/-- A closed queue rejects even where there is room. -/
def offer (q : RequestQueue α) (request : Pending α) : Except QueueFault (Admission α) :=
  if q.closed then .ok (.rejected ⟨request.connection⟩)
  else if q.isFull then .ok .mustWait
  else if q.rear < q.slots.size then .ok (.accepted (q.push request))
  else .error .slotOutOfRange

/-- A closed queue still delivers what it holds. -/
def deliver (q : RequestQueue α) : Except QueueFault (Delivery α) :=
  if q.queued = 0 then .ok (if q.closed then .drained else .mustWait)
  else
    match q.slots[q.front]? with
    | none => .error .slotOutOfRange
    | some none => .error .emptySlot
    | some (some request) => .ok (.delivered request q.pop)

def release (q : RequestQueue α) : RequestQueue α := { q with inFlight := q.inFlight - 1 }

def finish (q : RequestQueue α) : Except QueueFault (RequestQueue α) :=
  if q.queued < q.inFlight then .ok q.release else .error .unmatchedFinish

def close (q : RequestQueue α) : RequestQueue α := { q with closed := true }

def isEmpty (q : RequestQueue α) : Bool := q.queued = 0

/-- At most `n` deliveries, as far as none has to wait. -/
def take : Nat → RequestQueue α → List (Pending α) × RequestQueue α
  | 0, q => ([], q)
  | n + 1, q =>
    match q.deliver with
    | .ok (.delivered request next) =>
      let (requests, last) := take n next
      (request :: requests, last)
    | _ => ([], q)

def drain (q : RequestQueue α) : List (Pending α) × RequestQueue α := take q.queued q

/-- The slots from the front on, as many as are queued. -/
def contents (q : RequestQueue α) : List (Option (Pending α)) :=
  (List.range q.queued).map fun i => q.slots[(q.front + i) % q.capacity]?.join

end RequestQueue

end PooledHttp
