import PooledHttp.Queue.Basic

/-! The threads around a queue. One that must wait goes to sleep; a signal awakens one sleeper, or
all; an awakened thread runs its critical section again and may find the condition false once more.
A newcomer runs its critical section at once, in front of those awakened. -/

namespace PooledHttp

structure WaitingRoom (α : Type) where
  queue : RequestQueue α
  producersAsleep : List (Pending α)
  producersAwake : List (Pending α)
  consumersAsleep : Nat
  consumersAwake : Nat

inductive QueueEvent (α : Type)
  | accepted (request : Pending α)
  | rejected (returned : QueueClosed α)
  | delivered (request : Pending α)
  | drained
  | finished
  | closed
deriving DecidableEq, Repr

/-- One step of the threads. `pick` names the sleeping producer that a signal reaches. -/
inductive QueueAction (α : Type)
  | enqueue (request : Pending α)
  | dequeue (pick : Nat)
  | retryEnqueue (index : Nat)
  | retryDequeue (pick : Nat)
  | finish (pick : Nat)
  | close
  | stirProducer (index : Nat)
  | stirConsumer
deriving DecidableEq, Repr

namespace WaitingRoom

variable {α : Type}

abbrev Outcome (α : Type) := Except QueueFault (WaitingRoom α × Option (QueueEvent α))

def around (queue : RequestQueue α) : WaitingRoom α := ⟨queue, [], [], 0, 0⟩

def stirProducer (r : WaitingRoom α) (index : Nat) : WaitingRoom α :=
  match r.producersAsleep[index]? with
  | none => r
  | some request =>
    { r with
      producersAsleep := r.producersAsleep.eraseIdx index
      producersAwake := r.producersAwake ++ [request] }

/-- A signal to the producers reaches one of the sleepers, whichever number is picked. -/
def signalProducer (r : WaitingRoom α) (pick : Nat) : WaitingRoom α :=
  r.stirProducer (pick % r.producersAsleep.length)

def signalConsumer (r : WaitingRoom α) : WaitingRoom α :=
  if r.consumersAsleep = 0 then r
  else { r with consumersAsleep := r.consumersAsleep - 1, consumersAwake := r.consumersAwake + 1 }

def enqueue (r : WaitingRoom α) (request : Pending α) : Outcome α :=
  match r.queue.offer request with
  | .error e => .error e
  | .ok .mustWait => .ok ({ r with producersAsleep := r.producersAsleep ++ [request] }, none)
  | .ok (.rejected returned) => .ok (r, some (.rejected returned))
  | .ok (.accepted queue) => .ok ({ r with queue }.signalConsumer, some (.accepted request))

/-- Under the policy `queue` a delivery makes room, so it signals a producer. -/
def dequeue (r : WaitingRoom α) (pick : Nat) : Outcome α :=
  match r.queue.deliver with
  | .error e => .error e
  | .ok .mustWait => .ok ({ r with consumersAsleep := r.consumersAsleep + 1 }, none)
  | .ok .drained => .ok (r, some .drained)
  | .ok (.delivered request queue) =>
    let r := { r with queue }
    .ok (if queue.policy = .queue then r.signalProducer pick else r, some (.delivered request))

/-- Under the policy `inFlight` only the end of a request makes room. Where an end without a delivery
is let pass, it counts nothing and at most signals, as `stirProducer` does. -/
def finish (r : WaitingRoom α) (pick : Nat) : Outcome α :=
  match r.queue.finish with
  | .error e => .error e
  | .ok queue =>
    let r := { r with queue }
    .ok (if queue.policy = .inFlight then r.signalProducer pick else r, some .finished)

def close (r : WaitingRoom α) : WaitingRoom α :=
  { queue := r.queue.close
    producersAsleep := []
    producersAwake := r.producersAwake ++ r.producersAsleep
    consumersAsleep := 0
    consumersAwake := r.consumersAwake + r.consumersAsleep }

def retryEnqueue (r : WaitingRoom α) (index : Nat) : Outcome α :=
  match r.producersAwake[index]? with
  | none => .ok (r, none)
  | some request =>
    enqueue { r with producersAwake := r.producersAwake.eraseIdx index } request

def retryDequeue (r : WaitingRoom α) (pick : Nat) : Outcome α :=
  if r.consumersAwake = 0 then .ok (r, none)
  else dequeue { r with consumersAwake := r.consumersAwake - 1 } pick

def act (r : WaitingRoom α) : QueueAction α → Outcome α
  | .enqueue request => r.enqueue request
  | .dequeue pick => r.dequeue pick
  | .retryEnqueue index => r.retryEnqueue index
  | .retryDequeue pick => r.retryDequeue pick
  | .finish pick => r.finish pick
  | .close => .ok (r.close, some .closed)
  | .stirProducer index => .ok (r.stirProducer index, none)
  | .stirConsumer => .ok (r.signalConsumer, none)

/-- Lets awakened threads run until all that remain are asleep. A retry either ends a thread,
awakening at most one other, or sends it back to sleep, so `fuel` suffices when it counts the
sleepers once and the awakened twice. -/
def settleWithin : Nat → WaitingRoom α → Except QueueFault (WaitingRoom α × List (QueueEvent α))
  | 0, r => .ok (r, [])
  | fuel + 1, r =>
    if r.producersAwake.isEmpty && r.consumersAwake == 0 then .ok (r, [])
    else
      match if r.producersAwake.isEmpty then r.retryDequeue 0 else r.retryEnqueue 0 with
      | .error e => .error e
      | .ok (next, event) =>
        match settleWithin fuel next with
        | .error e => .error e
        | .ok (last, events) => .ok (last, event.toList ++ events)

def settle (r : WaitingRoom α) : Except QueueFault (WaitingRoom α × List (QueueEvent α)) :=
  settleWithin
    (r.producersAsleep.length + r.consumersAsleep +
      2 * (r.producersAwake.length + r.consumersAwake)) r

def actAndSettle (r : WaitingRoom α) (action : QueueAction α) :
    Except QueueFault (WaitingRoom α × List (QueueEvent α)) :=
  match r.act action with
  | .error e => .error e
  | .ok (next, event) =>
    match next.settle with
    | .error e => .error e
    | .ok (last, events) => .ok (last, event.toList ++ events)

end WaitingRoom

end PooledHttp
