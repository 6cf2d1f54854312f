import PooledHttp.Config
import PooledHttp.Pool

/-! A running server: one acceptor that puts connections into the queue, and a pool of workers that
serves them. Shutting down takes three steps, in any thread and any number of times: raise the stop
flag, close the queue, and connect to oneself so that the acceptor notices. After failures in a row
the acceptor pauses: ten milliseconds, doubled each time, up to a second. -/

namespace PooledHttp

namespace Backoff

/-- The count of failures in a row stops here. -/
def mostFailures : Nat := UInt32.size - 1

def afterFailure (failures : Nat) : Nat := min (failures + 1) mostFailures

/-- The pause in milliseconds. No more doublings are counted than it takes to reach a second. -/
def pause (failures : Nat) : Nat := min (10 <<< min (failures - 1) 7) 1000

end Backoff

inductive Incoming (α : Type)
  | connection (connection : α)
  | failure (cause : SystemError)

/-- What the acceptor drops when it leaves without looking at what came. -/
def Incoming.dropped {α : Type} : Incoming α → List α
  | .connection c => [c]
  | .failure _ => []

inductive AcceptorPhase (α : Type)
  | waiting
  | received (incoming : Incoming α)
  | pausing (milliseconds : Nat)
  | enqueuing (request : Pending α)
  /-- No more connections are taken; the queue is about to be closed. -/
  | leaving
  /-- The workers finish what is queued. -/
  | draining
  | ended (results : List Tally)

structure Server (α : Type) where
  pool : WorkerPool α
  stop : Bool
  failures : Nat
  phase : AcceptorPhase α
  /-- Connections that were taken but never queued. -/
  discarded : List α

namespace Server

variable {α : Type}

def start (pool : WorkerPool α) : Server α := ⟨pool, false, 0, .waiting, []⟩

/-- A connection, or a failure, ends the acceptor's wait. -/
def receive (s : Server α) (incoming : Incoming α) : Server α :=
  match s.phase with
  | .waiting => { s with phase := .received incoming }
  | _ => s

/-- The acceptor's next step, at time `now`. It looks at the stop flag before anything else, and
leaves when the queue rejects a connection. -/
def advance (now : Instant) (s : Server α) : Except QueueFault (Server α) :=
  match s.phase with
  | .waiting => .ok s
  | .received incoming =>
    if s.stop then
      .ok { s with phase := .leaving, discarded := s.discarded ++ incoming.dropped }
    else
      match incoming with
      | .failure _ =>
        let failures := Backoff.afterFailure s.failures
        .ok { s with failures, phase := .pausing (Backoff.pause failures) }
      | .connection connection =>
        .ok { s with failures := 0, phase := .enqueuing ⟨connection, now⟩ }
  | .pausing _ => .ok { s with phase := .waiting }
  | .enqueuing request =>
    match s.pool.queue.offer request with
    | .error e => .error e
    | .ok .mustWait => .ok s
    | .ok (.rejected returned) =>
      .ok { s with phase := .leaving, discarded := s.discarded ++ [returned.connection] }
    | .ok (.accepted queue) => .ok { s with pool := { s.pool with queue }, phase := .waiting }
  | .leaving =>
    .ok { s with pool := { s.pool with queue := s.pool.queue.close }, phase := .draining }
  | .draining =>
    if s.pool.workers.all Worker.isDone then .ok { s with phase := .ended s.pool.results }
    else .ok s
  | .ended _ => .ok s

def raiseStop (s : Server α) : Server α := { s with stop := true }

/-- A shutdown closes the queue after it has raised the flag. -/
def closeQueue (s : Server α) : Server α :=
  if s.stop then { s with pool := { s.pool with queue := s.pool.queue.close } } else s

/-- One step of one of the threads, or of those who ask for a shutdown. -/
inductive Action (α : Type)
  | receive (incoming : Incoming α)
  | advance (now : Instant)
  | work (now : Instant) (worker : Nat)
  | raiseStop
  | closeQueue

def act (handler : RequestHandler α) (s : Server α) : Action α → Except QueueFault (Server α)
  | .receive incoming => .ok (s.receive incoming)
  | .advance now => s.advance now
  | .work now worker => (s.pool.step handler now worker).map fun pool => { s with pool }
  | .raiseStop => .ok s.raiseStop
  | .closeQueue => .ok s.closeQueue

end Server

end PooledHttp
