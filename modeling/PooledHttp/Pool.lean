import PooledHttp.Log.Buffer
import PooledHttp.Queue.Basic
import PooledHttp.Tally

/-! A fixed set of workers on one queue. Each takes a request, handles it, closes its connection
and only then gives back its place in flight. A handler that fails takes its worker with it: the
connection is dropped without being closed, and the place is given back all the same. -/

namespace PooledHttp

/-- How the handling of one request ends. What was logged before a failure stays. -/
inductive Handled (α : Type)
  | returned (connection : α) (tally : Tally) (log : LogBuffer)
  | failed (log : LogBuffer)

abbrev RequestHandler (α : Type) := α → Instant → Span → Tally → LogBuffer → Handled α

inductive WorkerPhase (α : Type)
  | ready
  | handling (request : Pending α) (wait : Span)
  | closing (request : Pending α)
  | dropping (request : Pending α)
  /-- The connection is gone, the place in flight not yet given back. -/
  | releasing (survives : Bool)
  | ended
  | lost

structure Worker (α : Type) where
  id : Nat
  tally : Tally
  phase : WorkerPhase α

structure WorkerPool (α : Type) where
  queue : RequestQueue α
  workers : List (Worker α)
  log : LogBuffer
  /-- Requests in the order in which handlers saw them, with their waits. -/
  handled : List (Pending α × Span)
  closed : List (Pending α)
  dropped : List (Pending α)

namespace Worker

variable {α : Type}

def start (id : Nat) : Worker α := ⟨id, Tally.start id, .ready⟩

def isDone (w : Worker α) : Bool :=
  match w.phase with
  | .ended | .lost => true
  | _ => false

def result? (w : Worker α) : Option Tally :=
  match w.phase with
  | .ended => some w.tally
  | _ => none

end Worker

namespace WorkerPool

variable {α : Type}

def start (size : Nat) (queue : RequestQueue α) (log : LogBuffer) : WorkerPool α :=
  { queue, log, workers := (List.range size).map fun i => Worker.start (i + 1)
    handled := [], closed := [], dropped := [] }

def setWorker (p : WorkerPool α) (index : Nat) (w : Worker α) : WorkerPool α :=
  { p with workers := p.workers.set index w }

/-- The next step of the worker at a place in the pool, at time `now`. Nothing happens while it
must wait for a request or once it is done. -/
def step (handler : RequestHandler α) (now : Instant) (p : WorkerPool α) (index : Nat) :
    Except QueueFault (WorkerPool α) :=
  match p.workers[index]? with
  | none => .ok p
  | some w =>
    match w.phase with
    | .ready =>
      match p.queue.deliver with
      | .error e => .error e
      | .ok .mustWait => .ok p
      | .ok .drained => .ok (p.setWorker index { w with phase := .ended })
      | .ok (.delivered request queue) =>
        .ok ({ p with queue }.setWorker index
          { w with phase := .handling request (now.since request.arrival) })
    | .handling request wait =>
      let seen := { p with handled := p.handled ++ [(request, wait)] }
      match handler request.connection request.arrival wait w.tally p.log with
      | .returned connection tally log =>
        .ok ({ seen with log }.setWorker index
          { w with tally, phase := .closing { request with connection } })
      | .failed log =>
        .ok ({ seen with log }.setWorker index { w with phase := .dropping request })
    | .closing request =>
      .ok ({ p with closed := p.closed ++ [request] }.setWorker index
        { w with phase := .releasing true })
    | .dropping request =>
      .ok ({ p with dropped := p.dropped ++ [request] }.setWorker index
        { w with phase := .releasing false })
    | .releasing survives =>
      match p.queue.finish with
      | .error e => .error e
      | .ok queue =>
        .ok ({ p with queue }.setWorker index
          { w with phase := if survives then .ready else .lost })
    | .ended | .lost => .ok p

def round (handler : RequestHandler α) (now : Instant) (p : WorkerPool α) :
    Except QueueFault (WorkerPool α) :=
  (List.range p.workers.length).foldlM (step handler now) p

def rounds (handler : RequestHandler α) (now : Instant) :
    Nat → WorkerPool α → Except QueueFault (WorkerPool α)
  | 0, p => .ok p
  | n + 1, p =>
    match p.round handler now with
    | .error e => .error e
    | .ok p => p.rounds handler now n

/-- Closes the queue and lets the workers drain it. A request costs its worker four steps, and the
end of a worker one more. -/
def drain (handler : RequestHandler α) (now : Instant) (p : WorkerPool α) :
    Except QueueFault (WorkerPool α) :=
  { p with queue := p.queue.close }.rounds handler now (4 * p.queue.inFlight + 1)

/-- The tallies of the workers that ended in good order, by increasing id. -/
def results (p : WorkerPool α) : List Tally := p.workers.filterMap Worker.result?

def shutdown (handler : RequestHandler α) (now : Instant) (p : WorkerPool α) :
    Except QueueFault (WorkerPool α × List Tally) :=
  (p.drain handler now).map fun p => (p, p.results)

/-- A pool that is dropped without a shutdown drains its queue only if it has workers. -/
def discard (handler : RequestHandler α) (now : Instant) (p : WorkerPool α) :
    Except QueueFault (WorkerPool α) :=
  if p.workers.isEmpty then .ok p else p.drain handler now

end WorkerPool

end PooledHttp
