import PooledHttp.Lock.Waiting
import PooledHttp.Log.Buffer

/-! The threads around the log. An append holds exclusive access over two steps, of which the first
makes room, or fails to, and the second adds the data; a third gives the access back. A look copies
the bytes under shared access. -/

namespace PooledHttp

/-- How far the append inside has come. -/
inductive AppendStage
  | entered
  | roomMade
  | done (result : Except AllocationError Unit)

structure LogRoom (ν : Type) where
  lock : LockRoom ν LogBuffer
  /-- What the appends that have asked for access will add. -/
  data : List (ν × Bytes)
  /-- The stage of the writer inside; without one, that of the next to enter. -/
  stage : AppendStage

inductive LogEvent (ν : Type)
  | appended (name : ν) (result : Except AllocationError Unit)
  | looked (name : ν) (bytes : Bytes) (length : Nat)

/-- One step of the threads. `pick` names the sleeping writer that a signal reaches. -/
inductive LogAction (ν : Type)
  | append (name : ν) (data : Bytes)
  | advance (allocate : Allocator) (pick : Nat)
  | look (name : ν)
  | finishLook (name : ν) (pick : Nat)
  | retryRead (index : Nat)
  | retryWrite (index : Nat)
  | stirReader (index : Nat)
  | stirWriter (index : Nat)

namespace LogRoom

variable {ν : Type}

def around (buffer : LogBuffer) : LogRoom ν := ⟨.around buffer, [], .entered⟩

/-- Without data nothing is asked for. -/
def append (r : LogRoom ν) (name : ν) (data : Bytes) : LogRoom ν × Option (LogEvent ν) :=
  if data.isEmpty then (r, some (.appended name (.ok ())))
  else ({ r with lock := r.lock.write name, data := r.data ++ [(name, data)] }, none)

def advance [DecidableEq ν] (r : LogRoom ν) (allocate : Allocator) (pick : Nat) :
    LogRoom ν × Option (LogEvent ν) :=
  match r.lock.writing.head? with
  | none => (r, none)
  | some name =>
    let data := (r.data.lookup name).getD []
    match r.stage with
    | .entered =>
      match r.lock.value.makeRoom allocate data with
      | .error e => ({ r with stage := .done (.error e) }, none)
      | .ok buffer => ({ r with lock := r.lock.update name fun _ => buffer, stage := .roomMade }, none)
    | .roomMade =>
      ({ r with lock := r.lock.update name (·.add data), stage := .done (.ok ()) }, none)
    | .done result =>
      ({ lock := r.lock.endWrite name pick
         data := r.data.eraseP (·.1 = name)
         stage := .entered }, some (.appended name result))

/-- A look ends with the bytes that were found on entry. -/
def finishLook [DecidableEq ν] (r : LogRoom ν) (name : ν) (pick : Nat) :
    LogRoom ν × Option (LogEvent ν) :=
  match r.lock.reading.lookup name with
  | none => (r, none)
  | some buffer =>
    ({ r with lock := r.lock.endRead name pick },
      some (.looked name buffer.bytes buffer.bytes.length))

def act [DecidableEq ν] (r : LogRoom ν) : LogAction ν → LogRoom ν × Option (LogEvent ν)
  | .append name data => r.append name data
  | .advance allocate pick => r.advance allocate pick
  | .look name => ({ r with lock := r.lock.read name }, none)
  | .finishLook name pick => r.finishLook name pick
  | .retryRead index => ({ r with lock := r.lock.retryRead index }, none)
  | .retryWrite index => ({ r with lock := r.lock.retryWrite index }, none)
  | .stirReader index => ({ r with lock := r.lock.stirReader index }, none)
  | .stirWriter index => ({ r with lock := r.lock.stirWriter index }, none)

def settle (r : LogRoom ν) : LogRoom ν := { r with lock := r.lock.settle }

/-- Lets up to `n` steps of appends happen, with all retries in between. -/
def advanceAll [DecidableEq ν] (allocate : Allocator) :
    Nat → LogRoom ν → LogRoom ν × List (LogEvent ν)
  | 0, r => (r, [])
  | n + 1, r =>
    let (next, event) := r.settle.advance allocate 0
    let (last, events) := advanceAll allocate n next
    (last, event.toList ++ events)

/-- Lets all appends end. Each takes three steps. -/
def finishAppends [DecidableEq ν] (allocate : Allocator) (r : LogRoom ν) :
    LogRoom ν × List (LogEvent ν) :=
  let (last, events) := advanceAll allocate (3 * r.data.length) r
  (last.settle, events)

end LogRoom

end PooledHttp
