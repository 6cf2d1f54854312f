import PooledHttp.Lock.Basic

/-! The threads around a lock and the value it guards. Threads are told apart by names. Whether an
access ends in good order or by a failure of its holder makes no difference to the lock. -/

namespace PooledHttp

structure LockRoom (ν V : Type) where
  counters : LockCounters
  value : V
  /-- Readers inside, each with the value it found. -/
  reading : List (ν × V)
  writing : List ν
  readersAsleep : List ν
  readersAwake : List ν
  writersAsleep : List ν
  writersAwake : List ν

inductive Ending
  | inOrder
  | unwinding
deriving DecidableEq, Repr

/-- One step of the threads. `pick` names the sleeping writer that a signal reaches. -/
inductive LockAction (ν V : Type)
  | read (name : ν)
  | write (name : ν)
  | retryRead (index : Nat)
  | retryWrite (index : Nat)
  | update (name : ν) (change : V → V)
  | endRead (name : ν) (ending : Ending) (pick : Nat)
  | endWrite (name : ν) (ending : Ending) (pick : Nat)
  | stirReader (index : Nat)
  | stirWriter (index : Nat)

namespace LockRoom

variable {ν V : Type}

def around (value : V) : LockRoom ν V := ⟨.free, value, [], [], [], [], [], []⟩

def read (r : LockRoom ν V) (name : ν) : LockRoom ν V :=
  match r.counters.enterRead? with
  | none => { r with readersAsleep := r.readersAsleep ++ [name] }
  | some counters => { r with counters, reading := r.reading ++ [(name, r.value)] }

/-- The entry of a writer that has announced itself, or its return to sleep. -/
def enterWrite (r : LockRoom ν V) (name : ν) : LockRoom ν V :=
  match r.counters.enterWrite? with
  | none => { r with writersAsleep := r.writersAsleep ++ [name] }
  | some counters => { r with counters, writing := r.writing ++ [name] }

def write (r : LockRoom ν V) (name : ν) : LockRoom ν V :=
  enterWrite { r with counters := r.counters.announceWrite } name

def retryRead (r : LockRoom ν V) (index : Nat) : LockRoom ν V :=
  match r.readersAwake[index]? with
  | none => r
  | some name => read { r with readersAwake := r.readersAwake.eraseIdx index } name

def retryWrite (r : LockRoom ν V) (index : Nat) : LockRoom ν V :=
  match r.writersAwake[index]? with
  | none => r
  | some name => enterWrite { r with writersAwake := r.writersAwake.eraseIdx index } name

/-- Only a writer inside changes the value. -/
def update [DecidableEq ν] (r : LockRoom ν V) (name : ν) (change : V → V) : LockRoom ν V :=
  if name ∈ r.writing then { r with value := change r.value } else r

def stirReader (r : LockRoom ν V) (index : Nat) : LockRoom ν V :=
  match r.readersAsleep[index]? with
  | none => r
  | some name =>
    { r with
      readersAsleep := r.readersAsleep.eraseIdx index
      readersAwake := r.readersAwake ++ [name] }

def stirWriter (r : LockRoom ν V) (index : Nat) : LockRoom ν V :=
  match r.writersAsleep[index]? with
  | none => r
  | some name =>
    { r with
      writersAsleep := r.writersAsleep.eraseIdx index
      writersAwake := r.writersAwake ++ [name] }

def signal (r : LockRoom ν V) (pick : Nat) : Wake → LockRoom ν V
  | .nobody => r
  | .oneWriter => r.stirWriter (pick % r.writersAsleep.length)
  | .allReaders =>
    { r with readersAsleep := [], readersAwake := r.readersAwake ++ r.readersAsleep }

def endRead [DecidableEq ν] (r : LockRoom ν V) (name : ν) (pick : Nat) : LockRoom ν V :=
  if r.reading.any (·.1 = name) then
    let (counters, wake) := r.counters.leaveRead
    signal { r with counters, reading := r.reading.eraseP (·.1 = name) } pick wake
  else r

def endWrite [DecidableEq ν] (r : LockRoom ν V) (name : ν) (pick : Nat) : LockRoom ν V :=
  if name ∈ r.writing then
    let (counters, wake) := r.counters.leaveWrite
    signal { r with counters, writing := r.writing.erase name } pick wake
  else r

def act [DecidableEq ν] (r : LockRoom ν V) : LockAction ν V → LockRoom ν V
  | .read name => r.read name
  | .write name => r.write name
  | .retryRead index => r.retryRead index
  | .retryWrite index => r.retryWrite index
  | .update name change => r.update name change
  | .endRead name _ pick => r.endRead name pick
  | .endWrite name _ pick => r.endWrite name pick
  | .stirReader index => r.stirReader index
  | .stirWriter index => r.stirWriter index

/-- Lets each awakened thread retry once. A retry signals nobody, so none is left awake. -/
def settle (r : LockRoom ν V) : LockRoom ν V :=
  let r := r.writersAwake.foldl (fun r _ => r.retryWrite 0) r
  r.readersAwake.foldl (fun r _ => r.retryRead 0) r

/-- One step and the retries that follow. A writer that enters applies `change` at once. -/
def actAndSettle [DecidableEq ν] (r : LockRoom ν V) (change : V → V) (action : LockAction ν V) :
    LockRoom ν V :=
  let next := (r.act action).settle
  if r.writing.isEmpty || (r.act action).writing.isEmpty then
    next.writing.foldl (fun room name => room.update name change) next
  else next

end LockRoom

end PooledHttp
