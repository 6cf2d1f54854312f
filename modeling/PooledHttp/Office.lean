import PooledHttp.Handler
import PooledHttp.Log.Waiting

/-! Workers, each at a desk of its own, and the one log that they share. A worker takes up one request
after the other and answers it call by call; between two calls anything may happen at the other desks
and around the log. What a worker asks of the log it waits for until the log has come to it. -/

namespace PooledHttp

inductive Activity
  | idle
  | busy (left : Handling)
  | copying (next : Bytes → Handling)
  | logging (entry : Bytes) (next : Except AllocationError Unit → Handling)
  /-- A counter was full, and the worker is gone. -/
  | lost

structure Station where
  desk : Desk
  /-- How many requests have been taken up. -/
  begun : Nat
  activity : Activity

/-- A request: its worker, and its number among those that this worker has taken up. -/
abbrev Errand (ν : Type) := ν × Nat

structure Office (ν : Type) where
  root : String
  station : ν → Station
  log : LogRoom (Errand ν)

/-- A call of a request that got its answer. -/
structure Note (ν : Type) where
  errand : Errand ν
  reply : Reply HandlerCall.Answer

/-- One step in the office. The machine may be another one at each. -/
inductive OfficeAction (ν : Type)
  | takeUp (worker : ν) (timing : Timing) (incoming : List ReadEvent)
  | proceed (worker : ν) (machine : Machine)
  | inLog (action : LogAction (Errand ν))

/-- Calls come from workers; the other steps are the log's own. -/
def LogAction.isCall {ν : Type} : LogAction ν → Bool
  | append .. | look .. => true
  | _ => false

namespace Office

variable {ν : Type}

/-- Nobody has taken up a request yet. -/
def start (root : String) (tally : ν → Tally) (log : LogBuffer) : Office ν :=
  ⟨root, fun worker => ⟨⟨[], [], tally worker⟩, 0, .idle⟩, .around log⟩

variable [DecidableEq ν]

def put (o : Office ν) (worker : ν) (station : Station) : Office ν :=
  { o with station := fun other => if other = worker then station else o.station other }

/-- The answer of the log goes to whoever still waits for it. -/
def hear (o : Office ν) : LogEvent (Errand ν) → Office ν × Option (Note ν)
  | .appended errand result =>
    let s := o.station errand.1
    match s.activity with
    | .logging entry next =>
      if s.begun = errand.2 then
        (o.put errand.1 { s with activity := .busy (next result) },
          some ⟨errand, ⟨.appendLog entry, result⟩⟩)
      else (o, none)
    | _ => (o, none)
  | .looked errand bytes _ =>
    let s := o.station errand.1
    match s.activity with
    | .copying next =>
      if s.begun = errand.2 then
        (o.put errand.1 { s with activity := .busy (next bytes) },
          some ⟨errand, ⟨.copyLog, bytes⟩⟩)
      else (o, none)
    | _ => (o, none)

/-- A step around the log, and what its answer leads to. -/
def consult (o : Office ν) (action : LogAction (Errand ν)) : Office ν × Option (Note ν) :=
  let (log, event) := o.log.act action
  match event with
  | none => ({ o with log }, none)
  | some event => hear { o with log } event

def takeUp (o : Office ν) (worker : ν) (timing : Timing) (incoming : List ReadEvent) : Office ν :=
  let s := o.station worker
  match s.activity with
  | .idle =>
    o.put worker
      { desk := { s.desk with incoming, output := [] }
        begun := s.begun + 1
        activity := .busy (Handling.answer o.root timing) }
  | _ => o

/-- One call, or the end of the request. -/
def proceed (o : Office ν) (worker : ν) (machine : Machine) : Office ν × Option (Note ν) :=
  let s := o.station worker
  match s.activity with
  | .busy (.done _) => (o.put worker { s with activity := .idle }, none)
  | .busy (.ask (.desk call) next) =>
    match s.desk.perform machine call with
    | .error _ => (o.put worker { s with activity := .lost }, none)
    | .ok (answer, desk) =>
      (o.put worker { s with desk, activity := .busy (next answer) },
        some ⟨(worker, s.begun), ⟨.desk call, answer⟩⟩)
  | .busy (.ask .copyLog next) =>
    (o.put worker { s with activity := .copying next }).consult (.look (worker, s.begun))
  | .busy (.ask (.appendLog entry) next) =>
    (o.put worker { s with activity := .logging entry next }).consult
      (.append (worker, s.begun) entry)
  | _ => (o, none)

def act (o : Office ν) : OfficeAction ν → Office ν × Option (Note ν)
  | .takeUp worker timing incoming => (o.takeUp worker timing incoming, none)
  | .proceed worker machine => o.proceed worker machine
  | .inLog action => if action.isCall then (o, none) else o.consult action

end Office

end PooledHttp
