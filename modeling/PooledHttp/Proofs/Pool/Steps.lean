import PooledHttp.Pool
import PooledHttp.Proofs.Queue.Order

/-! A pool at work. An acceptor offers requests, somebody closes the queue, and the workers take
their steps, all in any order. What one step can do, and runs of such steps. -/

namespace PooledHttp

variable {α : Type}

/-- One call of the handler: who made it, for what, and how it ended. -/
structure Call (α : Type) where
  worker : Nat
  request : Pending α
  wait : Span
  outcome : Handled α

namespace Call

/-- The request as the handler left it, if it returned. -/
def left? (c : Call α) : Option (Pending α) :=
  match c.outcome with
  | .returned connection _ _ => some { c.request with connection }
  | .failed _ => none

def failed (c : Call α) : Bool := c.left?.isNone

end Call

inductive PoolAction (α : Type)
  | offer (request : Pending α)
  | close
  | work (now : Instant) (index : Nat)

inductive PoolEvent (α : Type)
  | accepted (request : Pending α)
  | taken (request : Pending α)
  | called (call : Call α)

namespace PoolEvent

def accepted? : PoolEvent α → Option (Pending α)
  | accepted request => some request
  | _ => none

def taken? : PoolEvent α → Option (Pending α)
  | taken request => some request
  | _ => none

def call? : PoolEvent α → Option (Call α)
  | called call => some call
  | _ => none

def accepts (past : List (PoolEvent α)) : List (Pending α) := past.filterMap accepted?

def takes (past : List (PoolEvent α)) : List (Pending α) := past.filterMap taken?

def calls (past : List (PoolEvent α)) : List (Call α) := past.filterMap call?

@[simp] theorem accepts_append (past later : List (PoolEvent α)) :
    accepts (past ++ later) = accepts past ++ accepts later := List.filterMap_append

@[simp] theorem takes_append (past later : List (PoolEvent α)) :
    takes (past ++ later) = takes past ++ takes later := List.filterMap_append

@[simp] theorem calls_append (past later : List (PoolEvent α)) :
    calls (past ++ later) = calls past ++ calls later := List.filterMap_append

end PoolEvent

namespace Worker

def resumed (id : Nat) (tally : Tally) (request : Pending α) : Handled α → Worker α
  | .returned connection tally _ => ⟨id, tally, .closing { request with connection }⟩
  | .failed _ => ⟨id, tally, .dropping request⟩

end Worker

def Handled.log : Handled α → LogBuffer
  | .returned _ _ log => log
  | .failed log => log

namespace WorkerPool

/-- An acceptor that has to wait leaves the queue as it is, and may offer the request again. -/
def act (handler : RequestHandler α) (p : WorkerPool α) :
    PoolAction α → Except QueueFault (WorkerPool α)
  | .offer request =>
    match p.queue.offer request with
    | .error e => .error e
    | .ok (.accepted queue) => .ok { p with queue }
    | .ok _ => .ok p
  | .close => .ok { p with queue := p.queue.close }
  | .work now index => p.step handler now index

def event? (handler : RequestHandler α) (p : WorkerPool α) : PoolAction α → Option (PoolEvent α)
  | .offer request =>
    match p.queue.offer request with
    | .ok (.accepted _) => some (.accepted request)
    | _ => none
  | .close => none
  | .work _ index =>
    match p.workers[index]? with
    | none => none
    | some w =>
      match w.phase with
      | .ready =>
        match p.queue.deliver with
        | .ok (.delivered request _) => some (.taken request)
        | _ => none
      | .handling request wait =>
        some (.called ⟨w.id, request, wait,
          handler request.connection request.arrival wait w.tally p.log⟩)
      | _ => none

/-- What a step does. The worker that moves has some before it and some behind it, who stay as they
are. -/
inductive Move (handler : RequestHandler α) (p : WorkerPool α) :
    Option (PoolEvent α) → WorkerPool α → Prop
  | idle : Move handler p none p
  | accept (request : Pending α) (hc : p.queue.closed = false) (hfull : p.queue.isFull = false) :
    Move handler p (some (.accepted request)) { p with queue := p.queue.push request }
  | close : Move handler p none { p with queue := p.queue.close }
  | retire {front back : List (Worker α)} {id : Nat} {tally : Tally}
    (hw : p.workers = front ++ ⟨id, tally, .ready⟩ :: back)
    (hq : p.queue.queued = 0) (hc : p.queue.closed = true) :
    Move handler p none { p with workers := front ++ ⟨id, tally, .ended⟩ :: back }
  | take {front back : List (Worker α)} {id : Nat} {tally : Tally}
    (hw : p.workers = front ++ ⟨id, tally, .ready⟩ :: back) (request : Pending α) (wait : Span)
    (hd : p.queue.deliver = .ok (.delivered request p.queue.pop)) :
    Move handler p (some (.taken request))
      { p with
        queue := p.queue.pop
        workers := front ++ ⟨id, tally, .handling request wait⟩ :: back }
  | call {front back : List (Worker α)} {id : Nat} {tally : Tally} {request : Pending α}
    {wait : Span} (hw : p.workers = front ++ ⟨id, tally, .handling request wait⟩ :: back)
    {outcome : Handled α}
    (ho : handler request.connection request.arrival wait tally p.log = outcome) :
    Move handler p (some (.called ⟨id, request, wait, outcome⟩))
      { p with
        log := outcome.log
        handled := p.handled ++ [(request, wait)]
        workers := front ++ Worker.resumed id tally request outcome :: back }
  | shut {front back : List (Worker α)} {id : Nat} {tally : Tally} {request : Pending α}
    (hw : p.workers = front ++ ⟨id, tally, .closing request⟩ :: back) :
    Move handler p none
      { p with
        closed := p.closed ++ [request]
        workers := front ++ ⟨id, tally, .releasing true⟩ :: back }
  | drop {front back : List (Worker α)} {id : Nat} {tally : Tally} {request : Pending α}
    (hw : p.workers = front ++ ⟨id, tally, .dropping request⟩ :: back) :
    Move handler p none
      { p with
        dropped := p.dropped ++ [request]
        workers := front ++ ⟨id, tally, .releasing false⟩ :: back }
  | release {front back : List (Worker α)} {id : Nat} {tally : Tally} {survives : Bool}
    (hw : p.workers = front ++ ⟨id, tally, .releasing survives⟩ :: back)
    (hlt : p.queue.queued < p.queue.inFlight) :
    Move handler p none
      { p with
        queue := p.queue.release
        workers := front ++ ⟨id, tally, if survives then .ready else .lost⟩ :: back }

theorem exists_split {workers : List (Worker α)} {index : Nat} {w : Worker α}
    (h : workers[index]? = some w) :
    ∃ front back, workers = front ++ w :: back ∧
      ∀ next, workers.set index next = front ++ next :: back := by
  obtain ⟨hlt, rfl⟩ := List.getElem?_eq_some_iff.mp h
  refine ⟨workers.take index, workers.drop (index + 1), ?_, ?_⟩
  · rw [List.getElem_cons_drop, List.take_append_drop]
  · intro next
    exact List.set_eq_take_append_cons_drop.trans (if_pos hlt)

theorem step_move {handler : RequestHandler α} {now : Instant} {p next : WorkerPool α} {index : Nat}
    (h : p.step handler now index = .ok next) :
    Move handler p (p.event? handler (.work now index)) next := by
  cases hi : p.workers[index]? with
  | none =>
    simp only [step, hi] at h
    cases h
    simp only [event?, hi]
    exact .idle
  | some w =>
    obtain ⟨front, back, hw, hset⟩ := exists_split hi
    obtain ⟨id, tally, phase⟩ := w
    simp only [step, hi] at h
    simp only [event?, hi]
    cases phase with
    | ready =>
      by_cases hq : p.queue.queued = 0
      · have he := RequestQueue.deliver_empty hq
        cases hc : p.queue.closed with
        | true =>
          simp only [he, hc, if_true] at h ⊢
          cases h
          rw [setWorker, hset]
          exact .retire hw hq hc
        | false =>
          simp only [he, hc, Bool.false_eq_true, if_false] at h ⊢
          cases h
          exact .idle
      · cases hd : p.queue.deliver with
        | error e => simp [hd] at h
        | ok delivery =>
          obtain ⟨request, rfl⟩ := RequestQueue.deliver_queued hq hd
          simp only [hd] at h ⊢
          cases h
          simp only [setWorker, hset]
          exact .take hw request _ hd
    | handling request wait =>
      cases ho : handler request.connection request.arrival wait tally p.log with
      | returned connection tally log =>
        simp only [ho] at h ⊢
        cases h
        simp only [setWorker, hset]
        exact .call hw ho
      | failed log =>
        simp only [ho] at h ⊢
        cases h
        simp only [setWorker, hset]
        exact .call hw ho
    | closing request =>
      cases h
      simp only [setWorker, hset]
      exact .shut hw
    | dropping request =>
      cases h
      simp only [setWorker, hset]
      exact .drop hw
    | releasing survives =>
      by_cases hlt : p.queue.queued < p.queue.inFlight
      · simp only [RequestQueue.finish, if_pos hlt] at h
        cases h
        simp only [setWorker, hset]
        exact .release hw hlt
      · simp [RequestQueue.finish, if_neg hlt] at h
    | ended | lost =>
      cases h
      exact .idle

theorem offer_cases {handler : RequestHandler α} {p next : WorkerPool α} {request : Pending α}
    (h : p.act handler (.offer request) = .ok next) :
    (next = p ∧ p.event? handler (.offer request) = none) ∨
    (p.queue.closed = false ∧ p.queue.isFull = false ∧
      next = { p with queue := p.queue.push request } ∧
      p.event? handler (.offer request) = some (.accepted request)) := by
  cases ho : p.queue.offer request with
  | error e => simp [act, ho] at h
  | ok admission =>
    rcases RequestQueue.offer_cases ho with ⟨-, rfl⟩ | ⟨-, -, rfl⟩ | ⟨hc, hfull, rfl⟩
    · simp only [act, ho] at h
      cases h
      exact .inl ⟨rfl, by simp only [event?, ho]⟩
    · simp only [act, ho] at h
      cases h
      exact .inl ⟨rfl, by simp only [event?, ho]⟩
    · simp only [act, ho] at h
      cases h
      exact .inr ⟨hc, hfull, rfl, by simp only [event?, ho]⟩

theorem act_move {handler : RequestHandler α} {p next : WorkerPool α} {action : PoolAction α}
    (h : p.act handler action = .ok next) : Move handler p (p.event? handler action) next := by
  cases action with
  | offer request =>
    rcases offer_cases h with ⟨rfl, he⟩ | ⟨hc, hfull, rfl, he⟩
    · rw [he]
      exact .idle
    · rw [he]
      exact .accept request hc hfull
  | close =>
    cases h
    exact .close
  | work now index => exact step_move h

def run (handler : RequestHandler α) :
    WorkerPool α → List (PoolAction α) → Except QueueFault (WorkerPool α)
  | p, [] => .ok p
  | p, action :: actions =>
    match p.act handler action with
    | .error e => .error e
    | .ok next => run handler next actions

def history (handler : RequestHandler α) : WorkerPool α → List (PoolAction α) → List (PoolEvent α)
  | _, [] => []
  | p, action :: actions =>
    match p.act handler action with
    | .error _ => []
    | .ok next => (p.event? handler action).toList ++ history handler next actions

/-- Where what holds lets every step succeed and is kept by it, it holds after every run. -/
theorem run_keeps {handler : RequestHandler α} {P : List (PoolEvent α) → WorkerPool α → Prop}
    {p : WorkerPool α} (hstart : P [] p)
    (hreturns : ∀ past pool action, P past pool → ∃ next, act handler pool action = .ok next)
    (hstep : ∀ past pool event next, P past pool → Move handler pool event next →
      P (past ++ event.toList) next)
    (actions : List (PoolAction α)) :
    ∃ last, p.run handler actions = .ok last ∧ P (p.history handler actions) last := by
  have hrun : ∀ actions past pool, P past pool →
      ∃ last, run handler pool actions = .ok last ∧ P (past ++ history handler pool actions) last := by
    intro actions
    induction actions with
    | nil =>
      intro past pool h
      exact ⟨pool, rfl, by rwa [history, List.append_nil]⟩
    | cons action actions ih =>
      intro past pool h
      obtain ⟨next, hnext⟩ := hreturns past pool action h
      obtain ⟨last, hlast, hh⟩ := ih _ next (hstep past pool _ next h (act_move hnext))
      refine ⟨last, by simp only [run, hnext, hlast], ?_⟩
      simpa only [history, hnext, List.append_assoc] using hh
  simpa only [List.nil_append] using hrun actions [] p hstart

end WorkerPool

end PooledHttp
