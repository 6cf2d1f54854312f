import PooledHttp.Proofs.Pool.Accounts

/-! What each worker does, in its order. It takes a request, calls the handler, closes the connection
or drops it, and only then gives back the place in flight. So what is in flight covers every
connection that was accepted and is still open. -/

namespace PooledHttp

variable {α : Type}

inductive Deed (α : Type)
  | take (request : Pending α)
  | call (request : Pending α) (outcome : Handled α)
  | close (request : Pending α)
  | drop (request : Pending α)
  | release

namespace Deed

def taken? : Deed α → Option (Pending α)
  | take request => some request
  | _ => none

def closed? : Deed α → Option (Pending α)
  | close request => some request
  | _ => none

def dropped? : Deed α → Option (Pending α)
  | drop request => some request
  | _ => none

def isRelease : Deed α → Bool
  | release => true
  | _ => false

def queue (q : RequestQueue α) : Option (Deed α) → RequestQueue α
  | some (take _) => q.pop
  | some release => q.release
  | _ => q

end Deed

/-- What one request takes of a worker, from its delivery until its place is given back. -/
structure Service (α : Type) where
  request : Pending α
  outcome : Handled α

namespace Service

def ending (s : Service α) : Deed α :=
  match s.outcome with
  | .returned connection _ _ => .close { s.request with connection }
  | .failed _ => .drop s.request

def survives (s : Service α) : Bool :=
  match s.outcome with
  | .returned _ _ _ => true
  | .failed _ => false

def deeds (s : Service α) : List (Deed α) :=
  [.take s.request, .call s.request s.outcome, s.ending, .release]

end Service

inductive Stage : WorkerPhase α → Option (Deed α) → WorkerPhase α → Prop
  | stay (phase : WorkerPhase α) : Stage phase none phase
  | retire : Stage .ready none .ended
  | take (request : Pending α) (wait : Span) :
    Stage .ready (some (.take request)) (.handling request wait)
  | returned (request : Pending α) (wait : Span) (connection : α) (tally : Tally) (log : LogBuffer) :
    Stage (.handling request wait) (some (.call request (.returned connection tally log)))
      (.closing { request with connection })
  | failed (request : Pending α) (wait : Span) (log : LogBuffer) :
    Stage (.handling request wait) (some (.call request (.failed log))) (.dropping request)
  | close (request : Pending α) : Stage (.closing request) (some (.close request)) (.releasing true)
  | drop (request : Pending α) : Stage (.dropping request) (some (.drop request)) (.releasing false)
  | release (survives : Bool) :
    Stage (.releasing survives) (some .release) (if survives then .ready else .lost)

/-- What a worker in some phase has done so far for the request that it has. -/
inductive Underway : WorkerPhase α → List (Deed α) → Prop
  | ready : Underway .ready []
  | handling (request : Pending α) (wait : Span) :
    Underway (.handling request wait) [.take request]
  | closing (request : Pending α) (connection : α) (tally : Tally) (log : LogBuffer) :
    Underway (.closing { request with connection })
      [.take request, .call request (.returned connection tally log)]
  | dropping (request : Pending α) (log : LogBuffer) :
    Underway (.dropping request) [.take request, .call request (.failed log)]
  | releasing (s : Service α) :
    Underway (.releasing s.survives) [.take s.request, .call s.request s.outcome, s.ending]
  | ended : Underway .ended []
  | lost : Underway .lost []

/-- What a worker has done so far: services from their beginning to their end, and a part of one. -/
def Coursed (phase : WorkerPhase α) (course : List (Deed α)) : Prop :=
  ∃ (services : List (Service α)) (part : List (Deed α)),
    course = services.flatMap Service.deeds ++ part ∧ Underway phase part

theorem Coursed.stage {phase later : WorkerPhase α} {course : List (Deed α)}
    {deed : Option (Deed α)} (h : Coursed phase course) (hs : Stage phase deed later) :
    Coursed later (course ++ deed.toList) := by
  obtain ⟨services, part, rfl, hu⟩ := h
  have hmore : Underway later (part ++ deed.toList) →
      Coursed later (services.flatMap Service.deeds ++ part ++ deed.toList) := by
    intro hu
    exact ⟨services, _, List.append_assoc _ _ _, hu⟩
  cases hs with
  | stay =>
    refine hmore ?_
    rwa [Option.toList_none, List.append_nil]
  | retire =>
    cases hu
    exact hmore .ended
  | take request wait =>
    cases hu
    exact hmore (.handling request wait)
  | returned request wait connection tally log =>
    cases hu
    exact hmore (.closing request connection tally log)
  | failed request wait log =>
    cases hu
    exact hmore (.dropping request log)
  | close =>
    cases hu with
    | closing request connection tally log =>
      exact hmore (.releasing ⟨request, .returned connection tally log⟩)
  | drop request =>
    cases hu with
    | dropping _ log => exact hmore (.releasing ⟨request, .failed log⟩)
  | release =>
    cases hu with
    | releasing s =>
      -- the service is complete, so the worker has done no part of another one
      refine ⟨services ++ [s], [], ?_, ?_⟩
      · rw [List.flatMap_append, List.flatMap_singleton, List.append_nil, List.append_assoc]
        rfl
      · cases s.survives
        · exact .lost
        · exact .ready

namespace Worker

def hasConnection (w : Worker α) : Bool :=
  match w.phase with
  | .handling _ _ | .closing _ | .dropping _ => true
  | _ => false

theorem countP_hasConnection (workers : List (Worker α)) :
    workers.countP hasConnection = (workers.filterMap taken?).length +
      (workers.filterMap closing?).length + (workers.filterMap dropping?).length := by
  induction workers with
  | nil => rfl
  | cons w workers ih =>
    obtain ⟨id, tally, phase⟩ := w
    cases phase <;>
      simp only [List.countP_cons, List.filterMap_cons, hasConnection, taken?, closing?, dropping?,
        List.length_cons, ih, if_true, Bool.false_eq_true, if_false] <;>
      omega

theorem isBusy_of_hasConnection {w : Worker α} (h : w.hasConnection = true) : w.isBusy = true := by
  obtain ⟨id, tally, phase⟩ := w
  cases phase with
  | handling | closing | dropping => rfl
  | ready | releasing | ended | lost => cases h

end Worker

theorem length_calls (called : List (Call α)) :
    called.length = (called.filterMap Call.left?).length + (called.filter Call.failed).length := by
  induction called with
  | nil => rfl
  | cons c called ih =>
    cases hc : c.left? <;> simp [Call.failed, hc, ih] <;> omega

namespace WorkerPool

open PoolEvent

variable {handler : RequestHandler α} {size : Nat} {past : List (PoolEvent α)}
  {trace : List (Nat × Deed α)} {p next : WorkerPool α} {now : Instant} {index : Nat}

/-- The connections that wait in the queue, and those that the workers have. -/
def unclosed (p : WorkerPool α) : Nat := p.queue.queued + p.workers.countP Worker.hasConnection

theorem Kept.unclosed_le (h : Kept size past p) : p.unclosed ≤ p.queue.inFlight := by
  have hle := List.countP_mono_left (l := p.workers) fun w _ => Worker.isBusy_of_hasConnection (w := w)
  rw [unclosed, h.inFlight_eq]
  omega

theorem Kept.accepts_length (h : Kept size past p) :
    (accepts past).length = p.closed.length + p.dropped.length + p.unclosed := by
  obtain ⟨waiting, hw, he⟩ := h.queue
  have haccepts := congrArg List.length he
  have htaken := h.taken.length_eq
  have hclosed := h.closed.length_eq
  have hdropped := h.dropped.length_eq
  have hcalls := length_calls (calls past)
  have hqueued := hw.queued_eq
  rw [List.length_append] at haccepts htaken hclosed hdropped
  rw [List.length_map] at htaken hdropped
  rw [unclosed, Worker.countP_hasConnection]
  omega

/-- What the worker at a place does if it moves next. -/
def deedAt? (handler : RequestHandler α) (p : WorkerPool α) (index : Nat) : Option (Deed α) :=
  match p.workers[index]? with
  | none => none
  | some w =>
    match w.phase with
    | .ready =>
      match p.queue.deliver with
      | .ok (.delivered request _) => some (.take request)
      | _ => none
    | .handling request wait =>
      some (.call request (handler request.connection request.arrival wait w.tally p.log))
    | .closing request => some (.close request)
    | .dropping request => some (.drop request)
    | .releasing _ => some .release
    | .ended | .lost => none

/-- A step of the worker at a place, by what it does. -/
structure Turn (p : WorkerPool α) (index : Nat) (deed : Option (Deed α)) (next : WorkerPool α) :
    Prop where
  queue_eq : next.queue = Deed.queue p.queue deed
  closed_eq : next.closed = p.closed ++ (deed.bind Deed.closed?).toList
  dropped_eq : next.dropped = p.dropped ++ (deed.bind Deed.dropped?).toList
  covered : deed = some .release → p.queue.queued < p.queue.inFlight
  others : ∀ i, i ≠ index → next.workers[i]? = p.workers[i]?
  own : ∀ w, next.workers[index]? = some w →
    ∃ earlier, p.workers[index]? = some earlier ∧ Stage earlier.phase deed w.phase

theorem Turn.queue_closed {deed : Option (Deed α)} (h : Turn p index deed next) :
    next.queue.closed = p.queue.closed := by
  rw [h.queue_eq]
  rcases deed with _ | deed
  · rfl
  · cases deed <;> rfl

theorem turn_idle (p : WorkerPool α) (index : Nat) : Turn p index none p where
  queue_eq := rfl
  closed_eq := (List.append_nil _).symm
  dropped_eq := (List.append_nil _).symm
  covered := nofun
  others := fun _ _ => rfl
  own := fun w hw => ⟨w, hw, .stay w.phase⟩

theorem workers_of_set {w : Worker α} {workers : List (Worker α)} {deed : Option (Deed α)}
    (hi : workers[index]? = some w) (later : Worker α) (hs : Stage w.phase deed later.phase) :
    (∀ i, i ≠ index → (workers.set index later)[i]? = workers[i]?) ∧
    ∀ v, (workers.set index later)[index]? = some v →
      ∃ earlier, workers[index]? = some earlier ∧ Stage earlier.phase deed v.phase := by
  obtain ⟨hlt, -⟩ := List.getElem?_eq_some_iff.mp hi
  refine ⟨fun i hne => List.getElem?_set_ne hne.symm, ?_⟩
  intro v hv
  rw [List.getElem?_set_self hlt] at hv
  cases hv
  exact ⟨w, hi, hs⟩

theorem step_turn (h : p.step handler now index = .ok next) :
    Turn p index (p.deedAt? handler index) next := by
  cases hi : p.workers[index]? with
  | none =>
    simp only [step, hi] at h
    cases h
    simp only [deedAt?, hi]
    exact turn_idle p index
  | some w =>
    obtain ⟨id, tally, phase⟩ := w
    have hkeep : ∀ {xs : List (Pending α)}, xs = xs ++ [] := (List.append_nil _).symm
    simp only [step, hi] at h
    simp only [deedAt?, hi]
    cases phase with
    | ready =>
      by_cases hq : p.queue.queued = 0
      · have he := RequestQueue.deliver_empty hq
        cases hc : p.queue.closed with
        | true =>
          simp only [he, hc, if_true] at h ⊢
          cases h
          obtain ⟨hothers, hown⟩ := workers_of_set hi ⟨id, tally, .ended⟩ .retire
          exact ⟨rfl, hkeep, hkeep, nofun, hothers, hown⟩
        | false =>
          simp only [he, hc, Bool.false_eq_true, if_false] at h ⊢
          cases h
          exact turn_idle p index
      · cases hd : p.queue.deliver with
        | error e => simp [hd] at h
        | ok delivery =>
          obtain ⟨request, rfl⟩ := RequestQueue.deliver_queued hq hd
          simp only [hd] at h ⊢
          cases h
          obtain ⟨hothers, hown⟩ := workers_of_set hi ⟨id, tally, .handling request _⟩
            (.take request (now.since request.arrival))
          exact ⟨rfl, hkeep, hkeep, nofun, hothers, hown⟩
    | handling request wait =>
      cases ho : handler request.connection request.arrival wait tally p.log with
      | returned connection tally' log =>
        simp only [ho] at h ⊢
        cases h
        obtain ⟨hothers, hown⟩ := workers_of_set hi ⟨id, tally', .closing _⟩
          (.returned request wait connection tally' log)
        exact ⟨rfl, hkeep, hkeep, nofun, hothers, hown⟩
      | failed log =>
        simp only [ho] at h ⊢
        cases h
        obtain ⟨hothers, hown⟩ := workers_of_set hi ⟨id, tally, .dropping request⟩
          (.failed request wait log)
        exact ⟨rfl, hkeep, hkeep, nofun, hothers, hown⟩
    | closing request =>
      cases h
      obtain ⟨hothers, hown⟩ := workers_of_set hi ⟨id, tally, .releasing true⟩
        (.close request)
      exact ⟨rfl, rfl, hkeep, nofun, hothers, hown⟩
    | dropping request =>
      cases h
      obtain ⟨hothers, hown⟩ := workers_of_set hi ⟨id, tally, .releasing false⟩
        (.drop request)
      exact ⟨rfl, hkeep, rfl, nofun, hothers, hown⟩
    | releasing survives =>
      by_cases hlt : p.queue.queued < p.queue.inFlight
      · simp only [RequestQueue.finish, if_pos hlt] at h
        cases h
        obtain ⟨hothers, hown⟩ := workers_of_set hi
          ⟨id, tally, if survives then .ready else .lost⟩ (.release survives)
        exact ⟨rfl, hkeep, hkeep, fun _ => hlt, hothers, hown⟩
      · simp [RequestQueue.finish, if_neg hlt] at h
    | ended | lost =>
      cases h
      exact turn_idle p index

theorem work_event (handler : RequestHandler α) (p : WorkerPool α) (now : Instant) (index : Nat) :
    accepts (p.event? handler (.work now index)).toList = [] ∧
      takes (p.event? handler (.work now index)).toList =
        ((p.deedAt? handler index).bind Deed.taken?).toList := by
  cases hi : p.workers[index]? with
  | none =>
    simp only [event?, deedAt?, hi]
    exact ⟨rfl, rfl⟩
  | some w =>
    obtain ⟨id, tally, phase⟩ := w
    simp only [event?, deedAt?, hi]
    cases phase with
    | ready =>
      rcases p.queue.deliver with e | delivery
      · exact ⟨rfl, rfl⟩
      · cases delivery <;> exact ⟨rfl, rfl⟩
    | handling | closing | dropping | releasing | ended | lost => exact ⟨rfl, rfl⟩

/-! All that the workers of a pool do, each time with the place of the worker. -/

def deed? (handler : RequestHandler α) (p : WorkerPool α) : PoolAction α → Option (Nat × Deed α)
  | .work _ index => (p.deedAt? handler index).map fun deed => (index, deed)
  | _ => none

def deeds (handler : RequestHandler α) : WorkerPool α → List (PoolAction α) → List (Nat × Deed α)
  | _, [] => []
  | p, action :: actions =>
    match p.act handler action with
    | .error _ => []
    | .ok next => (p.deed? handler action).toList ++ deeds handler next actions

def course (trace : List (Nat × Deed α)) (index : Nat) : List (Deed α) :=
  (trace.filter fun entry => entry.1 == index).map Prod.snd

theorem course_append (trace later : List (Nat × Deed α)) (index : Nat) :
    course (trace ++ later) index = course trace index ++ course later index := by
  rw [course, List.filter_append, List.map_append]
  rfl

theorem course_own (index : Nat) (deed : Option (Deed α)) :
    course (deed.map fun deed => (index, deed)).toList index = deed.toList := by
  cases deed with
  | none => rfl
  | some deed => simp [course]

theorem course_other {index i : Nat} (hne : i ≠ index) (deed : Option (Deed α)) :
    course (deed.map fun deed => (index, deed)).toList i = [] := by
  cases deed with
  | none => rfl
  | some deed => simp [course, hne.symm]

structure Traced (past : List (PoolEvent α)) (trace : List (Nat × Deed α)) (p : WorkerPool α) :
    Prop where
  takes_eq : takes past = trace.filterMap fun entry => entry.2.taken?
  closed_eq : p.closed = trace.filterMap fun entry => entry.2.closed?
  dropped_eq : p.dropped = trace.filterMap fun entry => entry.2.dropped?
  inFlight_eq : (accepts past).length =
    p.queue.inFlight + trace.countP fun entry => entry.2.isRelease
  courses : ∀ i w, p.workers[i]? = some w → Coursed w.phase (course trace i)

theorem traced_start {q : RequestQueue α} (hin : q.inFlight = 0) (size : Nat) (log : LogBuffer) :
    Traced [] [] (start size q log) := by
  refine ⟨rfl, rfl, rfl, hin.symm, ?_⟩
  intro i w hw
  rw [start_worker (List.mem_of_getElem? hw)]
  exact ⟨[], [], rfl, .ready⟩

theorem filterMap_entry {β : Type} (f : Deed α → Option β) (index : Nat) (deed : Option (Deed α)) :
    (deed.map fun deed => (index, deed)).toList.filterMap (fun entry => f entry.2) =
      (deed.bind f).toList := by
  cases deed with
  | none => rfl
  | some deed => cases hf : f deed <;> simp [hf]

theorem Traced.work (h : Traced past trace p) (hs : p.step handler now index = .ok next) :
    Traced (past ++ (p.event? handler (.work now index)).toList)
      (trace ++ (p.deed? handler (.work now index)).toList) next := by
  have ht := step_turn hs
  obtain ⟨haccepts, htakes⟩ := work_event handler p now index
  rw [deed?]
  refine ⟨?_, ?_, ?_, ?_, ?_⟩
  · rw [takes_append, List.filterMap_append, htakes, h.takes_eq, filterMap_entry]
  · rw [List.filterMap_append, ht.closed_eq, h.closed_eq, filterMap_entry]
  · rw [List.filterMap_append, ht.dropped_eq, h.dropped_eq, filterMap_entry]
  · have hin := h.inFlight_eq
    rw [accepts_append, haccepts, List.append_nil, List.countP_append, ht.queue_eq]
    cases hd : p.deedAt? handler index with
    | none => exact hin
    | some deed =>
      cases deed with
      | release =>
        have hlt := ht.covered hd
        change _ = p.queue.inFlight - 1 + (_ + 1)
        omega
      | take | call | close | drop => exact hin
  · intro i w hw
    rw [course_append]
    by_cases hi : i = index
    · subst hi
      obtain ⟨earlier, hearlier, hstage⟩ := ht.own w hw
      rw [course_own]
      exact (h.courses i earlier hearlier).stage hstage
    · rw [course_other hi, List.append_nil]
      exact h.courses i w (ht.others i hi ▸ hw)

theorem Traced.act {action : PoolAction α} (h : Traced past trace p)
    (ha : p.act handler action = .ok next) :
    Traced (past ++ (p.event? handler action).toList) (trace ++ (p.deed? handler action).toList)
      next := by
  cases action with
  | work now index => exact h.work ha
  | close =>
    cases ha
    simp only [event?, deed?, Option.toList_none, List.append_nil]
    exact ⟨h.takes_eq, h.closed_eq, h.dropped_eq, h.inFlight_eq, h.courses⟩
  | offer request =>
    simp only [deed?, Option.toList_none, List.append_nil]
    rcases offer_cases ha with ⟨rfl, he⟩ | ⟨-, -, rfl, he⟩
    · rw [he, Option.toList_none, List.append_nil]
      exact h
    · rw [he]
      refine ⟨?_, h.closed_eq, h.dropped_eq, ?_, h.courses⟩
      · rw [takes_append, ← h.takes_eq]
        exact List.append_nil _
      · have hin := h.inFlight_eq
        rw [accepts_append, List.length_append]
        change _ + 1 = p.queue.inFlight + 1 + _
        omega

theorem Move.passage {event : Option (PoolEvent α)} (hm : Move handler p event next) :
    ∃ passed, Passage p.queue passed next.queue := by
  cases hm with
  | accept request hc hfull => exact ⟨_, .accept request hc hfull⟩
  | close => exact ⟨_, .close⟩
  | take _ request _ hd => exact ⟨_, .deliver request hd⟩
  | release _ hlt => exact ⟨_, .finish hlt⟩
  | idle | retire | call | shut | drop => exact ⟨_, .wait⟩

/-- Whoever is in the middle of a service can go on with it. -/
theorem deedAt_of_underway (handler : RequestHandler α) {w : Worker α} {part : List (Deed α)}
    (hi : p.workers[index]? = some w) (hu : Underway w.phase part) :
    part = [] ∨ ∃ (service : Service α) (deed : Deed α) (rest : List (Deed α)),
      service.deeds = part ++ deed :: rest ∧ p.deedAt? handler index = some deed := by
  obtain ⟨id, tally, phase⟩ := w
  cases hu with
  | ready | ended | lost => exact .inl rfl
  | handling request wait =>
    let outcome := handler request.connection request.arrival wait tally p.log
    exact .inr ⟨⟨request, outcome⟩, _, _, rfl, by simp only [deedAt?, hi]; rfl⟩
  | closing request connection tally' log =>
    exact .inr ⟨⟨request, .returned connection tally' log⟩, _, _, rfl,
      by simp only [deedAt?, hi]; rfl⟩
  | dropping request log =>
    exact .inr ⟨⟨request, .failed log⟩, _, _, rfl, by simp only [deedAt?, hi]; rfl⟩
  | releasing service => exact .inr ⟨service, _, _, rfl, by simp only [deedAt?, hi]⟩

theorem run_traces {P : List (PoolEvent α) → List (Nat × Deed α) → WorkerPool α → Prop}
    (hstart : P [] [] p)
    (hreturns : ∀ past trace pool action, P past trace pool → ∃ next, act handler pool action = .ok next)
    (hstep : ∀ past trace pool action next, P past trace pool → act handler pool action = .ok next →
      P (past ++ (pool.event? handler action).toList) (trace ++ (pool.deed? handler action).toList)
        next)
    (actions : List (PoolAction α)) :
    ∃ last, p.run handler actions = .ok last ∧
      P (p.history handler actions) (p.deeds handler actions) last := by
  have hrun : ∀ actions past trace pool, P past trace pool →
      ∃ last, run handler pool actions = .ok last ∧
        P (past ++ history handler pool actions) (trace ++ deeds handler pool actions) last := by
    intro actions
    induction actions with
    | nil =>
      intro past trace pool h
      exact ⟨pool, rfl, by rwa [history, deeds, List.append_nil, List.append_nil]⟩
    | cons action actions ih =>
      intro past trace pool h
      obtain ⟨next, hnext⟩ := hreturns past trace pool action h
      obtain ⟨last, hlast, hh⟩ := ih _ _ next (hstep past trace pool action next h hnext)
      refine ⟨last, by simp only [run, hnext, hlast], ?_⟩
      simpa only [history, deeds, hnext, List.append_assoc] using hh
  simpa only [List.nil_append] using hrun actions [] [] p hstart

/-- However many workers a pool has, whatever its handler does, and however the acceptor, the workers
and whoever closes the queue interleave, no step fails. Where the capacity bounds what is in flight,
it bounds the accepted connections that are not yet closed or dropped. Each worker takes a request,
calls the handler, closes the connection or, after a failure, drops it, and then releases its place,
and does nothing else. If it has not come to the end of this, its next step is the one that is due.
How the closing of a connection ends makes no difference: the connection is gone. -/
theorem run_open_bounded (handler : RequestHandler α) {capacity : Nat} (hc : 0 < capacity)
    (size : Nat) (log : LogBuffer) :
    ∃ q : RequestQueue α, RequestQueue.create capacity .inFlight = .ok q ∧
      ∀ actions,
        let past := history handler (start size q log) actions
        let trace := deeds handler (start size q log) actions
        ∃ p, run handler (start size q log) actions = .ok p ∧
          (accepts past).length = p.closed.length + p.dropped.length + p.unclosed ∧
          p.unclosed ≤ p.queue.inFlight ∧ p.queue.inFlight ≤ capacity ∧
          (accepts past).length =
            p.queue.inFlight + trace.countP (fun entry => entry.2.isRelease) ∧
          takes past = trace.filterMap (fun entry => entry.2.taken?) ∧
          p.closed = trace.filterMap (fun entry => entry.2.closed?) ∧
          p.dropped = trace.filterMap (fun entry => entry.2.dropped?) ∧
          ∀ index < size, ∃ (services : List (Service α)) (part : List (Deed α)),
            course trace index = services.flatMap Service.deeds ++ part ∧
            (part = [] ∨ ∃ (service : Service α) (deed : Deed α) (rest : List (Deed α)),
              service.deeds = part ++ deed :: rest ∧ p.deedAt? handler index = some deed ∧
              ∀ now, ∃ next, p.step handler now index = .ok next) := by
  obtain ⟨q, hq, hholds, hcap, hpolicy, hin, -⟩ := RequestQueue.create_holds (α := α) hc .inFlight
  refine ⟨q, hq, ?_⟩
  intro actions past trace
  let P (past : List (PoolEvent α)) (trace : List (Nat × Deed α)) (p : WorkerPool α) : Prop :=
    Kept size past p ∧ Traced past trace p ∧ p.queue.policy = .inFlight ∧
      p.queue.capacity = capacity ∧ p.queue.inFlight ≤ p.queue.capacity
  have hstart : P [] [] (start size q log) := by
    refine ⟨kept_start hholds hin size log, traced_start hin size log, hpolicy, hcap, ?_⟩
    change q.inFlight ≤ q.capacity
    omega
  have hstep : ∀ past trace pool action next, P past trace pool → act handler pool action = .ok next →
      P (past ++ (pool.event? handler action).toList) (trace ++ (pool.deed? handler action).toList)
        next := by
    rintro past trace pool action next ⟨hk, ht, hpolicy, hcap, hle⟩ ha
    have hm := act_move ha
    obtain ⟨passed, hp⟩ := hm.passage
    exact ⟨hk.step hm, ht.act ha, hp.policy_eq.trans hpolicy, hp.capacity_eq.trans hcap,
      hp.inFlight_le_capacity hpolicy hle⟩
  obtain ⟨p, hp, hk, ht, -, hcapacity, hle⟩ :=
    run_traces hstart (fun _ _ _ action h => h.1.act_returns handler action) hstep actions
  refine ⟨p, hp, hk.accepts_length, hk.unclosed_le, hcapacity ▸ hle, ht.inFlight_eq, ht.takes_eq,
    ht.closed_eq, ht.dropped_eq, ?_⟩
  intro index hlt
  have hi : index < p.workers.length := hk.size_eq.symm ▸ hlt
  have hw : p.workers[index]? = some p.workers[index] := List.getElem?_eq_getElem hi
  obtain ⟨services, part, hcourse, hu⟩ := ht.courses index _ hw
  refine ⟨services, part, hcourse, ?_⟩
  rcases deedAt_of_underway handler hw hu with hnil | ⟨service, deed, rest, hs, hd⟩
  · exact .inl hnil
  · exact .inr ⟨service, deed, rest, hs, hd, fun now => hk.act_returns handler (.work now index)⟩

/-- One place. The connection of a failed request is gone, but the worker has not yet given back the
place, so the next request is not accepted. -/
theorem run_open_bounded_one_place :
    let handler : RequestHandler Nat := fun _ _ _ _ log => .failed log
    let actions : List (PoolAction Nat) :=
      .offer ⟨13, .epoch⟩ :: List.replicate 3 (.work .epoch 0) ++ [.offer ⟨14, .epoch⟩]
    0 < 1 ∧ ∃ q : RequestQueue Nat, RequestQueue.create 1 .inFlight = .ok q ∧
      let past := history handler (start 2 q ⟨[], 1⟩) actions
      ∃ p, run handler (start 2 q ⟨[], 1⟩) actions = .ok p ∧
        accepts past = [⟨13, .epoch⟩] ∧ p.dropped = [⟨13, .epoch⟩] ∧ p.unclosed = 0 ∧
        p.queue.inFlight = 1 := by
  intro handler actions
  obtain ⟨q, hq, h⟩ := run_open_bounded handler (show 0 < 1 by decide) 2 ⟨[], 1⟩
  refine ⟨by decide, q, hq, ?_⟩
  intro past
  obtain ⟨p, hp, hlength, -, -, hin, -, hclosed, hdropped, -⟩ := h actions
  cases hq
  have haccepts : accepts past = [⟨13, .epoch⟩] := by decide +kernel
  have hone : (accepts past).length = 1 := congrArg List.length haccepts
  have hclosed : p.closed = [] := hclosed.trans (by decide +kernel)
  have hdropped : p.dropped = [⟨13, .epoch⟩] := hdropped.trans (by decide +kernel)
  have hunclosed : 1 = 0 + 1 + p.unclosed := by
    rw [hclosed, hdropped] at hlength
    exact hone.symm.trans hlength
  have hkept : 1 = p.queue.inFlight + 0 := hone.symm.trans hin
  exact ⟨p, hp, haccepts, hdropped, by omega, hkept.symm⟩

end WorkerPool

end PooledHttp
