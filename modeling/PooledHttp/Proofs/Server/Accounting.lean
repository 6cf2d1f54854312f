import Mathlib
import PooledHttp.Proofs.Pool.Courses
import PooledHttp.Proofs.Pool.Drain
import PooledHttp.Proofs.Server.Steps

/-! The accounts of a server. Each connection that the acceptor took was queued, is still in its
hands, or was given up when it left, and it leaves only after a shutdown has begun. What was queued
has been handled when the server comes to its end. -/

namespace PooledHttp

variable {α : Type}

namespace Server

open PoolEvent

variable {handler : RequestHandler α} {size : Nat} {before : List (Action α)} {taken now : List α}
  {past : List (PoolEvent α)} {s next : Server α} {action : Action α} {event : Option (PoolEvent α)}

structure Accounted (size : Nat) (before : List (Action α)) (taken : List α)
    (past : List (PoolEvent α)) (s : Server α) : Prop where
  kept : WorkerPool.Kept size past s.pool
  taken_eq : taken = (accepts past).map Pending.connection ++ s.phase.held ++ s.discarded
  stop : s.stop = true → Action.raiseStop ∈ before
  closed : s.pool.queue.closed = true → s.stop = true
  left : s.phase.hasLeft = true → s.stop = true
  discarded : s.discarded.length ≤ s.phase.hasLeft.toNat
  shut : s.phase.hasClosed = true → s.pool.queue.closed = true
  ended : ∀ results, s.phase = .ended results →
    results = s.pool.results ∧ ∀ w ∈ s.pool.workers, w.isDone = true

theorem Accounted.discarded_eq (h : Accounted size before taken past s)
    (hp : s.phase.hasLeft = false) : s.discarded = [] := by
  have hle := h.discarded
  rw [hp] at hle
  exact List.length_eq_zero_iff.mp (Nat.le_zero.mp hle)

theorem Accounted.taken_step (h : Accounted size before taken past s)
    (hm : Move handler s action now event next) :
    taken ++ now =
      (accepts (past ++ event.toList)).map Pending.connection ++ next.phase.held ++
        next.discarded := by
  have ht := h.taken_eq
  have hnil := h.discarded_eq
  rw [accepts_append]
  cases hm with
  | idle | raiseStop | closeQueue => simpa [accepts] using ht
  | work hw =>
    obtain ⟨hnone, -⟩ := WorkerPool.work_event handler s.pool _ _
    rw [hnone, List.append_nil, List.append_nil]
    exact ht
  | close hp | finish hp =>
    rw [hp] at ht
    simpa [accepts, AcceptorPhase.held] using ht
  | receive hp | pause hp | resume hp | proceed hp | leave hp | reject hp | enqueue hp =>
    -- before it leaves, the acceptor has given nothing up
    rw [hp] at ht hnil
    simp [ht, hnil rfl, accepts, accepted?, AcceptorPhase.held, Incoming.dropped]

theorem Accounted.stop_step (h : Accounted size before taken past s)
    (hm : Move handler s action now event next) (hs : next.stop = true) :
    Action.raiseStop ∈ before ++ [action] := by
  cases hm with
  | raiseStop => exact List.mem_append_right _ (List.mem_singleton_self _)
  | idle | receive | leave | pause | resume | proceed | enqueue | reject | close | finish | work
  | closeQueue => exact List.mem_append_left _ (h.stop hs)

theorem Accounted.closed_step (h : Accounted size before taken past s)
    (hm : Move handler s action now event next) (hc : next.pool.queue.closed = true) :
    next.stop = true := by
  cases hm with
  | raiseStop => rfl
  | closeQueue hs => exact hs
  | close hp => exact h.left (by rw [hp]; rfl)
  | work hw =>
    rw [(WorkerPool.step_turn hw).queue_closed] at hc
    exact h.closed hc
  | idle | receive | leave | pause | resume | proceed | enqueue | reject | finish => exact h.closed hc

theorem Accounted.left_step (h : Accounted size before taken past s)
    (hm : Move handler s action now event next) (hl : next.phase.hasLeft = true) :
    next.stop = true := by
  cases hm with
  | raiseStop => rfl
  | leave _ hs => exact hs
  | reject _ hc => exact h.closed hc
  | close hp | finish hp => exact h.left (by rw [hp]; rfl)
  | idle | work | closeQueue => exact h.left hl
  | receive | pause | resume | proceed | enqueue => cases hl

theorem Accounted.discarded_step (h : Accounted size before taken past s)
    (hm : Move handler s action now event next) :
    next.discarded.length ≤ next.phase.hasLeft.toNat := by
  have hle := h.discarded
  have hnil := h.discarded_eq
  cases hm with
  | idle | work | raiseStop | closeQueue => exact hle
  | close hp | finish hp | receive hp | pause hp | resume hp | proceed hp | enqueue hp =>
    rw [hp] at hle
    exact hle
  | @leave incoming _ hp hs =>
    rw [hp] at hnil
    rw [hnil rfl, List.nil_append]
    cases incoming with
    | connection connection => exact Nat.le_refl 1
    | failure cause => exact Nat.zero_le 1
  | reject hp hc =>
    rw [hp] at hnil
    rw [hnil rfl]
    exact Nat.le_refl 1

theorem Accounted.shut_step (h : Accounted size before taken past s)
    (hm : Move handler s action now event next) (hc : next.phase.hasClosed = true) :
    next.pool.queue.closed = true := by
  cases hm with
  | close | closeQueue => rfl
  | finish hp => exact h.shut (by rw [hp]; rfl)
  | work hw =>
    rw [(WorkerPool.step_turn hw).queue_closed]
    exact h.shut hc
  | idle | raiseStop => exact h.shut hc
  | receive | leave | pause | resume | proceed | enqueue | reject => cases hc

theorem Accounted.ended_step (h : Accounted size before taken past s)
    (hm : Move handler s action now event next) {results : List Tally}
    (he : next.phase = .ended results) :
    results = next.pool.results ∧ ∀ w ∈ next.pool.workers, w.isDone = true := by
  cases hm with
  | finish _ hdone =>
    cases he
    exact ⟨rfl, List.all_eq_true.mp hdone⟩
  | work hw =>
    obtain ⟨hresults, hdone⟩ := h.ended results he
    rw [WorkerPool.step_of_done hdone hw]
    exact ⟨hresults, hdone⟩
  | idle | raiseStop | closeQueue => exact h.ended results he
  | receive | leave | pause | resume | proceed | enqueue | reject | close => cases he

theorem Accounted.step (h : Accounted size before taken past s)
    (hm : Move handler s action now event next) :
    Accounted size (before ++ [action]) (taken ++ now) (past ++ event.toList) next where
  kept := h.kept.step hm.pool
  taken_eq := h.taken_step hm
  stop := h.stop_step hm
  closed := h.closed_step hm
  left := h.left_step hm
  discarded := h.discarded_step hm
  shut := h.shut_step hm
  ended := fun _ => h.ended_step hm

theorem Accounted.actAll_returns (h : Accounted size before taken past s)
    (handler : RequestHandler α) (actions : List (Action α)) :
    ∃ last, s.actAll handler actions = .ok last ∧
      Accounted size (before ++ actions) (taken ++ s.obtainedIn handler actions)
        (past ++ s.history handler actions) last := by
  refine run_keeps (P := fun b t p server => Accounted size (before ++ b) (taken ++ t) (past ++ p) server)
    ?_ (fun _ _ _ _ action hk => act_returns hk.kept handler action) ?_ actions
  · rwa [List.append_nil, List.append_nil, List.append_nil]
  · intro b t p server action now event next hk hm
    rw [← List.append_assoc, ← List.append_assoc, ← List.append_assoc]
    exact hk.step hm

theorem accounted_start {q : RequestQueue α} (hq : q.Holds []) (hin : q.inFlight = 0)
    (hopen : q.closed = false) (size : Nat) (log : LogBuffer) :
    Accounted size [] [] [] (Server.start (.start size q log)) := by
  refine ⟨WorkerPool.kept_start hq hin size log, rfl, nofun, ?_, nofun, Nat.le_refl 0, nofun, nofun⟩
  intro hc
  change q.closed = true at hc
  rw [hopen] at hc
  cases hc

/-! A shutdown brings a server to its end from wherever it is. -/

def Reaches (handler : RequestHandler α) (s t : Server α) : Prop :=
  ∃ more, s.actAll handler more = .ok t

theorem Reaches.refl (handler : RequestHandler α) (s : Server α) : Reaches handler s s := ⟨[], rfl⟩

theorem Reaches.trans {t u : Server α} (h : Reaches handler s t) (h' : Reaches handler t u) :
    Reaches handler s u := by
  obtain ⟨more, hmore⟩ := h
  obtain ⟨rest, hrest⟩ := h'
  refine ⟨more ++ rest, ?_⟩
  rw [actAll_append, hmore]
  exact hrest

theorem reaches_act (h : s.act handler action = .ok next) : Reaches handler s next :=
  ⟨[action], by rw [actAll_cons, h]; rfl⟩

theorem reaches_leaving_received (handler : RequestHandler α) {incoming : Incoming α}
    (hs : s.stop = true) (hp : s.phase = .received incoming) :
    ∃ next, Reaches handler s next ∧ next.phase = .leaving := by
  have ha : s.act handler (.advance .epoch) =
      .ok { s with phase := .leaving, discarded := s.discarded ++ incoming.dropped } := by
    simp only [act, advance, hp, if_pos hs]
  exact ⟨_, reaches_act ha, rfl⟩

theorem reaches_leaving_waiting (handler : RequestHandler α) (hs : s.stop = true)
    (hp : s.phase = .waiting) : ∃ next, Reaches handler s next ∧ next.phase = .leaving := by
  have ha : s.act handler (.receive (.failure .timedOut)) =
      .ok { s with phase := .received (.failure .timedOut) } := by
    simp only [act, receive, hp]
  obtain ⟨next, hnext, hl⟩ := reaches_leaving_received handler
    (s := { s with phase := .received (.failure .timedOut) }) hs rfl
  exact ⟨next, (reaches_act ha).trans hnext, hl⟩

/-- An acceptor that has not left is somewhere in its loop. Each way through it ends at the flag or
at the closed queue. -/
theorem reaches_leaving (handler : RequestHandler α) (hs : s.stop = true)
    (hc : s.pool.queue.closed = true) (hl : s.phase.hasLeft = false) :
    ∃ next, Reaches handler s next ∧ next.phase = .leaving := by
  cases hp : s.phase with
  | waiting => exact reaches_leaving_waiting handler hs hp
  | received incoming => exact reaches_leaving_received handler hs hp
  | pausing milliseconds =>
    have ha : s.act handler (.advance .epoch) = .ok { s with phase := .waiting } := by
      simp only [act, advance, hp]
    obtain ⟨next, hnext, hn⟩ :=
      reaches_leaving_waiting handler (s := { s with phase := .waiting }) hs rfl
    exact ⟨next, (reaches_act ha).trans hnext, hn⟩
  | enqueuing request =>
    have ha : s.act handler (.advance .epoch) =
        .ok { s with phase := .leaving, discarded := s.discarded ++ [request.connection] } := by
      simp only [act, advance, hp, RequestQueue.offer_closed hc]
    exact ⟨_, reaches_act ha, rfl⟩
  | leaving | draining | ended =>
    rw [hp] at hl
    cases hl

theorem reaches_draining (handler : RequestHandler α) (hs : s.stop = true)
    (hc : s.pool.queue.closed = true) (hl : s.phase.hasClosed = false) :
    ∃ next, Reaches handler s next ∧ next.phase = .draining := by
  have hclose : ∀ {t : Server α}, t.phase = .leaving →
      ∃ next, Reaches handler t next ∧ next.phase = .draining := by
    intro t hp
    have ha : t.act handler (.advance .epoch) =
        .ok { t with pool := { t.pool with queue := t.pool.queue.close }, phase := .draining } := by
      simp only [act, advance, hp]
    exact ⟨_, reaches_act ha, rfl⟩
  cases hp : s.phase with
  | leaving => exact hclose hp
  | waiting | received | pausing | enqueuing =>
    obtain ⟨mid, hmid, hm⟩ := reaches_leaving handler hs hc (by rw [hp]; rfl)
    obtain ⟨next, hnext, hn⟩ := hclose hm
    exact ⟨next, hmid.trans hnext, hn⟩
  | draining | ended =>
    rw [hp] at hl
    cases hl

theorem actAll_work (handler : RequestHandler α) (now : Instant) (s : Server α)
    (indices : List Nat) :
    s.actAll handler (indices.map (.work now)) =
      (indices.foldlM (WorkerPool.step handler now) s.pool).map fun pool => { s with pool } := by
  induction indices generalizing s with
  | nil => rfl
  | cons index indices ih =>
    rw [List.map_cons, actAll_cons, act, List.foldlM_cons]
    cases WorkerPool.step handler now s.pool index with
    | error e => rfl
    | ok pool => exact ih { s with pool }

theorem Accounted.reaches_ended_draining (h : Accounted size before taken past s)
    (handler : RequestHandler α) (hp : s.phase = .draining) :
    ∃ last results, Reaches handler s last ∧ last.phase = .ended results := by
  have hc : s.pool.queue.closed = true := h.shut (by rw [hp]; rfl)
  obtain ⟨indices, hindices⟩ :=
    WorkerPool.rounds_turns handler .epoch (4 * s.pool.queue.inFlight + 1) s.pool
  obtain ⟨mid, hmid, -⟩ := h.actAll_returns handler (indices.map (.work .epoch))
  have hwork := hmid
  rw [actAll_work, ← hindices] at hwork
  cases hr : s.pool.rounds handler .epoch (4 * s.pool.queue.inFlight + 1) with
  | error e =>
    rw [hr] at hwork
    cases hwork
  | ok pool =>
    rw [hr] at hwork
    cases hwork
    have hahead : s.pool.ahead < 4 * s.pool.queue.inFlight + 1 := Nat.lt_succ_of_le h.kept.ahead_le
    have hdone := WorkerPool.rounds_done hc (.inr hahead) hr
    have ha : act handler { s with pool } (.advance .epoch) =
        .ok { s with pool, phase := .ended pool.results } := by
      simp only [act, advance, hp, if_pos hdone]
    exact ⟨_, pool.results, Reaches.trans ⟨_, hmid⟩ (reaches_act ha), rfl⟩

theorem Accounted.reaches_ended (h : Accounted size before taken past s)
    (handler : RequestHandler α) :
    ∃ more last results, s.actAll handler (.raiseStop :: .closeQueue :: more) = .ok last ∧
      last.phase = .ended results := by
  have hends : ∀ {t last : Server α} {results : List Tally},
      s.actAll handler [.raiseStop, .closeQueue] = .ok t → Reaches handler t last →
      last.phase = .ended results → ∃ more last results,
        s.actAll handler (.raiseStop :: .closeQueue :: more) = .ok last ∧
          last.phase = .ended results := by
    intro t last results ht hr hp
    obtain ⟨more, hmore⟩ := hr
    refine ⟨more, last, results, ?_, hp⟩
    change s.actAll handler ([.raiseStop, .closeQueue] ++ more) = .ok last
    rw [actAll_append, ht]
    exact hmore
  obtain ⟨t, ht, hk⟩ := h.actAll_returns handler [.raiseStop, .closeQueue]
  have hshut : t.stop = true ∧ t.pool.queue.closed = true := by
    cases ht
    exact ⟨rfl, rfl⟩
  cases hc : t.phase.hasClosed with
  | false =>
    obtain ⟨mid, ⟨more, hmore⟩, hm⟩ := reaches_draining handler hshut.1 hshut.2 hc
    obtain ⟨_, hmid, hk⟩ := hk.actAll_returns handler more
    rw [hmore] at hmid
    cases hmid
    obtain ⟨last, results, hlast, hp⟩ := hk.reaches_ended_draining handler hm
    exact hends ht (Reaches.trans ⟨more, hmore⟩ hlast) hp
  | true =>
    cases hp : t.phase with
    | draining =>
      obtain ⟨last, results, hlast, hp⟩ := hk.reaches_ended_draining handler hp
      exact hends ht hlast hp
    | ended results => exact hends ht (.refl handler t) hp
    | waiting | received | pausing | enqueuing | leaving =>
      rw [hp] at hc
      cases hc

/-- However clients, failing accepts, the acceptor, the workers and any number of shutdowns
interleave, no step of a server fails. The connections that it took are, in their order, those that
it queued and then those that the acceptor still has or has given up. It gives up at most one, and
only after a shutdown has raised the flag. If no handler has failed when the server comes to its end,
each queued connection has been handled exactly once, and the queue is closed and empty with nothing
in flight. With the handler of a site the totals add up to the number of queued connections. A
shutdown can bring every server to such an end. -/
theorem run_accounted (handler : RequestHandler Connection) {capacity size : Nat}
    (hc : 0 < capacity) (hsize : 0 < size) (policy : AdmissionPolicy) (log : LogBuffer) :
    ∃ q : RequestQueue Connection, RequestQueue.create capacity policy = .ok q ∧
      ∀ actions,
        let first := Server.start (.start size q log)
        let taken := first.obtainedIn handler actions
        let past := first.history handler actions
        ∃ s, first.actAll handler actions = .ok s ∧
          taken = (accepts past).map Pending.connection ++ s.phase.held ++ s.discarded ∧
          s.discarded.length ≤ 1 ∧
          (s.discarded ≠ [] → Action.raiseStop ∈ actions) ∧
          ((∀ c ∈ calls past, c.failed = false) → ∀ results, s.phase = .ended results →
            (s.pool.handled.map Prod.fst).Perm (accepts past) ∧
            s.pool.queue.closed = true ∧ s.pool.queue.Holds [] ∧ s.pool.queue.inFlight = 0 ∧
            results.length = size ∧
            ∀ (site : Site) (allocate : Allocator), handler = site.handler allocate →
              (results.map Tally.total).sum = (accepts past).length) ∧
          ∃ more last results,
            s.actAll handler (.raiseStop :: .closeQueue :: more) = .ok last ∧
            last.phase = .ended results := by
  obtain ⟨q, hq, hholds, -, -, hin, hopen⟩ :=
    RequestQueue.create_holds (α := Connection) hc policy
  refine ⟨q, hq, ?_⟩
  intro actions first taken past
  let P (before : List (Action Connection)) (taken : List Connection)
      (past : List (PoolEvent Connection)) (s : Server Connection) : Prop :=
    Accounted size before taken past s ∧
      (CountsEach handler → s.pool.counted = (calls past).countP fun c => !c.failed)
  have hstart : P [] [] [] first :=
    ⟨accounted_start hholds hin hopen size log, fun _ => WorkerPool.counted_start size q log⟩
  have hstep : ∀ before taken past server action now event next, P before taken past server →
      Move handler server action now event next →
      P (before ++ [action]) (taken ++ now) (past ++ event.toList) next := by
    rintro before taken past server action now event next ⟨hk, hc⟩ hm
    refine ⟨hk.step hm, ?_⟩
    intro hcounts
    rw [WorkerPool.counted_step hcounts hm.pool, hc hcounts, calls_append, List.countP_append]
  obtain ⟨s, hs, hk, hcounted⟩ := run_keeps hstart
    (fun _ _ _ _ action h => act_returns h.1.kept handler action) hstep actions
  refine ⟨s, hs, hk.taken_eq, hk.discarded.trans (Bool.toNat_le _), ?_, ?_, hk.reaches_ended handler⟩
  · intro hne
    cases hl : s.phase.hasLeft with
    | false => exact absurd (hk.discarded_eq hl) hne
    | true => exact hk.stop (hk.left hl)
  · intro hwell results hp
    obtain ⟨rfl, hdone⟩ := hk.ended results hp
    have hserved := hk.kept.allServed hsize hdone hwell
    refine ⟨hserved.once, hserved.closed, hserved.left, hserved.inFlight_eq, ?_, ?_⟩
    · rw [hserved.results, List.length_map, hk.kept.size_eq]
    · rintro site allocate rfl
      have hall : (calls past).countP (fun c => !c.failed) = (calls past).length :=
        List.countP_eq_length.mpr fun c hc => by rw [hwell c hc]; rfl
      rw [← hserved.calls_length, ← hall, ← hcounted (site.handler_countsEach allocate),
        hserved.results, List.map_map]
      rfl

/-- One client is served. Then a shutdown raises the flag, its own connection is taken, and the
acceptor leaves with that one in its hands. -/
theorem run_accounted_wake_up :
    let handler := Site.handler ⟨⟨.empty, []⟩, "/"⟩ fun _ => none
    let client := Connection.ofReads []
    let wakeUp := Connection.ofReads [.failed .connectionReset]
    let served : List (Action Connection) :=
      .receive (.connection client) :: .advance .epoch :: .advance .epoch ::
        List.replicate 4 (.work .epoch 0)
    let actions : List (Action Connection) :=
      served ++ [.raiseStop, .receive (.connection wakeUp), .closeQueue, .advance .epoch,
        .advance .epoch, .work .epoch 0, .advance .epoch]
    0 < 1 ∧ ∃ q : RequestQueue Connection, RequestQueue.create 1 .queue = .ok q ∧
      let first := Server.start (.start 1 q ⟨[], 1⟩)
      ∃ s results, first.actAll handler actions = .ok s ∧ s.phase = .ended results ∧
        first.obtainedIn handler actions = [client, wakeUp] ∧ s.discarded = [wakeUp] ∧
        s.pool.queue.inFlight = 0 ∧ (results.map Tally.total).sum = 1 := by
  intro handler client wakeUp served actions
  obtain ⟨q, hq, h⟩ :=
    run_accounted handler (show 0 < 1 by decide) (show 0 < 1 by decide) .queue ⟨[], 1⟩
  refine ⟨by decide, q, hq, ?_⟩
  intro first
  obtain ⟨s, hs, htaken, -, -, hend, -⟩ := h actions
  cases hq
  have hobtained : first.obtainedIn handler actions = [client, wakeUp] := by
    simp only [handler]
    cbv
  have haccepts : accepts (first.history handler actions) = [⟨client, .epoch⟩] := by
    simp only [handler]
    cbv
  have hwell : (calls (first.history handler actions)).all (fun c => !c.failed) = true := by
    simp only [handler]
    cbv
  have hended : some s.phase.results? = some (some [⟨1, 1, 0, 0, 0⟩]) := by
    have he := congrArg (fun result => result.toOption.map fun s => s.phase.results?) hs
    refine he.symm.trans ?_
    simp only [handler]
    cbv
  cases hp : s.phase with
  | ended results =>
    have hall : ∀ c ∈ calls (first.history handler actions), c.failed = false := by
      intro c hc
      simpa using List.all_eq_true.mp hwell c hc
    obtain ⟨-, -, -, hin, -, hsum⟩ := hend hall results hp
    have htotal : (results.map Tally.total).sum =
        (accepts (first.history handler actions)).length := hsum _ _ rfl
    have hgiven : [client, wakeUp] = [client] ++ [] ++ s.discarded := by
      rw [← hobtained]
      rw [hp] at htaken
      refine htaken.trans ?_
      change (accepts (first.history handler actions)).map Pending.connection ++ [] ++ _ = _
      rw [haccepts]
      rfl
    rw [haccepts] at htotal
    exact ⟨s, results, hs, hp, hobtained, (List.cons.inj hgiven).2.symm, hin, htotal⟩
  | waiting | received | pausing | enqueuing | leaving | draining =>
    rw [hp] at hended
    cases hended

end Server

end PooledHttp
