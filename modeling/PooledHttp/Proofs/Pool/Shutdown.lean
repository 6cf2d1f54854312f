import PooledHttp.Proofs.Pool.Accounts

/-! A shutdown comes to its end. Once the queue is closed, a step either ends its worker or brings
the pool nearer to where nothing is queued and nobody is at work, so that as many rounds as a
shutdown makes are enough. -/

namespace PooledHttp

variable {α : Type}

namespace Worker

/-- How many steps a worker still has to take until it can take the next request. -/
def stepsLeft (w : Worker α) : Nat :=
  match w.phase with
  | .handling _ _ => 3
  | .closing _ => 2
  | .dropping _ | .releasing true => 1
  | _ => 0

theorem sum_stepsLeft_le (workers : List (Worker α)) :
    (workers.map stepsLeft).sum ≤ 4 * workers.countP isBusy := by
  induction workers with
  | nil => exact Nat.le_refl 0
  | cons w workers ih =>
    have hw : w.stepsLeft ≤ 4 * w.isBusy.toNat := by
      obtain ⟨id, tally, phase⟩ := w
      cases phase with
      | releasing survives => cases survives <;> simp [stepsLeft, isBusy]
      | ready | handling | closing | dropping | ended | lost => simp [stepsLeft, isBusy]
    rw [List.map_cons, List.sum_cons, ← List.nil_append (w :: workers), countP_row]
    simp only [List.countP_nil]
    omega

end Worker

namespace WorkerPool

/-- No smaller than the number of rounds until nothing is queued and nobody at work. -/
def ahead (p : WorkerPool α) : Nat := 4 * p.queue.queued + (p.workers.map Worker.stepsLeft).sum

def DoneAt (p : WorkerPool α) (index : Nat) : Prop :=
  ∀ w, p.workers[index]? = some w → w.isDone = true

variable {handler : RequestHandler α} {size : Nat} {past : List (PoolEvent α)}
  {p next : WorkerPool α} {index : Nat} {now : Instant}

theorem Kept.ahead_le (h : Kept size past p) : p.ahead ≤ 4 * p.queue.inFlight := by
  have hin := h.inFlight_eq
  have hsum := Worker.sum_stepsLeft_le p.workers
  rw [ahead]
  omega

/-- What a step of the worker at a place does for the end of a pool whose queue is closed. -/
structure Nearer (p : WorkerPool α) (index : Nat) (next : WorkerPool α) : Prop where
  closed : next.queue.closed = true
  length_eq : next.workers.length = p.workers.length
  ahead_le : next.ahead ≤ p.ahead
  stays : ∀ i, p.DoneAt i → next.DoneAt i
  progress : next.DoneAt index ∨ next.ahead < p.ahead

theorem nearer_of_set {w later : Worker α} (hi : p.workers[index]? = some w)
    (hlive : w.isDone = false) (hc : next.queue.closed = true)
    (hn : next.workers = p.workers.set index later)
    (hle : 4 * next.queue.queued + later.stepsLeft ≤ 4 * p.queue.queued + w.stepsLeft)
    (hprogress : later.isDone = true ∨
      4 * next.queue.queued + later.stepsLeft < 4 * p.queue.queued + w.stepsLeft) :
    Nearer p index next := by
  obtain ⟨front, back, hsplit, hset⟩ := exists_split hi
  have hsum := sum_row Worker.stepsLeft front back w
  have hsum' := sum_row Worker.stepsLeft front back later
  rw [← hsplit] at hsum
  rw [← hset, ← hn] at hsum'
  have hat : next.workers[index]? = some later := by
    obtain ⟨hlt, -⟩ := List.getElem?_eq_some_iff.mp hi
    rw [hn, List.getElem?_set_self hlt]
  refine ⟨hc, by rw [hn, List.length_set], by rw [ahead, ahead]; omega, ?_, ?_⟩
  · intro i hdone v hv
    by_cases he : index = i
    · subst he
      rw [hdone w hi] at hlive
      cases hlive
    · rw [hn, List.getElem?_set_ne he] at hv
      exact hdone v hv
  · rcases hprogress with hdone | hlt
    · refine .inl fun v hv => ?_
      rw [hat] at hv
      cases hv
      exact hdone
    · exact .inr (by rw [ahead, ahead]; omega)

theorem nearer_of_less {w later : Worker α} (hi : p.workers[index]? = some w)
    (hlive : w.isDone = false) (hc : next.queue.closed = true)
    (hn : next.workers = p.workers.set index later)
    (hq : next.queue.queued = p.queue.queued) (hlt : later.stepsLeft < w.stepsLeft) :
    Nearer p index next :=
  nearer_of_set hi hlive hc hn (by omega) (.inr (by omega))

theorem step_nearer (hc : p.queue.closed = true) (h : p.step handler now index = .ok next) :
    Nearer p index next := by
  have hsame : p.DoneAt index → Nearer p index p :=
    fun hd => ⟨hc, rfl, Nat.le_refl _, fun _ hd => hd, .inl hd⟩
  cases hi : p.workers[index]? with
  | none =>
    simp only [step, hi] at h
    cases h
    exact hsame fun v hv => by rw [hi] at hv; cases hv
  | some w =>
    obtain ⟨id, tally, phase⟩ := w
    simp only [step, hi] at h
    cases phase with
    | ready =>
      by_cases hq : p.queue.queued = 0
      · simp only [RequestQueue.deliver_empty hq, hc, if_true] at h
        cases h
        exact nearer_of_set hi rfl hc rfl (Nat.le_refl _) (.inl rfl)
      · cases hd : p.queue.deliver with
        | error e => simp [hd] at h
        | ok delivery =>
          obtain ⟨request, rfl⟩ := RequestQueue.deliver_queued hq hd
          simp only [hd] at h
          cases h
          have hlt : 4 * (p.queue.queued - 1) + 3 < 4 * p.queue.queued + 0 := by omega
          exact nearer_of_set hi rfl hc rfl (Nat.le_of_lt hlt) (.inr hlt)
    | handling request wait =>
      cases ho : handler request.connection request.arrival wait tally p.log with
      | returned connection tally log =>
        simp only [ho] at h
        cases h
        exact nearer_of_less hi rfl hc rfl rfl (show 2 < 3 by decide)
      | failed log =>
        simp only [ho] at h
        cases h
        exact nearer_of_less hi rfl hc rfl rfl (show 1 < 3 by decide)
    | closing request =>
      cases h
      exact nearer_of_less hi rfl hc rfl rfl (show 1 < 2 by decide)
    | dropping request =>
      cases h
      exact nearer_of_less hi rfl hc rfl rfl (show 0 < 1 by decide)
    | releasing survives =>
      by_cases hlt : p.queue.queued < p.queue.inFlight
      · simp only [RequestQueue.finish, if_pos hlt] at h
        cases h
        cases survives with
        | true => exact nearer_of_less hi rfl hc rfl rfl (show 0 < 1 by decide)
        | false => exact nearer_of_set hi rfl hc rfl (Nat.le_refl _) (.inl rfl)
      · simp [RequestQueue.finish, if_neg hlt] at h
    | ended | lost =>
      cases h
      refine hsame fun v hv => ?_
      rw [hi] at hv
      cases hv
      rfl

/-- A turn of all workers whose places are given. One that is not done after it has brought the
pool nearer to its end. -/
theorem turns_nearer {indices : List Nat} (hc : p.queue.closed = true)
    (h : indices.foldlM (step handler now) p = .ok next) :
    next.queue.closed = true ∧ next.workers.length = p.workers.length ∧ next.ahead ≤ p.ahead ∧
      (∀ i, p.DoneAt i → next.DoneAt i) ∧
      ∀ i ∈ indices, next.DoneAt i ∨ next.ahead < p.ahead := by
  induction indices generalizing p with
  | nil =>
    cases h
    exact ⟨hc, rfl, Nat.le_refl _, fun _ hd => hd, fun i hi => absurd hi List.not_mem_nil⟩
  | cons index indices ih =>
    cases hs : step handler now p index with
    | error e =>
      rw [List.foldlM_cons, hs] at h
      cases h
    | ok mid =>
      rw [List.foldlM_cons, hs] at h
      have hn := step_nearer hc hs
      obtain ⟨hclosed, hlength, hle, hstays, hturns⟩ := ih hn.closed h
      refine ⟨hclosed, hlength.trans hn.length_eq, hle.trans hn.ahead_le,
        fun i hd => hstays i (hn.stays i hd), ?_⟩
      intro i hi
      rcases List.mem_cons.mp hi with rfl | hi
      · rcases hn.progress with hd | hlt
        · exact .inl (hstays i hd)
        · exact .inr (hle.trans_lt hlt)
      · exact (hturns i hi).imp_right fun hlt => hlt.trans_le hn.ahead_le

theorem doneAt_all (h : ∀ i < p.workers.length, p.DoneAt i) :
    p.workers.all Worker.isDone = true := by
  rw [List.all_eq_true]
  intro w hw
  obtain ⟨i, hi, rfl⟩ := List.mem_iff_getElem.mp hw
  exact h i hi _ (List.getElem?_eq_getElem hi)

/-- After a round all workers are done, or less is ahead. -/
theorem round_nearer (hc : p.queue.closed = true) (h : p.round handler now = .ok next) :
    next.queue.closed = true ∧
      (p.workers.all Worker.isDone = true → next.workers.all Worker.isDone = true) ∧
      (next.workers.all Worker.isDone = true ∨ next.ahead < p.ahead) := by
  obtain ⟨hclosed, hlength, -, hstays, hturns⟩ := turns_nearer hc h
  refine ⟨hclosed, ?_, ?_⟩
  · intro hdone
    refine doneAt_all fun i _ => hstays i ?_
    intro w hw
    exact List.all_eq_true.mp hdone w (List.mem_of_getElem? hw)
  · by_cases hlt : next.ahead < p.ahead
    · exact .inr hlt
    · -- nobody came nearer, so nobody had anything left to do but to end
      refine .inl (doneAt_all fun i hi => ?_)
      have hmem : i ∈ List.range p.workers.length := List.mem_range.mpr (hlength ▸ hi)
      exact (hturns i hmem).resolve_right hlt

theorem rounds_done {n : Nat} {last : WorkerPool α} (hc : p.queue.closed = true)
    (hn : p.workers.all Worker.isDone = true ∨ p.ahead < n)
    (h : p.rounds handler now n = .ok last) : last.workers.all Worker.isDone = true := by
  induction n generalizing p with
  | zero =>
    cases h
    exact hn.resolve_right (Nat.not_lt_zero _)
  | succ n ih =>
    cases hr : p.round handler now with
    | error e => simp [rounds, hr] at h
    | ok next =>
      simp only [rounds, hr] at h
      obtain ⟨hclosed, hstays, hnearer⟩ := round_nearer hc hr
      refine ih hclosed ?_ h
      rcases hn with hdone | hlt
      · exact .inl (hstays hdone)
      · exact hnearer.imp_right fun hless => by omega

/-! A shutdown is a run like any other. -/

theorem run_append (handler : RequestHandler α) (p : WorkerPool α)
    (actions more : List (PoolAction α)) :
    p.run handler (actions ++ more) = (p.run handler actions).bind fun q => q.run handler more := by
  induction actions generalizing p with
  | nil => rfl
  | cons action actions ih =>
    cases ha : p.act handler action with
    | error e => simp only [List.cons_append, run, ha, Except.bind]
    | ok next => simp only [List.cons_append, run, ha, ih]

theorem turns_run (indices : List Nat) :
    indices.foldlM (step handler now) p = p.run handler (indices.map (.work now)) := by
  induction indices generalizing p with
  | nil => rfl
  | cons index indices ih =>
    rw [List.foldlM_cons, List.map_cons, run, act]
    cases step handler now p index with
    | error e => rfl
    | ok next => exact ih

theorem rounds_turns (handler : RequestHandler α) (now : Instant) (n : Nat) (p : WorkerPool α) :
    ∃ indices : List Nat, p.rounds handler now n = indices.foldlM (step handler now) p := by
  induction n generalizing p with
  | zero => exact ⟨[], rfl⟩
  | succ n ih =>
    cases hr : p.round handler now with
    | error e => exact ⟨List.range p.workers.length, by rw [rounds, hr]; exact hr.symm⟩
    | ok next =>
      obtain ⟨indices, hindices⟩ := ih next
      refine ⟨List.range p.workers.length ++ indices, ?_⟩
      have hround : (List.range p.workers.length).foldlM (step handler now) p = .ok next := hr
      rw [List.foldlM_append, hround, rounds, hr]
      exact hindices

theorem rounds_run (handler : RequestHandler α) (now : Instant) (n : Nat) (p : WorkerPool α) :
    ∃ actions, p.rounds handler now n = p.run handler actions := by
  obtain ⟨indices, hindices⟩ := rounds_turns handler now n p
  exact ⟨indices.map (.work now), hindices.trans (turns_run indices)⟩

theorem Kept.run_returns (h : Kept size past p) (handler : RequestHandler α)
    (actions : List (PoolAction α)) :
    ∃ last, p.run handler actions = .ok last ∧ Kept size (past ++ p.history handler actions) last := by
  refine run_keeps (P := fun later pool => Kept size (past ++ later) pool) ?_
    (fun _ _ action h => h.act_returns handler action) ?_ actions
  · rwa [List.append_nil]
  · intro later pool event next hk hm
    rw [← List.append_assoc]
    exact hk.step hm

theorem Kept.shutdown_done (h : Kept size past p) (handler : RequestHandler α) (now : Instant) :
    ∃ more last, p.shutdown handler now = .ok (last, last.results) ∧
      p.run handler more = .ok last ∧ last.workers.all Worker.isDone = true := by
  obtain ⟨actions, hactions⟩ :=
    rounds_run handler now (4 * p.queue.inFlight + 1) { p with queue := p.queue.close }
  have hdrain : p.drain handler now = p.run handler (.close :: actions) := hactions
  obtain ⟨last, hlast, -⟩ := h.run_returns handler (.close :: actions)
  have hahead : ahead { p with queue := p.queue.close } < 4 * p.queue.inFlight + 1 :=
    Nat.lt_succ_of_le h.ahead_le
  refine ⟨.close :: actions, last, ?_, hlast, ?_⟩
  · rw [shutdown, hdrain, hlast]
    rfl
  · exact rounds_done rfl (.inr hahead) (hdrain.trans hlast)

end WorkerPool

end PooledHttp
