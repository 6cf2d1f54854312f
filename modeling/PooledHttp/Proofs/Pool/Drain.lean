import PooledHttp.Proofs.Pool.Fate
import PooledHttp.Proofs.Pool.Shutdown

/-! What is left when all workers are done. Each failing request costs one worker, so they have
served all there was, or the shortest part of it that has as many failing requests as there were
workers. Who served what, and in which order the workers moved, makes no difference. -/

namespace PooledHttp

variable {α : Type}

namespace WorkerPool

open PoolEvent

variable {handler : RequestHandler α} {limit : Option Nat} {fails : Pending α → Bool}
  {adds : Pending α → Option Served → Nat} {size : Nat} {past : List (PoolEvent α)}
  {p next : WorkerPool α}

/-- What is to be known of a pool whose workers are all done. They have served the first of the
accepted requests and left the rest. -/
structure Drained (size : Nat) (fails : Pending α → Bool) (adds : Pending α → Option Served → Nat)
    (past : List (PoolEvent α)) (p : WorkerPool α) (served left : List (Pending α)) : Prop where
  accepts_eq : accepts past = served ++ left
  /-- The shortest part with as many failing requests as there were workers, or all there was. -/
  shortest : (served.countP fails < size ∧ left = []) ∨
    (served.countP fails = size ∧
      ∀ part, part <+: accepts past → size ≤ part.countP fails → served.length ≤ part.length)
  once : ((calls past).map Call.request).Perm served
  callers : ∀ c ∈ calls past, c.worker ∈ List.range' 1 size
  outcomes : ∀ c ∈ calls past, c.failed = fails c.request
  handled_eq : p.handled = (calls past).map fun c => (c.request, c.wait)
  closed : ((calls past).filterMap Call.left?).Perm p.closed
  dropped : (served.filter fails).Perm p.dropped
  queue : p.queue.Holds left
  inFlight_eq : p.queue.inFlight = p.queue.queued
  results : p.results.map Tally.worker = (List.range' 1 size).filter fun id => !failedBy past id
  results_length : p.results.length + served.countP fails = size
  sums : (∀ request ∈ accepts past, fails request = false) →
    ∀ which, (p.results.map fun tally => tally.shows which).sum = added adds which (accepts past)

theorem done_cases {w : Worker α} (hdone : w.isDone = true) :
    (∃ id tally, w = ⟨id, tally, .ended⟩) ∨ ∃ id tally, w = ⟨id, tally, .lost⟩ := by
  obtain ⟨id, tally, phase⟩ := w
  cases phase with
  | ended => exact .inl ⟨id, tally, rfl⟩
  | lost => exact .inr ⟨id, tally, rfl⟩
  | ready | handling | closing | dropping | releasing => cases hdone

theorem idle_of_done {w : Worker α} (hdone : w.isDone = true) :
    w.taken? = none ∧ w.closing? = none ∧ w.dropping? = none ∧ w.isBusy = false := by
  rcases done_cases hdone with ⟨id, tally, rfl⟩ | ⟨id, tally, rfl⟩ <;> exact ⟨rfl, rfl, rfl, rfl⟩

theorem isDoomed_of_done {w : Worker α} (hdone : w.isDone = true) :
    w.isDoomed fails = w.hasFailed := by
  rcases done_cases hdone with ⟨id, tally, rfl⟩ | ⟨id, tally, rfl⟩ <;> rfl

theorem load_of_done {w : Worker α} (hdone : w.isDone = true) (which : Option Served) :
    w.load adds which = w.tally.shows which := by
  rcases done_cases hdone with ⟨id, tally, rfl⟩ | ⟨id, tally, rfl⟩ <;> rfl

theorem failed_of_done {w : Worker α} (hdone : w.isDone = true) (hended : w.hasEnded = false) :
    w.hasFailed = true := by
  rcases done_cases hdone with ⟨id, tally, rfl⟩ | ⟨id, tally, rfl⟩
  · cases hended
  · rfl

theorem results_of_done {workers : List (Worker α)} (hdone : ∀ w ∈ workers, w.isDone = true) :
    workers.filterMap Worker.result? =
      (workers.filter fun w => !w.hasFailed).map Worker.tally := by
  induction workers with
  | nil => rfl
  | cons w workers ih =>
    obtain ⟨hw, hworkers⟩ := List.forall_mem_cons.mp hdone
    rcases done_cases hw with ⟨id, tally, rfl⟩ | ⟨id, tally, rfl⟩
    · exact congrArg (tally :: ·) (ih hworkers)
    · exact ih hworkers

theorem filterMap_of_done {β : Type} {f : Worker α → Option β} {workers : List (Worker α)}
    (hf : ∀ w, w.isDone = true → f w = none) (hdone : ∀ w ∈ workers, w.isDone = true) :
    workers.filterMap f = [] :=
  List.filterMap_eq_nil_iff.mpr fun w hw => hf w (hdone w hw)

theorem countP_failed (h : Fated size fails adds (takes past) (calls past) p.workers)
    (hdone : ∀ w ∈ p.workers, w.isDone = true) :
    p.workers.countP Worker.hasFailed = (takes past).countP fails := by
  rw [← h.doomed]
  exact List.countP_congr fun w hw => by rw [isDoomed_of_done (hdone w hw)]

theorem countP_failed_eq_zero (h : Fated size fails adds (takes past) (calls past) p.workers)
    (hdone : ∀ w ∈ p.workers, w.isDone = true)
    (hnone : ∀ request ∈ takes past, fails request = false) :
    p.workers.countP Worker.hasFailed = 0 := by
  rw [countP_failed h hdone, List.countP_eq_zero]
  intro request hr
  rw [hnone request hr]
  exact Bool.false_ne_true

/-- While a worker is left that has not failed, it goes on until the queue is closed and nothing
waits. -/
theorem Kept.closed_of_done (hk : Kept size past p) (hdone : ∀ w ∈ p.workers, w.isDone = true)
    (hlt : p.workers.countP Worker.hasFailed < size) :
    p.queue.closed = true ∧ p.queue.queued = 0 := by
  refine hk.ended ?_
  by_contra hne
  rw [Bool.not_eq_true, List.any_eq_false] at hne
  have hall : p.workers.countP Worker.hasFailed = p.workers.length :=
    List.countP_eq_length.mpr fun w hw =>
      failed_of_done (hdone w hw) (Bool.eq_false_iff.mpr (hne w hw))
  rw [hall, hk.size_eq] at hlt
  exact Nat.lt_irrefl size hlt

theorem Kept.left_eq_nil (hk : Kept size past p) (hdone : ∀ w ∈ p.workers, w.isDone = true)
    (hlt : p.workers.countP Worker.hasFailed < size) {left : List (Pending α)}
    (hleft : p.queue.Holds left) : left = [] := by
  have hzero := (hk.closed_of_done hdone hlt).2
  rw [hleft.queued_eq] at hzero
  exact List.length_eq_zero_iff.mp hzero

theorem Kept.shortest (hk : Kept size past p) (hsize : 0 < size)
    (h : Fated size fails adds (takes past) (calls past) p.workers)
    (hdone : ∀ w ∈ p.workers, w.isDone = true) {left : List (Pending α)}
    (hleft : p.queue.Holds left) (haccepts : accepts past = takes past ++ left) :
    ((takes past).countP fails < size ∧ left = []) ∨
      ((takes past).countP fails = size ∧
        ∀ part, part <+: accepts past → size ≤ part.countP fails →
          (takes past).length ≤ part.length) := by
  have hcount := countP_failed h hdone
  have hle : p.workers.countP Worker.hasFailed ≤ size := by
    rw [← hk.size_eq]
    exact List.countP_le_length
  by_cases hlt : (takes past).countP fails < size
  · exact .inl ⟨hlt, hk.left_eq_nil hdone (hcount ▸ hlt) hleft⟩
  · refine .inr ⟨by omega, ?_⟩
    intro part hpart hfails
    have hshort : (takes past).dropLast.countP fails < size := by
      rcases h.short with hnil | hshort
      · rw [hnil, List.countP_nil] at hlt
        exact absurd hsize hlt
      · exact hshort
    by_contra hlonger
    -- a shorter part lies within what was taken before the last request
    have hprefix : part <+: (takes past).dropLast := by
      have htakes : takes past <+: accepts past := ⟨left, haccepts.symm⟩
      have hdrop : (takes past).dropLast <+: takes past := List.dropLast_prefix (takes past)
      refine List.prefix_of_prefix_length_le hpart (hdrop.trans htakes) ?_
      rw [List.length_dropLast]
      omega
    have hfewer := hprefix.sublist.countP_le (p := fails)
    omega

theorem Kept.sums (hk : Kept size past p)
    (h : Fated size fails adds (takes past) (calls past) p.workers)
    (hdone : ∀ w ∈ p.workers, w.isDone = true)
    (hnone : ∀ request ∈ takes past, fails request = false) (which : Option Served) :
    (p.results.map fun tally => tally.shows which).sum = added adds which (takes past) := by
  have hcount := countP_failed_eq_zero h hdone hnone
  have hwell : ∀ w ∈ p.workers, (!w.hasFailed) = true := by
    intro w hw
    rw [Bool.not_eq_true', Bool.eq_false_iff]
    exact List.countP_eq_zero.mp hcount w hw
  have hspoilt : spoilt (calls past) = [] := by
    rw [spoilt, List.map_eq_nil_iff, List.filter_eq_nil_iff]
    intro c hc
    have hcall : c.request ∈ takes past :=
      hk.taken.mem_iff.mpr (List.mem_append_left _ (List.mem_map_of_mem hc))
    rw [h.outcomes c hc, hnone c.request hcall]
    exact Bool.false_ne_true
  have hloads := h.loads which
  rw [hspoilt] at hloads
  rw [results, results_of_done hdone, List.filter_eq_self.mpr hwell, List.map_map, ← hloads]
  change _ = _ + 0
  rw [Nat.add_zero]
  exact congrArg List.sum (List.map_congr_left fun w hw => (load_of_done (hdone w hw) which).symm)

theorem Kept.takes_perm (hk : Kept size past p) (hdone : ∀ w ∈ p.workers, w.isDone = true) :
    (takes past).Perm ((calls past).map Call.request) := by
  have ht := hk.taken
  rwa [filterMap_of_done (fun w hw => (idle_of_done hw).1) hdone, List.append_nil] at ht

theorem Kept.inFlight_of_done (hk : Kept size past p) (hdone : ∀ w ∈ p.workers, w.isDone = true) :
    p.queue.inFlight = p.queue.queued := by
  have hidle : p.workers.countP Worker.isBusy = 0 := by
    rw [List.countP_eq_zero]
    intro w hw
    rw [(idle_of_done (hdone w hw)).2.2.2]
    exact Bool.false_ne_true
  rw [hk.inFlight_eq, hidle, Nat.add_zero]

theorem Kept.drained (hk : Kept size past p) (hsize : 0 < size)
    (h : Fated size fails adds (takes past) (calls past) p.workers)
    (hdone : ∀ w ∈ p.workers, w.isDone = true) :
    ∃ served left, Drained size fails adds past p served left := by
  obtain ⟨left, hleft, haccepts⟩ := hk.queue
  have hclosing := filterMap_of_done (fun w hw => (idle_of_done hw).2.1) hdone
  have hdropping := filterMap_of_done (fun w hw => (idle_of_done hw).2.2.1) hdone
  have honce := hk.takes_perm hdone
  have hresults : p.results = (p.workers.filter fun w => !w.hasFailed).map Worker.tally :=
    results_of_done hdone
  refine ⟨takes past, left, haccepts, hk.shortest hsize h hdone hleft haccepts, honce.symm,
    hk.callers, h.outcomes, hk.handled_eq, ?_, ?_, hleft, hk.inFlight_of_done hdone, ?_, ?_, ?_⟩
  · have hc := hk.closed
    rwa [hclosing, List.append_nil] at hc
  · have hd := hk.dropped
    rw [hdropping, List.append_nil] at hd
    refine List.Perm.trans ?_ hd
    refine (honce.filter fails).trans (List.Perm.of_eq ?_)
    rw [List.filter_map]
    exact congrArg _ (List.filter_congr fun c hc => (h.outcomes c hc).symm)
  · rw [hresults, List.map_map, ← hk.ids, List.filter_map]
    have hsame : (p.workers.filter fun w => !w.hasFailed) =
        p.workers.filter ((fun id => !failedBy past id) ∘ Worker.id) :=
      List.filter_congr fun w hw => congrArg not (hk.failed w hw)
    rw [hsame]
    exact List.map_congr_left fun w hw => h.owner w (List.mem_filter.mp hw).1
  · have hcount := countP_failed h hdone
    have hlength := p.workers.length_eq_countP_add_countP Worker.hasFailed
    rw [hk.size_eq, hcount] at hlength
    rw [hresults, List.length_map, ← List.countP_eq_length_filter, Nat.add_comm]
    simpa using hlength.symm
  · intro hnone which
    have htakes : ∀ request ∈ takes past, fails request = false := by
      intro request hr
      exact hnone request (haccepts ▸ List.mem_append_left left hr)
    have hcount := countP_failed_eq_zero h hdone htakes
    have hnil : left = [] := hk.left_eq_nil hdone (hcount ▸ hsize) hleft
    rw [haccepts, hnil, List.append_nil]
    exact hk.sums h hdone htakes which

/-! Where no call has failed. -/

def counted (p : WorkerPool α) : Nat := (p.workers.map fun w => w.tally.total).sum

theorem counted_start (size : Nat) (q : RequestQueue α) (log : LogBuffer) :
    (start size q log).counted = 0 := by
  refine List.sum_eq_zero ?_
  intro n hn
  obtain ⟨w, hw, rfl⟩ := List.mem_map.mp hn
  rw [start_worker hw]
  rfl

theorem counted_step (hcounts : CountsEach handler) {event : Option (PoolEvent α)}
    (hm : Move handler p event next) :
    next.counted = p.counted + (calls event.toList).countP fun c => !c.failed := by
  rw [counted, counted]
  cases hm with
  | idle | accept | close => rfl
  | retire hw | take hw | shut hw | drop hw | release hw =>
    rw [hw, sum_row, sum_row]
    rfl
  | @call front back id tally request wait hw outcome ho =>
    rw [hw, sum_row, sum_row]
    cases outcome with
    | returned connection later log =>
      have htotal := hcounts ho
      change _ + later.total = _ + tally.total + 1
      omega
    | failed log => rfl

theorem step_of_done {now : Instant} {index : Nat} (hdone : ∀ w ∈ p.workers, w.isDone = true)
    (h : p.step handler now index = .ok next) : next = p := by
  cases hi : p.workers[index]? with
  | none =>
    simp only [step, hi] at h
    cases h
    rfl
  | some w =>
    rcases done_cases (hdone w (List.mem_of_getElem? hi)) with ⟨id, tally, rfl⟩ | ⟨id, tally, rfl⟩ <;>
    · simp only [step, hi] at h
      cases h
      rfl

/-- What is to be known of a pool whose workers are all done where no call has failed. -/
structure AllServed (past : List (PoolEvent α)) (p : WorkerPool α) : Prop where
  once : (p.handled.map Prod.fst).Perm (accepts past)
  closed : p.queue.closed = true
  left : p.queue.Holds []
  inFlight_eq : p.queue.inFlight = 0
  results : p.results = p.workers.map Worker.tally
  calls_length : (calls past).length = (accepts past).length

theorem Kept.allServed (hk : Kept size past p) (hsize : 0 < size)
    (hdone : ∀ w ∈ p.workers, w.isDone = true) (hwell : ∀ c ∈ calls past, c.failed = false) :
    AllServed past p := by
  have hnone : ∀ w ∈ p.workers, w.hasFailed = false := by
    intro w hw
    rw [hk.failed w hw, failedBy, List.any_eq_false]
    intro c hc
    rw [hwell c hc, Bool.and_false]
    exact Bool.false_ne_true
  have hcount : p.workers.countP Worker.hasFailed = 0 := by
    rw [List.countP_eq_zero]
    intro w hw
    rw [hnone w hw]
    exact Bool.false_ne_true
  obtain ⟨left, hleft, haccepts⟩ := hk.queue
  have hlt : p.workers.countP Worker.hasFailed < size := hcount ▸ hsize
  have hnil : left = [] := hk.left_eq_nil hdone hlt hleft
  subst hnil
  have honce := hk.takes_perm hdone
  rw [List.append_nil] at haccepts
  refine ⟨?_, (hk.closed_of_done hdone hlt).1, hleft, ?_, ?_, ?_⟩
  · rw [hk.handled_eq, List.map_map, haccepts]
    exact honce.symm
  · rw [hk.inFlight_of_done hdone, hleft.queued_eq]
    rfl
  · rw [results, results_of_done hdone, List.filter_eq_self.mpr]
    intro w hw
    rw [hnone w hw]
    rfl
  · rw [haccepts, honce.length_eq, List.length_map]

/-- However the workers of a pool interleave, and whenever requests come and the queue is closed, no
step fails. Once all workers are done, and where the counters have had room for what was accepted,
each request up to a certain one was handled once, by one worker. Those that did not fail were closed
and those that failed were dropped; the others still wait in their order, with nothing else in
flight. The results are those of the workers that never failed, by increasing id. If nothing failed,
they add up to what the accepted requests add, whoever handled them. A shutdown always comes to such
an end. -/
theorem run_drained {handler : RequestHandler α} {limit : Option Nat} {fails : Pending α → Bool}
    {adds : Pending α → Option Served → Nat} (hgo : GoesByRequest handler limit fails adds)
    {capacity size : Nat} (hc : 0 < capacity) (hsize : 0 < size) (policy : AdmissionPolicy)
    (log : LogBuffer) :
    ∃ q : RequestQueue α, RequestQueue.create capacity policy = .ok q ∧
      ∀ actions,
        let past := history handler (start size q log) actions
        ∃ p, run handler (start size q log) actions = .ok p ∧
          ((∀ which, Within limit (added adds which (accepts past))) →
            p.workers.all Worker.isDone = true →
            ∃ served left, Drained size fails adds past p served left) ∧
          ∀ now, ∃ more last, p.shutdown handler now = .ok (last, last.results) ∧
            run handler (start size q log) (actions ++ more) = .ok last ∧
            last.workers.all Worker.isDone = true := by
  obtain ⟨q, hq, hholds, -, -, hin, -⟩ := RequestQueue.create_holds (α := α) hc policy
  refine ⟨q, hq, ?_⟩
  intro actions past
  let P (past : List (PoolEvent α)) (p : WorkerPool α) : Prop :=
    Kept size past p ∧ ((∀ which, Within limit (added adds which (accepts past))) →
      Fated size fails adds (takes past) (calls past) p.workers)
  have hstart : P [] (start size q log) := ⟨kept_start hholds hin size log, fun _ => fated_start size q log⟩
  have hstep : ∀ past pool event next, P past pool → Move handler pool event next →
      P (past ++ event.toList) next := by
    rintro past pool event next ⟨hk, hf⟩ hm
    refine ⟨hk.step hm, ?_⟩
    intro hwithin
    have hbefore : ∀ which, Within limit (added adds which (accepts past)) := by
      intro which
      refine (hwithin which).mono ?_
      rw [accepts_append, added_append]
      exact Nat.le_add_right _ _
    exact fated_step hgo hk (hf hbefore) hbefore hm
  obtain ⟨p, hp, hk, hf⟩ :=
    run_keeps hstart (fun _ _ action h => h.1.act_returns handler action) hstep actions
  refine ⟨p, hp, ?_, ?_⟩
  · intro hwithin hdone
    exact hk.drained hsize (hf hwithin) (List.all_eq_true.mp hdone)
  · intro now
    obtain ⟨more, last, hshutdown, hmore, hdone⟩ := hk.shutdown_done handler now
    refine ⟨more, last, hshutdown, ?_, hdone⟩
    rw [run_append, hp]
    exact hmore

/-- One request of two fails. The worker that took it is lost, the other one serves the next, and
its tally alone is left. -/
theorem run_drained_one_lost :
    let handler := countingHandler (fun connection => connection == 13) .static
    let worked (index : Nat) : List (PoolAction Nat) := List.replicate 4 (.work .epoch index)
    let actions : List (PoolAction Nat) :=
      .offer ⟨13, .epoch⟩ :: worked 0 ++ .offer ⟨14, .epoch⟩ :: .close :: worked 1 ++
        [.work .epoch 1]
    0 < 1 ∧ 0 < 2 ∧ ∃ q : RequestQueue Nat, RequestQueue.create 1 .inFlight = .ok q ∧
      let past := history handler (start 2 q ⟨[], 1⟩) actions
      ∃ p, run handler (start 2 q ⟨[], 1⟩) actions = .ok p ∧
        p.workers.all Worker.isDone = true ∧ p.results = [⟨2, 1, 1, 0, 0⟩] ∧
        ∃ left, Drained 2 (fun request => request.connection == 13)
          (fun _ => Tally.adds (some .static)) past p [⟨13, .epoch⟩, ⟨14, .epoch⟩] left := by
  intro handler worked actions
  have hgo := countingHandler_goesByRequest (fun connection : Nat => connection == 13) .static
  obtain ⟨q, hq, h⟩ :=
    run_drained hgo (show 0 < 1 by decide) (show 0 < 2 by decide) .inFlight ⟨[], 1⟩
  refine ⟨by decide, by decide, q, hq, ?_⟩
  intro past
  obtain ⟨p, hp, hdrained, -⟩ := h actions
  cases hq
  have haccepts : accepts past = [⟨13, .epoch⟩, ⟨14, .epoch⟩] := by decide +kernel
  let seen (p : WorkerPool Nat) := (p.workers.all Worker.isDone, p.results, p.queue.queued)
  have hseen : some (seen p) = some (true, [⟨2, 1, 1, 0, 0⟩], 0) := by
    have he := congrArg (fun result => result.toOption.map seen) hp
    exact he.symm.trans (by decide +kernel)
  have hdone : p.workers.all Worker.isDone = true := congrArg Prod.fst (Option.some.inj hseen)
  have hresults : p.results = [⟨2, 1, 1, 0, 0⟩] := congrArg (·.2.1) (Option.some.inj hseen)
  have hqueued : p.queue.queued = 0 := congrArg (·.2.2) (Option.some.inj hseen)
  have hwithin : ∀ which, Within (some Decimal.max64)
      (added (fun _ => Tally.adds (some .static)) which (accepts past)) := by
    intro which largest hl
    cases hl
    rw [haccepts]
    cases which with
    | none => decide
    | some kind => cases kind <;> decide
  obtain ⟨served, left, hd⟩ := hdrained hwithin hdone
  have hleft : left = [] := List.length_eq_zero_iff.mp (hd.queue.queued_eq.symm.trans hqueued)
  have hserved : accepts past = served ++ left := hd.accepts_eq
  rw [haccepts, hleft, List.append_nil] at hserved
  exact ⟨p, hp, hdone, hresults, left, hserved ▸ hd⟩

end WorkerPool

end PooledHttp
