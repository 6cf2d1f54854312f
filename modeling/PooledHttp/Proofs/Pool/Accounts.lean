import Mathlib.Algebra.BigOperators.Group.List.Basic
import Mathlib.Data.List.Count
import Mathlib.Data.List.Nodup
import Mathlib.Data.List.Perm.Basic
import PooledHttp.Proofs.Pool.Steps
import PooledHttp.Proofs.Queue.Admission

/-! The accounts of a pool. What was accepted was taken in its order or still waits; what was taken
is in some worker's hands or has had its call; and what had its call is closed, dropped, or about to
be. Each busy worker holds one place in flight. -/

namespace PooledHttp

variable {α : Type}

/-- One of a row is replaced. What comes in with it is what goes out or what the new one holds. -/
theorem perm_replace {β γ : Type} {f : β → Option γ} {front back : List β} {old new : β}
    {xs ys xs' ys' came went : List γ} (h : xs.Perm (ys ++ (front ++ old :: back).filterMap f))
    (hx : xs' = xs ++ came) (hy : ys' = ys ++ went)
    (hd : (came ++ (f old).toList).Perm (went ++ (f new).toList)) :
    xs'.Perm (ys' ++ (front ++ new :: back).filterMap f) := by
  classical
  have hsplit : ∀ b : β, (front ++ b :: back).filterMap f =
      front.filterMap f ++ ((f b).toList ++ back.filterMap f) := by
    intro b
    rw [List.filterMap_append]
    cases hb : f b <;> simp [hb]
  rw [hsplit] at h ⊢
  rw [List.perm_iff_count] at h hd ⊢
  intro x
  have hcount := h x
  have hmoved := hd x
  simp only [hx, hy, List.count_append] at hcount hmoved ⊢
  omega

theorem countP_row {β : Type} (f : β → Bool) (front back : List β) (b : β) :
    (front ++ b :: back).countP f = front.countP f + back.countP f + (f b).toNat := by
  rw [List.countP_append, List.countP_cons, ← Nat.add_assoc]
  cases f b <;> rfl

theorem sum_row {β : Type} (f : β → Nat) (front back : List β) (b : β) :
    ((front ++ b :: back).map f).sum = (front.map f).sum + (back.map f).sum + f b := by
  simp only [List.map_append, List.map_cons, List.sum_append, List.sum_cons]
  omega

theorem forall_mem_row {β : Type} {P : β → Prop} {front back : List β} {b : β} :
    (∀ x ∈ front ++ b :: back, P x) ↔ P b ∧ ∀ x ∈ front ++ back, P x := by
  simp only [List.forall_mem_append, List.forall_mem_cons]
  exact and_left_comm

namespace Worker

def taken? (w : Worker α) : Option (Pending α) :=
  match w.phase with
  | .handling request _ => some request
  | _ => none

def closing? (w : Worker α) : Option (Pending α) :=
  match w.phase with
  | .closing request => some request
  | _ => none

def dropping? (w : Worker α) : Option (Pending α) :=
  match w.phase with
  | .dropping request => some request
  | _ => none

/-- Holds a place in flight. -/
def isBusy (w : Worker α) : Bool :=
  match w.phase with
  | .ready | .ended | .lost => false
  | _ => true

def hasEnded (w : Worker α) : Bool :=
  match w.phase with
  | .ended => true
  | _ => false

/-- Its last call failed. -/
def hasFailed (w : Worker α) : Bool :=
  match w.phase with
  | .dropping _ | .releasing false | .lost => true
  | _ => false

@[simp] theorem resumed_id (id : Nat) (tally : Tally) (request : Pending α) (outcome : Handled α) :
    (resumed id tally request outcome).id = id := by
  cases outcome <;> rfl

@[simp] theorem resumed_isBusy (id : Nat) (tally : Tally) (request : Pending α)
    (outcome : Handled α) : (resumed id tally request outcome).isBusy = true := by
  cases outcome <;> rfl

@[simp] theorem resumed_hasEnded (id : Nat) (tally : Tally) (request : Pending α)
    (outcome : Handled α) : (resumed id tally request outcome).hasEnded = false := by
  cases outcome <;> rfl

theorem resumed_hasFailed (id : Nat) (tally : Tally) (request : Pending α) (wait : Span)
    (outcome : Handled α) :
    (resumed id tally request outcome).hasFailed = Call.failed ⟨id, request, wait, outcome⟩ := by
  cases outcome <;> rfl

end Worker

namespace WorkerPool

open PoolEvent

def failedBy (past : List (PoolEvent α)) (id : Nat) : Bool :=
  (calls past).any fun c => c.worker == id && c.failed

theorem failedBy_append (past later : List (PoolEvent α)) (id : Nat) :
    failedBy (past ++ later) id = (failedBy past id || failedBy later id) := by
  rw [failedBy, calls_append, List.any_append]
  rfl

/-- What a pool of `size` workers holds after what has happened so far. -/
structure Kept (size : Nat) (past : List (PoolEvent α)) (p : WorkerPool α) : Prop where
  queue : ∃ waiting, p.queue.Holds waiting ∧ accepts past = takes past ++ waiting
  ids : p.workers.map Worker.id = List.range' 1 size
  inFlight_eq : p.queue.inFlight = p.queue.queued + p.workers.countP Worker.isBusy
  ended : p.workers.any Worker.hasEnded = true → p.queue.closed = true ∧ p.queue.queued = 0
  handled_eq : p.handled = (calls past).map fun c => (c.request, c.wait)
  taken : (takes past).Perm ((calls past).map Call.request ++ p.workers.filterMap Worker.taken?)
  closed : ((calls past).filterMap Call.left?).Perm (p.closed ++ p.workers.filterMap Worker.closing?)
  dropped : (((calls past).filter Call.failed).map Call.request).Perm
    (p.dropped ++ p.workers.filterMap Worker.dropping?)
  failed : ∀ w ∈ p.workers, w.hasFailed = failedBy past w.id
  callers : ∀ c ∈ calls past, c.worker ∈ List.range' 1 size

variable {handler : RequestHandler α} {size : Nat} {past : List (PoolEvent α)}
  {p next : WorkerPool α} {event : Option (PoolEvent α)}

theorem Kept.size_eq (h : Kept size past p) : p.workers.length = size := by
  rw [← List.length_map (f := Worker.id), h.ids, List.length_range']

theorem Kept.taken_step (h : Kept size past p) (hm : Move handler p event next) :
    (takes (past ++ event.toList)).Perm
      ((calls (past ++ event.toList)).map Call.request ++ next.workers.filterMap Worker.taken?) := by
  have ht := h.taken
  have hkeep : ∀ {xs : List (Pending α)}, xs = xs ++ [] := (List.append_nil _).symm
  rw [takes_append, calls_append, List.map_append]
  cases hm with
  | idle | accept | close =>
    exact (List.Perm.of_eq (List.append_nil _)).trans
      (ht.trans (List.Perm.of_eq (congrArg (· ++ _) hkeep)))
  | retire hw | shut hw | drop hw =>
    rw [hw] at ht
    exact perm_replace ht rfl rfl .rfl
  | take hw request wait hd =>
    rw [hw] at ht
    exact perm_replace ht rfl rfl .rfl
  | @call front back id tally request wait hw outcome ho =>
    rw [hw] at ht
    refine perm_replace ht rfl rfl ?_
    cases outcome <;> exact .rfl
  | @release front back id tally survives hw hlt =>
    rw [hw] at ht
    refine perm_replace ht rfl rfl ?_
    cases survives <;> exact .rfl

theorem Kept.closed_step (h : Kept size past p) (hm : Move handler p event next) :
    ((calls (past ++ event.toList)).filterMap Call.left?).Perm
      (next.closed ++ next.workers.filterMap Worker.closing?) := by
  have ht := h.closed
  have hkeep : ∀ {xs : List (Pending α)}, xs = xs ++ [] := (List.append_nil _).symm
  rw [calls_append, List.filterMap_append]
  cases hm with
  | idle | accept | close => exact (List.Perm.of_eq (List.append_nil _)).trans ht
  | retire hw | take hw request wait hd | drop hw =>
    rw [hw] at ht
    exact perm_replace ht rfl hkeep .rfl
  | shut hw =>
    rw [hw] at ht
    exact perm_replace ht rfl rfl .rfl
  | @call front back id tally request wait hw outcome ho =>
    rw [hw] at ht
    refine perm_replace ht rfl hkeep ?_
    cases outcome <;> exact .rfl
  | @release front back id tally survives hw hlt =>
    rw [hw] at ht
    refine perm_replace ht rfl hkeep ?_
    cases survives <;> exact .rfl

theorem Kept.dropped_step (h : Kept size past p) (hm : Move handler p event next) :
    (((calls (past ++ event.toList)).filter Call.failed).map Call.request).Perm
      (next.dropped ++ next.workers.filterMap Worker.dropping?) := by
  have ht := h.dropped
  have hkeep : ∀ {xs : List (Pending α)}, xs = xs ++ [] := (List.append_nil _).symm
  rw [calls_append, List.filter_append, List.map_append]
  cases hm with
  | idle | accept | close => exact (List.Perm.of_eq (List.append_nil _)).trans ht
  | retire hw | take hw request wait hd | shut hw =>
    rw [hw] at ht
    exact perm_replace ht rfl hkeep .rfl
  | drop hw =>
    rw [hw] at ht
    exact perm_replace ht rfl rfl .rfl
  | @call front back id tally request wait hw outcome ho =>
    rw [hw] at ht
    refine perm_replace ht rfl hkeep ?_
    cases outcome <;> exact .rfl
  | @release front back id tally survives hw hlt =>
    rw [hw] at ht
    refine perm_replace ht rfl hkeep ?_
    cases survives <;> exact .rfl

theorem Kept.queue_step (h : Kept size past p) (hm : Move handler p event next) :
    ∃ waiting, next.queue.Holds waiting ∧
      accepts (past ++ event.toList) = takes (past ++ event.toList) ++ waiting := by
  obtain ⟨waiting, hw, he⟩ := h.queue
  rw [accepts_append, takes_append, he]
  cases hm with
  | accept request hc hfull =>
    refine ⟨waiting ++ [request], hw.push (hw.queued_lt hfull) request, ?_⟩
    change takes past ++ waiting ++ [request] = takes past ++ [] ++ (waiting ++ [request])
    rw [List.append_nil, List.append_assoc]
  | take _ request wait hd =>
    cases waiting with
    | nil =>
      have hpos := RequestQueue.queued_pos_of_delivered hd
      rw [hw.queued_eq] at hpos
      exact absurd hpos (Nat.lt_irrefl 0)
    | cons first left =>
      rw [hw.deliver_cons] at hd
      cases hd
      refine ⟨left, hw.pop, ?_⟩
      change takes past ++ request :: left ++ [] = takes past ++ [request] ++ left
      rw [List.append_nil, List.append_assoc, List.singleton_append]
  | close => exact ⟨waiting, hw.close, by simp [accepts, takes]⟩
  | release _ hlt => exact ⟨waiting, hw.release hlt, by simp [accepts, takes]⟩
  | idle | retire | shut | drop => exact ⟨waiting, hw, by simp [accepts, takes]⟩
  | call =>
    refine ⟨waiting, hw, ?_⟩
    change takes past ++ waiting ++ [] = takes past ++ [] ++ waiting
    rw [List.append_nil, List.append_nil]

theorem Move.ids (hm : Move handler p event next) :
    next.workers.map Worker.id = p.workers.map Worker.id := by
  cases hm with
  | idle | accept | close => rfl
  | retire hw | take hw | call hw | shut hw | drop hw | release hw => simp [hw]

theorem Kept.inFlight_step (h : Kept size past p) (hm : Move handler p event next) :
    next.queue.inFlight = next.queue.queued + next.workers.countP Worker.isBusy := by
  have hin := h.inFlight_eq
  cases hm with
  | idle | close => exact hin
  | accept request hc hfull =>
    simp only [RequestQueue.push]
    omega
  | retire hw | shut hw | drop hw =>
    rw [hw, countP_row] at hin
    rw [countP_row]
    exact hin
  | call hw =>
    rw [hw, countP_row] at hin
    rw [countP_row, Worker.resumed_isBusy]
    exact hin
  | @take front back id tally hw request wait hd =>
    have hpos := RequestQueue.queued_pos_of_delivered hd
    rw [hw, countP_row] at hin
    rw [countP_row]
    change p.queue.inFlight = p.queue.queued - 1 + (_ + 1)
    change p.queue.inFlight = p.queue.queued + (_ + 0) at hin
    omega
  | @release front back id tally survives hw hlt =>
    rw [hw, countP_row] at hin
    rw [countP_row]
    have hidle : Worker.isBusy (⟨id, tally, if survives then .ready else .lost⟩ : Worker α) = false := by
      cases survives <;> rfl
    rw [hidle]
    change p.queue.inFlight - 1 = p.queue.queued + (_ + 0)
    change p.queue.inFlight = p.queue.queued + (_ + 1) at hin
    omega

theorem Kept.ended_step (h : Kept size past p) (hm : Move handler p event next)
    (he : next.workers.any Worker.hasEnded = true) :
    next.queue.closed = true ∧ next.queue.queued = 0 := by
  have hold := h.ended
  cases hm with
  | idle => exact hold he
  | accept request hc hfull =>
    -- whoever has ended saw the queue closed, and a closed queue accepts nothing
    have hclosed := (hold he).1
    rw [hc] at hclosed
    cases hclosed
  | close => exact ⟨rfl, (hold he).2⟩
  | retire hw hq hc => exact ⟨hc, hq⟩
  | take hw request wait hd =>
    have hpos := RequestQueue.queued_pos_of_delivered hd
    rw [hw] at hold
    simp only [List.any_append, List.any_cons] at hold he
    have hzero := (hold he).2
    omega
  | call hw =>
    rw [hw] at hold
    simp only [List.any_append, List.any_cons, Worker.resumed_hasEnded] at hold he
    exact hold he
  | shut hw | drop hw =>
    rw [hw] at hold
    simp only [List.any_append, List.any_cons] at hold he
    exact hold he
  | @release front back id tally survives hw hlt =>
    rw [hw] at hold
    simp only [List.any_append, List.any_cons] at hold he
    have hne : Worker.hasEnded (⟨id, tally, if survives then .ready else .lost⟩ : Worker α) = false := by
      cases survives <;> rfl
    rw [hne] at he
    exact hold he

theorem Kept.handled_step (h : Kept size past p) (hm : Move handler p event next) :
    next.handled = (calls (past ++ event.toList)).map fun c => (c.request, c.wait) := by
  rw [calls_append, List.map_append, ← h.handled_eq]
  cases hm with
  | call => rfl
  | idle | accept | close | retire | take | shut | drop | release => exact (List.append_nil _).symm

theorem Kept.failed_step (h : Kept size past p) (hm : Move handler p event next) :
    ∀ w ∈ next.workers, w.hasFailed = failedBy (past ++ event.toList) w.id := by
  have hold := h.failed
  have hquiet : ∀ id, failedBy past id = (failedBy past id || false) :=
    fun _ => (Bool.or_false _).symm
  simp only [failedBy_append]
  cases hm with
  | idle | accept | close =>
    intro w hw
    exact (hold w hw).trans (hquiet w.id)
  | retire hw | take hw | shut hw | drop hw =>
    rw [hw, forall_mem_row] at hold
    rw [forall_mem_row]
    exact ⟨hold.1.trans (hquiet _), fun w hw => (hold.2 w hw).trans (hquiet w.id)⟩
  | @release front back id tally survives hw hlt =>
    rw [hw, forall_mem_row] at hold
    rw [forall_mem_row]
    refine ⟨?_, fun w hw => (hold.2 w hw).trans (hquiet w.id)⟩
    cases survives <;> exact hold.1.trans (hquiet id)
  | @call front back id tally request wait hw outcome ho =>
    have hdistinct : ((front ++ ⟨id, tally, .handling request wait⟩ :: back).map Worker.id).Nodup := by
      rw [← hw, h.ids]
      exact List.nodup_range'
    rw [List.map_append, List.map_cons, List.nodup_middle, List.nodup_cons, ← List.map_append]
      at hdistinct
    rw [hw, forall_mem_row] at hold
    obtain ⟨hself, hothers⟩ := hold
    have hcall : ∀ other, failedBy [called ⟨id, request, wait, outcome⟩] other =
        (id == other && Call.failed ⟨id, request, wait, outcome⟩) := fun _ => Bool.or_false _
    rw [forall_mem_row]
    refine ⟨?_, ?_⟩
    · have hnone : failedBy past id = false := hself.symm
      rw [Worker.resumed_id, Worker.resumed_hasFailed id tally request wait outcome, hnone]
      change _ = (false || failedBy [called ⟨id, request, wait, outcome⟩] id)
      rw [hcall, beq_self_eq_true]
      rfl
    · -- ids are distinct, so the call is nobody else's
      intro w hmem
      have hne : (id == w.id) = false := by
        rw [beq_eq_false_iff_ne]
        intro he
        exact hdistinct.1 (List.mem_map.mpr ⟨w, hmem, he.symm⟩)
      rw [hothers w hmem]
      change _ = (_ || failedBy [called ⟨id, request, wait, outcome⟩] w.id)
      rw [hcall, hne]
      exact hquiet w.id

theorem Kept.callers_step (h : Kept size past p) (hm : Move handler p event next) :
    ∀ c ∈ calls (past ++ event.toList), c.worker ∈ List.range' 1 size := by
  have hold := h.callers
  rw [calls_append]
  cases hm with
  | @call front back id tally request wait hw outcome ho =>
    have hid : id ∈ List.range' 1 size := by
      rw [← h.ids, hw, List.map_append, List.map_cons]
      exact List.mem_append_right _ List.mem_cons_self
    intro c hc
    cases List.mem_append.mp hc with
    | inl hpast => exact hold c hpast
    | inr hnow =>
      cases List.mem_singleton.mp hnow
      exact hid
  | idle | accept | close | retire | take | shut | drop | release =>
    intro c hc
    exact hold c ((List.append_nil (calls past)).subst hc)

theorem Kept.step (h : Kept size past p) (hm : Move handler p event next) :
    Kept size (past ++ event.toList) next where
  queue := h.queue_step hm
  ids := hm.ids.trans h.ids
  inFlight_eq := h.inFlight_step hm
  ended := h.ended_step hm
  handled_eq := h.handled_step hm
  taken := h.taken_step hm
  closed := h.closed_step hm
  dropped := h.dropped_step hm
  failed := h.failed_step hm
  callers := h.callers_step hm

theorem start_ids (size : Nat) (q : RequestQueue α) (log : LogBuffer) :
    (start size q log).workers.map Worker.id = List.range' 1 size := by
  rw [start, List.map_map, List.range'_eq_map_range]
  exact List.map_congr_left fun i _ => Nat.add_comm i 1

theorem start_worker {q : RequestQueue α} {log : LogBuffer} {w : Worker α}
    (hw : w ∈ (start size q log).workers) : w = Worker.start w.id := by
  obtain ⟨i, -, rfl⟩ := List.mem_map.mp hw
  rfl

theorem kept_start {q : RequestQueue α} (hq : q.Holds []) (hin : q.inFlight = 0) (size : Nat)
    (log : LogBuffer) : Kept size [] (start size q log) := by
  have hnone : ∀ f : Worker α → Option (Pending α), (∀ id, f (Worker.start id) = none) →
      (start size q log).workers.filterMap f = [] := by
    intro f hf
    rw [List.filterMap_eq_nil_iff]
    intro w hw
    rw [start_worker hw, hf]
  have hfalse : ∀ f : Worker α → Bool, (∀ id, f (Worker.start id) = false) →
      ∀ w ∈ (start size q log).workers, f w = false := by
    intro f hf w hw
    rw [start_worker hw, hf]
  refine ⟨⟨[], hq, rfl⟩, start_ids size q log, ?_, ?_, rfl, ?_, ?_, ?_,
    hfalse _ fun _ => rfl, fun c hc => absurd hc List.not_mem_nil⟩
  · have hidle : (start size q log).workers.countP Worker.isBusy = 0 :=
      List.countP_eq_zero.mpr fun w hw => by simp [hfalse Worker.isBusy (fun _ => rfl) w hw]
    have hqueued : q.queued = 0 := hq.queued_eq
    rw [hidle]
    change q.inFlight = q.queued + 0
    omega
  · intro he
    obtain ⟨w, hw, hended⟩ := List.any_eq_true.mp he
    rw [hfalse Worker.hasEnded (fun _ => rfl) w hw] at hended
    cases hended
  · rw [hnone Worker.taken? fun _ => rfl]
    exact .rfl
  · rw [hnone Worker.closing? fun _ => rfl]
    exact .rfl
  · rw [hnone Worker.dropping? fun _ => rfl]
    exact .rfl

/-- No request is lost in a slot, and no worker gives back a place that it does not hold. -/
theorem Kept.act_returns (h : Kept size past p) (handler : RequestHandler α)
    (action : PoolAction α) : ∃ next, p.act handler action = .ok next := by
  obtain ⟨waiting, hw, -⟩ := h.queue
  cases action with
  | offer request =>
    cases hc : p.queue.closed with
    | true => exact ⟨_, by simp only [act, RequestQueue.offer_closed hc]; rfl⟩
    | false =>
      cases hfull : p.queue.isFull with
      | true => exact ⟨_, by simp only [act, RequestQueue.offer_full hc hfull]; rfl⟩
      | false => exact ⟨_, by simp only [act, hw.offer_room hc hfull]; rfl⟩
  | close => exact ⟨_, rfl⟩
  | work now index =>
    cases hi : p.workers[index]? with
    | none => exact ⟨p, by simp only [act, WorkerPool.step, hi]⟩
    | some w =>
      obtain ⟨front, back, hsplit, -⟩ := exists_split hi
      obtain ⟨id, tally, phase⟩ := w
      simp only [act, WorkerPool.step, hi]
      cases phase with
      | ready =>
        cases waiting with
        | nil =>
          have he := RequestQueue.deliver_empty hw.queued_eq
          cases hc : p.queue.closed <;> simp [he, hc]
        | cons first left => simp [hw.deliver_cons]
      | handling request wait =>
        cases ho : handler request.connection request.arrival wait tally p.log <;> simp [ho]
      | releasing survives =>
        have hin := h.inFlight_eq
        rw [hsplit, countP_row] at hin
        change p.queue.inFlight = p.queue.queued + (_ + 1) at hin
        have hlt : p.queue.queued < p.queue.inFlight := by omega
        simp [RequestQueue.finish, hlt]
      | closing | dropping | ended | lost => simp

end WorkerPool

end PooledHttp
