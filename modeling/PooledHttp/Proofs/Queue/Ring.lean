import Mathlib.Data.Nat.ModEq
import PooledHttp.Queue.Basic

/-! The circular buffer as a list. From the front on, as many slots as are queued hold the list in
order, and all others hold nothing. Filling the rear slot appends to the list, emptying the front
slot takes its head. -/

namespace PooledHttp

/-- Less than a whole turn from the front, two distances lead to two slots. -/
theorem distance_eq_of_slot_eq {front capacity i j : Nat} (hi : i < capacity) (hj : j < capacity)
    (h : (front + i) % capacity = (front + j) % capacity) : i = j := by
  have hh : i ≡ j [MOD capacity] := Nat.ModEq.add_left_cancel' front h
  exact hh.eq_of_lt_of_lt hi hj

namespace RequestQueue

variable {α : Type}

/-- The queue holds a list of requests, the oldest first. All of them are in flight. -/
structure Holds (q : RequestQueue α) (waiting : List (Pending α)) : Prop where
  size_eq : q.slots.size = q.capacity
  queued_eq : q.queued = waiting.length
  queued_le : q.queued ≤ q.capacity
  front_lt : q.front < q.capacity
  rear_eq : q.rear = (q.front + q.queued) % q.capacity
  slot_eq : ∀ i < q.capacity, q.slots[(q.front + i) % q.capacity]? = some waiting[i]?
  queued_le_inFlight : q.queued ≤ q.inFlight

theorem create_holds {capacity : Nat} (hc : 0 < capacity) (policy : AdmissionPolicy) :
    ∃ q : RequestQueue α, create capacity policy = .ok q ∧ q.Holds [] ∧
      q.capacity = capacity ∧ q.policy = policy ∧ q.inFlight = 0 ∧ q.closed = false := by
  have hz : capacity ≠ 0 := by omega
  refine ⟨_, by simp only [create, if_neg hz]; rfl, ?_, rfl, rfl, rfl, rfl⟩
  refine ⟨by simp, rfl, Nat.zero_le _, hc, by simp, ?_, Nat.le_refl _⟩
  intro i hi
  have hm : i % capacity < capacity := Nat.mod_lt i hc
  simp [hm]

theorem Holds.rear_lt {q : RequestQueue α} {waiting : List (Pending α)} (h : q.Holds waiting) :
    q.rear < q.slots.size := by
  have hc : 0 < q.capacity := by have := h.front_lt; omega
  rw [h.rear_eq, h.size_eq]
  exact Nat.mod_lt _ hc

theorem Holds.front_slot {q : RequestQueue α} {waiting : List (Pending α)} (h : q.Holds waiting) :
    q.slots[q.front]? = some waiting.head? := by
  have hs := h.slot_eq 0 (by have := h.front_lt; omega)
  rw [Nat.add_zero, Nat.mod_eq_of_lt h.front_lt] at hs
  rw [hs, List.head?_eq_getElem?]

theorem Holds.push {q : RequestQueue α} {waiting : List (Pending α)} (h : q.Holds waiting)
    (hroom : q.queued < q.capacity) (request : Pending α) :
    (q.push request).Holds (waiting ++ [request]) := by
  have hrear : (q.rear + 1) % q.capacity = (q.front + (q.queued + 1)) % q.capacity := by
    rw [h.rear_eq, Nat.mod_add_mod, Nat.add_assoc]
  have hin := h.queued_le_inFlight
  refine ⟨by simpa [RequestQueue.push] using h.size_eq, by simp [RequestQueue.push, h.queued_eq],
    hroom, h.front_lt, hrear, ?_, by simp only [RequestQueue.push]; omega⟩
  intro i hi
  change (q.slots.setIfInBounds q.rear (some request))[(q.front + i) % q.capacity]? = _
  have hold := h.slot_eq i hi
  -- the rear slot is the one that lies `queued` places from the front, and no other is touched
  by_cases he : i = q.queued
  · subst he
    have hr : q.rear < q.slots.size := h.rear_lt
    rw [← h.rear_eq, Array.getElem?_setIfInBounds_self_of_lt hr, h.queued_eq]
    simp
  · have hne : q.rear ≠ (q.front + i) % q.capacity := by
      rw [h.rear_eq]
      intro hh
      exact he (distance_eq_of_slot_eq hroom hi hh).symm
    rw [Array.getElem?_setIfInBounds_ne hne, hold]
    by_cases hlt : i < waiting.length
    · rw [List.getElem?_append_left hlt]
    · have hle : waiting.length + 1 ≤ i := by have := h.queued_eq; omega
      rw [List.getElem?_eq_none (by omega), List.getElem?_eq_none (by simpa using hle)]

theorem Holds.pop {q : RequestQueue α} {request : Pending α} {waiting : List (Pending α)}
    (h : q.Holds (request :: waiting)) : q.pop.Holds waiting := by
  have hc : 0 < q.capacity := by have := h.front_lt; omega
  have hlen : q.queued = waiting.length + 1 := by simpa using h.queued_eq
  have hle := h.queued_le
  have hin := h.queued_le_inFlight
  have hrear : q.rear = ((q.front + 1) % q.capacity + (q.queued - 1)) % q.capacity := by
    rw [h.rear_eq, Nat.mod_add_mod]
    congr 1
    omega
  refine ⟨by simpa [RequestQueue.pop] using h.size_eq, by simp [RequestQueue.pop, hlen],
    by simp only [RequestQueue.pop]; omega, Nat.mod_lt _ hc, hrear, ?_,
    by simp only [RequestQueue.pop]; omega⟩
  intro i (hi : i < q.capacity)
  change (q.slots.setIfInBounds q.front none)[((q.front + 1) % q.capacity + i) % q.capacity]? = _
  have hplace : ((q.front + 1) % q.capacity + i) % q.capacity = (q.front + (i + 1)) % q.capacity := by
    rw [Nat.mod_add_mod, Nat.add_assoc, Nat.add_comm 1 i]
  rw [hplace]
  by_cases hlast : i + 1 = q.capacity
  · have hf : (q.front + (i + 1)) % q.capacity = q.front := by
      rw [hlast, Nat.add_mod_right, Nat.mod_eq_of_lt h.front_lt]
    have hsize : q.front < q.slots.size := by rw [h.size_eq]; exact h.front_lt
    rw [hf, Array.getElem?_setIfInBounds_self_of_lt hsize, List.getElem?_eq_none (by omega)]
  · have hi' : i + 1 < q.capacity := by omega
    have hne : q.front ≠ (q.front + (i + 1)) % q.capacity := by
      intro hh
      have hz : (q.front + 0) % q.capacity = (q.front + (i + 1)) % q.capacity := by
        rwa [Nat.add_zero, Nat.mod_eq_of_lt h.front_lt]
      exact absurd (distance_eq_of_slot_eq hc hi' hz) (by omega)
    rw [Array.getElem?_setIfInBounds_ne hne, h.slot_eq (i + 1) hi', List.getElem?_cons_succ]

theorem Holds.close {q : RequestQueue α} {waiting : List (Pending α)} (h : q.Holds waiting) :
    q.close.Holds waiting :=
  ⟨h.size_eq, h.queued_eq, h.queued_le, h.front_lt, h.rear_eq, h.slot_eq, h.queued_le_inFlight⟩

theorem Holds.release {q : RequestQueue α} {waiting : List (Pending α)} (h : q.Holds waiting)
    (hlt : q.queued < q.inFlight) : q.release.Holds waiting := by
  have hin : q.queued ≤ q.inFlight - 1 := by omega
  exact ⟨h.size_eq, h.queued_eq, h.queued_le, h.front_lt, h.rear_eq, h.slot_eq, hin⟩

/-- Where the policy sees room there is a free slot. -/
theorem Holds.queued_lt {q : RequestQueue α} {waiting : List (Pending α)} (h : q.Holds waiting)
    (hfull : q.isFull = false) : q.queued < q.capacity := by
  have hin := h.queued_le_inFlight
  cases hp : q.policy with
  | inFlight =>
    have hlt : q.inFlight < q.capacity := by simpa [isFull, hp] using hfull
    omega
  | queue => simpa [isFull, hp] using hfull

theorem offer_closed {q : RequestQueue α} (hc : q.closed = true) (request : Pending α) :
    q.offer request = .ok (.rejected ⟨request.connection⟩) := by
  rw [offer, if_pos hc]

theorem offer_full {q : RequestQueue α} (hc : q.closed = false) (hfull : q.isFull = true)
    (request : Pending α) : q.offer request = .ok .mustWait := by
  rw [offer, hc, if_neg Bool.false_ne_true, if_pos hfull]

theorem offer_room {q : RequestQueue α} (hc : q.closed = false) (hfull : q.isFull = false)
    (request : Pending α) :
    q.offer request =
      if q.rear < q.slots.size then .ok (.accepted (q.push request)) else .error .slotOutOfRange := by
  rw [offer, hc, hfull, if_neg Bool.false_ne_true, if_neg Bool.false_ne_true]

theorem offer_cases {q : RequestQueue α} {request : Pending α} {admission : Admission α}
    (h : q.offer request = .ok admission) :
    (q.closed = true ∧ admission = .rejected ⟨request.connection⟩) ∨
    (q.closed = false ∧ q.isFull = true ∧ admission = .mustWait) ∨
    (q.closed = false ∧ q.isFull = false ∧ admission = .accepted (q.push request)) := by
  cases hc : q.closed with
  | true =>
    rw [offer_closed hc] at h
    cases h
    exact .inl ⟨rfl, rfl⟩
  | false =>
    cases hfull : q.isFull with
    | true =>
      rw [offer_full hc hfull] at h
      cases h
      exact .inr (.inl ⟨rfl, rfl, rfl⟩)
    | false =>
      rw [offer_room hc hfull] at h
      split at h
      · cases h
        exact .inr (.inr ⟨rfl, rfl, rfl⟩)
      · cases h

theorem Holds.offer_room {q : RequestQueue α} {waiting : List (Pending α)} (h : q.Holds waiting)
    (hc : q.closed = false) (hfull : q.isFull = false) (request : Pending α) :
    q.offer request = .ok (.accepted (q.push request)) := by
  rw [RequestQueue.offer_room hc hfull, if_pos h.rear_lt]

theorem deliver_empty {q : RequestQueue α} (hq : q.queued = 0) :
    q.deliver = .ok (if q.closed then .drained else .mustWait) := by
  rw [deliver, if_pos hq]

theorem deliver_queued {q : RequestQueue α} {delivery : Delivery α} (hq : q.queued ≠ 0)
    (h : q.deliver = .ok delivery) : ∃ request, delivery = .delivered request q.pop := by
  rw [deliver, if_neg hq] at h
  cases hs : q.slots[q.front]? with
  | none => simp [hs] at h
  | some slot =>
    cases slot with
    | none => simp [hs] at h
    | some request =>
      simp only [hs, Except.ok.injEq] at h
      exact ⟨request, h.symm⟩

theorem Holds.deliver_cons {q : RequestQueue α} {request : Pending α} {waiting : List (Pending α)}
    (h : q.Holds (request :: waiting)) : q.deliver = .ok (.delivered request q.pop) := by
  have hq : q.queued ≠ 0 := by simp [h.queued_eq]
  have hs : q.slots[q.front]? = some (some request) := h.front_slot
  rw [deliver, if_neg hq, hs]

end RequestQueue

end PooledHttp
