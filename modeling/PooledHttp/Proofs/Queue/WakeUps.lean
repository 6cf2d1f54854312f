import PooledHttp.Proofs.Queue.Steps

/-! No wake-up is lost on the queue. While a consumer sleeps, there are at least as many awakened
consumers on their way as requests queued; while a producer sleeps, at least as many awakened
producers as there is free room. Nobody sleeps at a closed queue. -/

namespace PooledHttp

variable {α : Type}

namespace RequestQueue

/-- How many more requests the policy admits. -/
def freeRoom (q : RequestQueue α) : Nat :=
  match q.policy with
  | .inFlight => q.capacity - q.inFlight
  | .queue => q.capacity - q.queued

theorem isFull_iff (q : RequestQueue α) : q.isFull = true ↔ q.freeRoom = 0 := by
  cases hp : q.policy <;> simp [isFull, freeRoom, hp, Nat.sub_eq_zero_iff_le]

theorem freeRoom_push {q : RequestQueue α} (h : q.isFull = false) (request : Pending α) :
    (q.push request).freeRoom + 1 = q.freeRoom := by
  have hne : q.freeRoom ≠ 0 := by
    intro hz
    rw [q.isFull_iff.mpr hz] at h
    cases h
  cases hp : q.policy <;> simp only [freeRoom, push, hp] at hne ⊢ <;> omega

/-- Only under the policy `queue` does a delivery make room. -/
theorem freeRoom_pop_le (q : RequestQueue α) :
    q.pop.freeRoom ≤ q.freeRoom + if q.policy = .queue then 1 else 0 := by
  cases hp : q.policy <;> simp only [freeRoom, pop, hp, reduceCtorEq, if_true, if_false] <;> omega

/-- Only under the policy `inFlight` does the end of a request make room. -/
theorem freeRoom_release_le (q : RequestQueue α) :
    q.release.freeRoom ≤ q.freeRoom + if q.policy = .inFlight then 1 else 0 := by
  cases hp : q.policy <;> simp only [freeRoom, release, hp, reduceCtorEq, if_true, if_false] <;> omega

end RequestQueue

namespace WaitingRoom

/-- Enough threads are up for what the sleepers wait for. -/
structure Covered (r : WaitingRoom α) (producers consumers : Nat) : Prop where
  consumer : 0 < r.consumersAsleep → r.queue.closed = false ∧ r.queue.queued ≤ consumers
  producer : r.producersAsleep ≠ [] → r.queue.closed = false ∧ r.queue.freeRoom ≤ producers

def Attended (r : WaitingRoom α) : Prop := r.Covered r.producersAwake.length r.consumersAwake

variable {r room : WaitingRoom α} {event : Option (QueueEvent α)}

theorem Covered.mono {producers consumers producers' consumers' : Nat}
    (h : r.Covered producers consumers) (hp : producers ≤ producers')
    (hc : consumers ≤ consumers') : r.Covered producers' consumers' := by
  refine ⟨?_, ?_⟩
  · intro hpos
    exact ⟨(h.consumer hpos).1, (h.consumer hpos).2.trans hc⟩
  · intro hne
    exact ⟨(h.producer hne).1, (h.producer hne).2.trans hp⟩

theorem Covered.nobody_asleep {producers consumers : Nat} (h : r.Covered producers consumers)
    (hclosed : r.queue.closed = true) : r.consumersAsleep = 0 ∧ r.producersAsleep = [] := by
  have hopen : r.queue.closed ≠ false := by simp [hclosed]
  refine ⟨?_, ?_⟩
  · by_contra hne
    exact hopen (h.consumer (Nat.pos_of_ne_zero hne)).1
  · by_contra hne
    exact hopen (h.producer hne).1

theorem stirProducer_cases (r : WaitingRoom α) (index : Nat) :
    (r.producersAsleep[index]? = none ∧ r.stirProducer index = r) ∨
    ∃ request, r.producersAsleep ≠ [] ∧ r.stirProducer index =
      { r with
        producersAsleep := r.producersAsleep.eraseIdx index
        producersAwake := r.producersAwake ++ [request] } := by
  cases h : r.producersAsleep[index]? with
  | none => exact .inl ⟨rfl, by simp only [stirProducer, h]⟩
  | some request =>
    have hne : r.producersAsleep ≠ [] := by
      intro hnil
      simp [hnil] at h
    exact .inr ⟨request, hne, by simp only [stirProducer, h]⟩

theorem Attended.stirProducer (h : r.Attended) (index : Nat) : (r.stirProducer index).Attended := by
  rcases stirProducer_cases r index with ⟨-, he⟩ | ⟨request, hne, he⟩
  · rwa [he]
  · rw [he]
    refine ⟨h.consumer, ?_⟩
    intro _
    have hle := (h.producer hne).2
    refine ⟨(h.producer hne).1, ?_⟩
    simp only [List.length_append, List.length_singleton]
    omega

/-- A signal makes up for one place that has become free. -/
theorem Covered.signalProducer (h : r.Covered (r.producersAwake.length + 1) r.consumersAwake)
    (pick : Nat) : (r.signalProducer pick).Attended := by
  rcases stirProducer_cases r (pick % r.producersAsleep.length) with ⟨hi, he⟩ | ⟨request, hne, he⟩
  · rw [WaitingRoom.signalProducer, he]
    refine ⟨h.consumer, ?_⟩
    intro hne
    have hlt := Nat.mod_lt pick (List.length_pos_iff.mpr hne)
    have hge := List.getElem?_eq_none_iff.mp hi
    omega
  · rw [WaitingRoom.signalProducer, he]
    refine ⟨h.consumer, ?_⟩
    intro _
    simpa only [List.length_append, List.length_singleton] using h.producer hne

theorem Covered.signalConsumer (h : r.Covered r.producersAwake.length (r.consumersAwake + 1)) :
    r.signalConsumer.Attended := by
  by_cases hz : r.consumersAsleep = 0
  · rw [WaitingRoom.signalConsumer, if_pos hz]
    exact ⟨fun hpos => by omega, h.producer⟩
  · rw [WaitingRoom.signalConsumer, if_neg hz]
    exact ⟨fun _ => h.consumer (by omega), h.producer⟩

/-- The producer that runs counts as one that is up. If it enters, there is one free place less. -/
theorem Covered.enqueue {request : Pending α}
    (h : r.Covered (r.producersAwake.length + 1) r.consumersAwake)
    (he : r.enqueue request = .ok (room, event)) : room.Attended := by
  rcases enqueue_cases he with ⟨hc, rfl, -⟩ | ⟨hc, hfull, rfl, -⟩ | ⟨hc, hfull, rfl, -⟩
  · exact ⟨h.consumer, fun hne => absurd (h.nobody_asleep hc).2 hne⟩
  · refine ⟨h.consumer, ?_⟩
    intro _
    have hz : r.queue.freeRoom = 0 := r.queue.isFull_iff.mp hfull
    exact ⟨hc, hz ▸ Nat.zero_le _⟩
  · have hroom := RequestQueue.freeRoom_push hfull request
    apply Covered.signalConsumer
    refine ⟨?_, ?_⟩
    · intro hpos
      exact ⟨hc, Nat.succ_le_succ (h.consumer hpos).2⟩
    · intro hne
      have hle := (h.producer hne).2
      refine ⟨hc, ?_⟩
      change (r.queue.push request).freeRoom ≤ r.producersAwake.length
      omega

/-- The consumer that runs counts as one that is up. If it takes a request, there is one less. -/
theorem Covered.dequeue {pick : Nat}
    (h : r.Covered r.producersAwake.length (r.consumersAwake + 1))
    (hd : r.dequeue pick = .ok (room, event)) : room.Attended := by
  rcases dequeue_cases hd with ⟨-, hc, rfl, -⟩ | ⟨hq, hc, rfl, -⟩ | ⟨request, -, hq, rfl, -⟩
  · have hz := (h.nobody_asleep hc).1
    exact ⟨fun hpos => by omega, h.producer⟩
  · refine ⟨?_, h.producer⟩
    intro _
    exact ⟨hc, hq ▸ Nat.zero_le _⟩
  · have hroom := r.queue.freeRoom_pop_le
    have hcons : 0 < r.consumersAsleep →
        r.queue.closed = false ∧ r.queue.queued - 1 ≤ r.consumersAwake := by
      intro hpos
      have hle := (h.consumer hpos).2
      exact ⟨(h.consumer hpos).1, by omega⟩
    by_cases hpol : r.queue.policy = .queue
    · rw [if_pos hpol] at hroom ⊢
      apply Covered.signalProducer
      refine ⟨hcons, ?_⟩
      intro hne
      exact ⟨(h.producer hne).1, hroom.trans (Nat.succ_le_succ (h.producer hne).2)⟩
    · rw [if_neg hpol] at hroom ⊢
      refine ⟨hcons, ?_⟩
      intro hne
      exact ⟨(h.producer hne).1, hroom.trans (h.producer hne).2⟩

theorem Attended.finish {pick : Nat} (h : r.Attended) (hf : r.finish pick = .ok (room, event)) :
    room.Attended := by
  obtain ⟨-, rfl, -⟩ := finish_cases hf
  have hroom := r.queue.freeRoom_release_le
  by_cases hpol : r.queue.policy = .inFlight
  · rw [if_pos hpol] at hroom ⊢
    apply Covered.signalProducer
    refine ⟨h.consumer, ?_⟩
    intro hne
    exact ⟨(h.producer hne).1, hroom.trans (Nat.succ_le_succ (h.producer hne).2)⟩
  · rw [if_neg hpol] at hroom ⊢
    refine ⟨h.consumer, ?_⟩
    intro hne
    exact ⟨(h.producer hne).1, hroom.trans (h.producer hne).2⟩

theorem Attended.act (h : r.Attended) {action : QueueAction α}
    (ha : r.act action = .ok (room, event)) : room.Attended := by
  cases action with
  | enqueue request => exact (h.mono (Nat.le_succ _) (Nat.le_refl _)).enqueue ha
  | dequeue pick => exact (h.mono (Nat.le_refl _) (Nat.le_succ _)).dequeue ha
  | retryEnqueue index =>
    rcases retryEnqueue_cases ha with ⟨rfl, -⟩ | ⟨request, hi, he⟩
    · exact h
    · -- the thread leaves the awakened and runs, so one is up beside them
      obtain ⟨hlt, -⟩ := List.getElem?_eq_some_iff.mp hi
      have hlen : (r.producersAwake.eraseIdx index).length + 1 = r.producersAwake.length := by
        rw [List.length_eraseIdx_of_lt hlt]
        omega
      have hrun : Covered { r with producersAwake := r.producersAwake.eraseIdx index }
          ((r.producersAwake.eraseIdx index).length + 1) r.consumersAwake := by
        rw [hlen]
        exact ⟨h.consumer, h.producer⟩
      exact hrun.enqueue he
  | retryDequeue pick =>
    rcases retryDequeue_cases ha with ⟨rfl, -⟩ | ⟨hpos, hd⟩
    · exact h
    · have hrun : Covered { r with consumersAwake := r.consumersAwake - 1 }
          r.producersAwake.length (r.consumersAwake - 1 + 1) := by
        rw [Nat.sub_add_cancel hpos]
        exact ⟨h.consumer, h.producer⟩
      exact hrun.dequeue hd
  | finish pick => exact h.finish ha
  | close =>
    cases ha
    exact ⟨fun hpos => absurd hpos (Nat.lt_irrefl 0), fun hne => absurd rfl hne⟩
  | stirProducer index =>
    cases ha
    exact h.stirProducer index
  | stirConsumer =>
    cases ha
    exact (h.mono (Nat.le_refl _) (Nat.le_succ _)).signalConsumer

theorem Attended.next (h : r.Attended) (action : QueueAction α) : (r.next action).Attended := by
  cases ha : r.act action with
  | error fault =>
    simp only [WaitingRoom.next, ha]
    exact h
  | ok result =>
    simp only [WaitingRoom.next, ha]
    exact h.act ha

theorem attended_around (q : RequestQueue α) : (around q).Attended :=
  ⟨fun hpos => absurd hpos (Nat.lt_irrefl 0), fun hne => absurd rfl hne⟩

theorem attended_after (q : RequestQueue α) (actions : List (QueueAction α)) :
    ((around q).after actions).Attended :=
  run_induction (P := fun _ room => room.Attended) (attended_around q)
    (fun _ _ action h => h.next action) actions

/-- After every run: whoever sleeps, sleeps at an open queue, and there are as many awakened
consumers as queued requests and as many awakened producers as free places. So there is never
something to deliver with all consumers asleep, nor room with all producers asleep. -/
theorem run_no_wake_up_lost (α : Type) {capacity : Nat} (hc : 0 < capacity)
    (policy : AdmissionPolicy) :
    ∃ q : RequestQueue α, RequestQueue.create capacity policy = .ok q ∧
      ∀ actions : List (QueueAction α),
        let room := (around q).after actions
        (0 < room.consumersAsleep →
          room.queue.closed = false ∧ room.queue.queued ≤ room.consumersAwake) ∧
        (room.producersAsleep ≠ [] →
          room.queue.closed = false ∧ room.queue.freeRoom ≤ room.producersAwake.length) ∧
        ¬ (0 < room.queue.queued ∧ 0 < room.consumersAsleep ∧ room.consumersAwake = 0) ∧
        ¬ (0 < room.queue.freeRoom ∧ room.producersAsleep ≠ [] ∧ room.producersAwake = []) ∧
        (room.queue.closed = true → room.consumersAsleep = 0 ∧ room.producersAsleep = []) := by
  obtain ⟨q, hq, -⟩ := RequestQueue.create_holds (α := α) hc policy
  refine ⟨q, hq, ?_⟩
  intro actions room
  have h : room.Attended := attended_after q actions
  refine ⟨h.consumer, h.producer, ?_, ?_, h.nobody_asleep⟩
  · rintro ⟨hqueued, hasleep, hawake⟩
    have hle := (h.consumer hasleep).2
    omega
  · rintro ⟨hfree, hasleep, hawake⟩
    have hle := (h.producer hasleep).2
    rw [hawake, List.length_nil] at hle
    omega

/-- One slot, taken; two more producers fall asleep; a delivery awakens one of them. -/
theorem run_no_wake_up_lost_two_producers :
    0 < 1 ∧ ∃ q : RequestQueue Nat, RequestQueue.create 1 .queue = .ok q ∧
      let room := (around q).after
        [.enqueue ⟨1, .epoch⟩, .enqueue ⟨2, .epoch⟩, .enqueue ⟨3, .epoch⟩, .dequeue 0]
      room.producersAsleep = [⟨3, .epoch⟩] ∧ room.queue.freeRoom = 1 ∧
      room.queue.closed = false ∧ room.queue.freeRoom ≤ room.producersAwake.length := by
  obtain ⟨q, hq, h⟩ := run_no_wake_up_lost Nat (show 0 < 1 by decide) .queue
  refine ⟨by decide, q, hq, ?_⟩
  cases hq
  intro room
  have hasleep : room.producersAsleep = [⟨3, .epoch⟩] := rfl
  exact ⟨hasleep, rfl, (h _).2.1 (hasleep ▸ List.cons_ne_nil _ _)⟩

end WaitingRoom

end PooledHttp
