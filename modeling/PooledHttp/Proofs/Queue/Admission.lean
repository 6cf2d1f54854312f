import PooledHttp.Proofs.Queue.Order

/-! Admission is exact. What is in flight is what is queued, and what was delivered and not yet
finished. The policy alone says which of the two counts the capacity bounds, and a request is let in
exactly where that count is below it. -/

namespace PooledHttp

variable {α : Type}

namespace QueueEvent

def isFinished : QueueEvent α → Bool
  | finished => true
  | _ => false

end QueueEvent

def finishedIn (past : List (QueueEvent α)) : Nat := past.countP QueueEvent.isFinished

namespace RequestQueue

variable {q : RequestQueue α}

theorem isFull_inFlight (hp : q.policy = .inFlight) :
    q.isFull = false ↔ q.inFlight < q.capacity := by
  simp [isFull, hp]

theorem isFull_queue (hp : q.policy = .queue) : q.isFull = false ↔ q.queued < q.capacity := by
  simp [isFull, hp]

theorem queued_pos_of_delivered {request : Pending α} {next : RequestQueue α}
    (h : q.deliver = .ok (.delivered request next)) : 0 < q.queued := by
  by_contra hz
  have hq : q.queued = 0 := by omega
  rw [deliver_empty hq] at h
  cases hc : q.closed <;> simp [hc] at h

end RequestQueue

namespace Passage

variable {q next : RequestQueue α} {event : Option (QueueEvent α)}

theorem accepted_cases {request : Pending α} (h : Passage q (some (.accepted request)) next) :
    q.closed = false ∧ q.isFull = false := by
  cases h with
  | accept _ hc hfull => exact ⟨hc, hfull⟩

/-- Each critical section that moves one count moves another one along. -/
theorem balance (h : Passage q event next) {delivered finished : Nat}
    (hq : q.inFlight + finished = q.queued + delivered) :
    next.inFlight + (finished + finishedIn event.toList) =
      next.queued + (delivered + (deliveredIn event.toList).length) := by
  cases h with
  | accept request _ _ =>
    change q.inFlight + 1 + (finished + 0) = q.queued + 1 + (delivered + 0)
    omega
  | deliver request hd =>
    have hpos := RequestQueue.queued_pos_of_delivered hd
    change q.inFlight + (finished + 0) = q.queued - 1 + (delivered + 1)
    omega
  | finish hlt =>
    change q.inFlight - 1 + (finished + 1) = q.queued + (delivered + 0)
    omega
  | wait | reject | drain | close => exact hq

theorem inFlight_le_capacity (h : Passage q event next) (hp : q.policy = .inFlight)
    (hle : q.inFlight ≤ q.capacity) : next.inFlight ≤ next.capacity := by
  cases h with
  | accept request _ hfull => exact (RequestQueue.isFull_inFlight hp).mp hfull
  | finish _ => exact (Nat.sub_le q.inFlight 1).trans hle
  | wait | reject | deliver | drain | close => exact hle

end Passage

namespace WaitingRoom

theorem after_append (r : WaitingRoom α) (before later : List (QueueAction α)) :
    r.after (before ++ later) = (r.after before).after later := by
  induction before generalizing r with
  | nil => rfl
  | cons action before ih => exact ih (r.next action)

theorem events_append (r : WaitingRoom α) (before later : List (QueueAction α)) :
    r.events (before ++ later) = r.events before ++ (r.after before).events later := by
  induction before generalizing r with
  | nil => rfl
  | cons action before ih => simp only [List.cons_append, events, after, ih, List.append_assoc]

variable {r : WaitingRoom α} {waiting : List (Pending α)}

/-- No thread gets a request into a closed queue, nor into one that the policy calls full. -/
theorem room_of_accepted {action : QueueAction α} {request : Pending α}
    (h : r.event? action = some (.accepted request)) :
    r.queue.closed = false ∧ r.queue.isFull = false := by
  have hp := next_passage r action
  rw [h] at hp
  exact hp.accepted_cases

theorem enqueue_event_iff (h : r.queue.Holds waiting) (request : Pending α) :
    r.event? (.enqueue request) = some (.accepted request) ↔
      r.queue.closed = false ∧ r.queue.isFull = false :=
  ⟨room_of_accepted, fun hroom => enqueue_event_room h hroom.1 hroom.2 request⟩

theorem retryEnqueue_event_iff (h : r.queue.Holds waiting) {index : Nat} {request : Pending α}
    (hi : r.producersAwake[index]? = some request) :
    r.event? (.retryEnqueue index) = some (.accepted request) ↔
      r.queue.closed = false ∧ r.queue.isFull = false := by
  refine ⟨room_of_accepted, ?_⟩
  rintro ⟨hc, hfull⟩
  simp only [event?, act, retryEnqueue, hi, enqueue, h.offer_room hc hfull]

theorem finish_event_iff (r : WaitingRoom α) (pick : Nat) :
    r.event? (.finish pick) = some .finished ↔ r.queue.queued < r.queue.inFlight := by
  by_cases hlt : r.queue.queued < r.queue.inFlight <;>
    simp [event?, act, finish, RequestQueue.finish, hlt]

/-- An end without a delivery before it. -/
theorem finish_unmatched (h : r.queue.inFlight = r.queue.queued) (pick : Nat) :
    r.act (.finish pick) = .error .unmatchedFinish := by
  have hlt : ¬ r.queue.queued < r.queue.inFlight := by omega
  simp only [act, finish, RequestQueue.finish, if_neg hlt]

theorem next_finish_unmatched (h : r.queue.inFlight = r.queue.queued) (pick : Nat) :
    r.next (.finish pick) = r ∧ r.event? (.finish pick) = none := by
  rw [next, event?, finish_unmatched h pick]
  exact ⟨rfl, rfl⟩

/-- The counts after what has happened so far. -/
structure Balanced (q : RequestQueue α) (past : List (QueueEvent α)) (room : WaitingRoom α) :
    Prop where
  inOrder : InOrder q past room
  balance : room.queue.inFlight + finishedIn past = room.queue.queued + (deliveredIn past).length
  bounded : q.policy = .inFlight → room.queue.inFlight ≤ room.queue.capacity

theorem Balanced.step {q : RequestQueue α} {past : List (QueueEvent α)} {room : WaitingRoom α}
    (h : Balanced q past room) (action : QueueAction α) :
    Balanced q (past ++ (room.event? action).toList) (room.next action) := by
  have hp := next_passage room action
  refine ⟨h.inOrder.step action, ?_, ?_⟩
  · have hfinished : finishedIn (past ++ (room.event? action).toList) =
        finishedIn past + finishedIn (room.event? action).toList := List.countP_append
    have hdelivered : deliveredIn (past ++ (room.event? action).toList) =
        deliveredIn past ++ deliveredIn (room.event? action).toList := List.filterMap_append
    rw [hfinished, hdelivered, List.length_append]
    exact hp.balance h.balance
  · intro hpol
    exact hp.inFlight_le_capacity (h.inOrder.policy_eq.trans hpol) (h.bounded hpol)

/-- In every run what is in flight is what is queued together with what was delivered and not
finished. Under `inFlight` no more than the capacity is in flight, and a request is let in exactly
where the queue is open and less is in flight, however much room the buffer has. Under `queue` it is
let in exactly where the queue is open and less than the capacity is queued, however much is in
flight. An end that no delivery precedes fails, and the run goes on as if nobody had called it. -/
theorem run_admission_exact (α : Type) {capacity : Nat} (hc : 0 < capacity)
    (policy : AdmissionPolicy) :
    ∃ q : RequestQueue α, RequestQueue.create capacity policy = .ok q ∧
      ∀ actions : List (QueueAction α),
        let past := (around q).events actions
        let room := (around q).after actions
        room.queue.inFlight + finishedIn past = room.queue.queued + (deliveredIn past).length ∧
        room.queue.queued ≤ room.queue.inFlight ∧
        room.queue.inFlight ≤ (acceptedIn past).length ∧
        (policy = .inFlight →
          room.queue.inFlight ≤ capacity ∧
          (∀ action request, room.event? action = some (.accepted request) →
            room.queue.inFlight < capacity) ∧
          ∀ request, room.event? (.enqueue request) = some (.accepted request) ↔
            room.queue.closed = false ∧ room.queue.inFlight < capacity) ∧
        (policy = .queue →
          (∀ request, room.event? (.enqueue request) = some (.accepted request) ↔
            room.queue.closed = false ∧ room.queue.queued < capacity) ∧
          ∀ index request, room.producersAwake[index]? = some request →
            (room.event? (.retryEnqueue index) = some (.accepted request) ↔
              room.queue.closed = false ∧ room.queue.queued < capacity)) ∧
        (∀ pick, room.event? (.finish pick) = some .finished ↔
          room.queue.queued < room.queue.inFlight) ∧
        (room.queue.inFlight = room.queue.queued → ∀ pick,
          room.act (.finish pick) = .error .unmatchedFinish ∧
          room.next (.finish pick) = room ∧
          ∀ later,
            (around q).after (actions ++ .finish pick :: later) =
              (around q).after (actions ++ later) ∧
            (around q).events (actions ++ .finish pick :: later) =
              (around q).events (actions ++ later)) := by
  obtain ⟨q, hq, hholds, hcap, hpol, hin, -⟩ := RequestQueue.create_holds (α := α) hc policy
  refine ⟨q, hq, ?_⟩
  intro actions past room
  have hstart : Balanced q [] (around q) := by
    refine ⟨⟨rfl, rfl, Nat.le_of_eq hin, [], hholds, rfl⟩, ?_, ?_⟩
    · have hqueued : q.queued = 0 := hholds.queued_eq
      change q.inFlight + 0 = q.queued + 0
      rw [hin, hqueued]
    · intro _
      change q.inFlight ≤ q.capacity
      omega
  have h : Balanced q past room := run_induction hstart (fun _ _ action h => h.step action) actions
  obtain ⟨waiting, hw, -⟩ := h.inOrder.waiting
  have hroomCap : room.queue.capacity = capacity := h.inOrder.capacity_eq.trans hcap
  have hroomPol : room.queue.policy = policy := h.inOrder.policy_eq.trans hpol
  refine ⟨h.balance, hw.queued_le_inFlight, h.inOrder.inFlight_le, ?_, ?_, finish_event_iff room, ?_⟩
  · intro hp
    have hfull := RequestQueue.isFull_inFlight (hroomPol.trans hp)
    rw [hroomCap] at hfull
    refine ⟨hroomCap ▸ h.bounded (hpol.trans hp), ?_, ?_⟩
    · intro action request he
      exact hfull.mp (room_of_accepted he).2
    · intro request
      rw [enqueue_event_iff hw, hfull]
  · intro hp
    have hfull := RequestQueue.isFull_queue (hroomPol.trans hp)
    rw [hroomCap] at hfull
    refine ⟨?_, ?_⟩
    · intro request
      rw [enqueue_event_iff hw, hfull]
    · intro index request hi
      rw [retryEnqueue_event_iff hw hi, hfull]
  · intro hsame pick
    obtain ⟨hnext, hevent⟩ := next_finish_unmatched hsame pick
    refine ⟨finish_unmatched hsame pick, hnext, ?_⟩
    intro later
    refine ⟨?_, ?_⟩
    · rw [after_append, after_append]
      change (room.next (.finish pick)).after later = room.after later
      rw [hnext]
    · rw [events_append, events_append]
      change past ++ ((room.event? (.finish pick)).toList ++ (room.next (.finish pick)).events later) =
        past ++ room.events later
      rw [hnext, hevent]
      rfl

/-- One slot, emptied by a delivery: the buffer has room, and still nothing is let in. -/
theorem run_admission_exact_emptied :
    0 < 1 ∧ ∃ q : RequestQueue Nat, RequestQueue.create 1 .inFlight = .ok q ∧
      let room := (around q).after [.finish 0, .enqueue ⟨1, .epoch⟩, .dequeue 0]
      room.queue.queued = 0 ∧ room.queue.inFlight = 1 ∧
      ∀ request, room.event? (.enqueue request) ≠ some (.accepted request) := by
  obtain ⟨q, hq, h⟩ := run_admission_exact Nat (show 0 < 1 by decide) .inFlight
  refine ⟨by decide, q, hq, ?_⟩
  intro room
  obtain ⟨-, -, -, hpol, -⟩ := h [.finish 0, .enqueue ⟨1, .epoch⟩, .dequeue 0]
  obtain ⟨-, -, hiff⟩ := hpol rfl
  cases hq
  have hin : room.queue.inFlight = 1 := rfl
  refine ⟨rfl, hin, ?_⟩
  intro request he
  have hlt := ((hiff request).mp he).2
  exact absurd hlt (hin ▸ Nat.lt_irrefl 1)

end WaitingRoom

end PooledHttp
