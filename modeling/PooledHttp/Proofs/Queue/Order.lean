import PooledHttp.Proofs.Queue.Steps

/-! First in, first out. At every point of a run the requests accepted so far are those delivered
so far, followed by those that the slots hold, all in one order. -/

namespace PooledHttp

variable {α : Type}

namespace QueueEvent

def accepted? : QueueEvent α → Option (Pending α)
  | accepted request => some request
  | _ => none

def delivered? : QueueEvent α → Option (Pending α)
  | delivered request => some request
  | _ => none

end QueueEvent

def acceptedIn (past : List (QueueEvent α)) : List (Pending α) :=
  past.filterMap QueueEvent.accepted?

def deliveredIn (past : List (QueueEvent α)) : List (Pending α) :=
  past.filterMap QueueEvent.delivered?

namespace Passage

variable {q next : RequestQueue α} {event : Option (QueueEvent α)}

theorem capacity_eq (h : Passage q event next) : next.capacity = q.capacity := by
  cases h <;> rfl

theorem policy_eq (h : Passage q event next) : next.policy = q.policy := by
  cases h <;> rfl

theorem inFlight_le (h : Passage q event next) :
    next.inFlight ≤ q.inFlight + (acceptedIn event.toList).length := by
  cases h with
  | accept request _ _ => exact Nat.le_refl (q.inFlight + 1)
  | finish _ => exact Nat.sub_le q.inFlight 1
  | wait | reject | deliver | drain | close => exact Nat.le_refl q.inFlight

/-- Whatever a critical section does, what was held and what came in is what went out and what is
held now. -/
theorem holds {waiting : List (Pending α)} (h : Passage q event next) (hq : q.Holds waiting) :
    ∃ left, next.Holds left ∧
      waiting ++ acceptedIn event.toList = deliveredIn event.toList ++ left := by
  cases h with
  | accept request _ hfull =>
    exact ⟨waiting ++ [request], hq.push (hq.queued_lt hfull) request, rfl⟩
  | deliver request hd =>
    cases waiting with
    | nil =>
      rw [RequestQueue.deliver_empty hq.queued_eq] at hd
      cases hclosed : q.closed <;> simp [hclosed] at hd
    | cons first left =>
      rw [hq.deliver_cons] at hd
      cases hd
      exact ⟨left, hq.pop, by simp [acceptedIn, deliveredIn, QueueEvent.accepted?,
        QueueEvent.delivered?]⟩
  | finish hlt => exact ⟨waiting, hq.release hlt, List.append_nil waiting⟩
  | close => exact ⟨waiting, hq.close, List.append_nil waiting⟩
  | wait | reject | drain => exact ⟨waiting, hq, List.append_nil waiting⟩

end Passage

namespace WaitingRoom

variable {r : WaitingRoom α} {waiting : List (Pending α)}

theorem enqueue_returns (h : r.queue.Holds waiting) (request : Pending α) :
    ∃ result, r.enqueue request = .ok result := by
  cases hc : r.queue.closed with
  | true => exact ⟨_, by rw [enqueue, RequestQueue.offer_closed hc]⟩
  | false =>
    cases hfull : r.queue.isFull with
    | true => exact ⟨_, by rw [enqueue, RequestQueue.offer_full hc hfull]⟩
    | false => exact ⟨_, by rw [enqueue, h.offer_room hc hfull]⟩

theorem dequeue_returns (h : r.queue.Holds waiting) (pick : Nat) :
    ∃ result, r.dequeue pick = .ok result := by
  cases waiting with
  | nil =>
    have he := RequestQueue.deliver_empty h.queued_eq
    cases hc : r.queue.closed with
    | true => exact ⟨_, by rw [dequeue, he, hc, if_pos rfl]⟩
    | false => exact ⟨_, by rw [dequeue, he, hc, if_neg Bool.false_ne_true]⟩
  | cons request left => exact ⟨_, by rw [dequeue, h.deliver_cons]⟩

theorem act_error (h : r.queue.Holds waiting) {action : QueueAction α} {fault : QueueFault}
    (he : r.act action = .error fault) : fault = .unmatchedFinish ∧ ∃ pick, action = .finish pick := by
  cases action with
  | enqueue request =>
    obtain ⟨result, hr⟩ := enqueue_returns h request
    rw [act, hr] at he
    cases he
  | dequeue pick =>
    obtain ⟨result, hr⟩ := dequeue_returns h pick
    rw [act, hr] at he
    cases he
  | retryEnqueue index =>
    cases hi : r.producersAwake[index]? with
    | none => simp [act, retryEnqueue, hi] at he
    | some request =>
      obtain ⟨result, hr⟩ := enqueue_returns
        (r := { r with producersAwake := r.producersAwake.eraseIdx index }) h request
      simp [act, retryEnqueue, hi, hr] at he
  | retryDequeue pick =>
    by_cases hz : r.consumersAwake = 0
    · simp [act, retryDequeue, hz] at he
    · obtain ⟨result, hr⟩ := dequeue_returns
        (r := { r with consumersAwake := r.consumersAwake - 1 }) h pick
      simp [act, retryDequeue, hz, hr] at he
  | finish pick =>
    by_cases hlt : r.queue.queued < r.queue.inFlight
    · simp [act, finish, RequestQueue.finish, hlt] at he
    · simp only [act, finish, RequestQueue.finish, if_neg hlt] at he
      cases he
      exact ⟨rfl, pick, rfl⟩
  | close | stirProducer | stirConsumer => cases he

theorem enqueue_event_room (h : r.queue.Holds waiting) (hc : r.queue.closed = false)
    (hfull : r.queue.isFull = false) (request : Pending α) :
    r.event? (.enqueue request) = some (.accepted request) := by
  simp only [event?, act, enqueue, h.offer_room hc hfull]

theorem dequeue_event_cons {request : Pending α} (h : r.queue.Holds (request :: waiting))
    (pick : Nat) : r.event? (.dequeue pick) = some (.delivered request) := by
  simp only [event?, act, dequeue, h.deliver_cons]

/-- What the room holds after what has happened so far. -/
structure InOrder (q : RequestQueue α) (past : List (QueueEvent α)) (room : WaitingRoom α) : Prop where
  capacity_eq : room.queue.capacity = q.capacity
  policy_eq : room.queue.policy = q.policy
  inFlight_le : room.queue.inFlight ≤ (acceptedIn past).length
  waiting : ∃ waiting, room.queue.Holds waiting ∧ acceptedIn past = deliveredIn past ++ waiting

theorem InOrder.step {q : RequestQueue α} {past : List (QueueEvent α)} {room : WaitingRoom α}
    (h : InOrder q past room) (action : QueueAction α) :
    InOrder q (past ++ (room.event? action).toList) (room.next action) := by
  have hp := next_passage room action
  have hacc : acceptedIn (past ++ (room.event? action).toList) =
      acceptedIn past ++ acceptedIn (room.event? action).toList := List.filterMap_append
  have hdel : deliveredIn (past ++ (room.event? action).toList) =
      deliveredIn past ++ deliveredIn (room.event? action).toList := List.filterMap_append
  refine ⟨hp.capacity_eq.trans h.capacity_eq, hp.policy_eq.trans h.policy_eq, ?_, ?_⟩
  · have hle := hp.inFlight_le
    have hold := h.inFlight_le
    rw [hacc, List.length_append]
    omega
  · obtain ⟨waiting, hw, he⟩ := h.waiting
    obtain ⟨left, hl, hh⟩ := hp.holds hw
    refine ⟨left, hl, ?_⟩
    rw [hacc, hdel, he, List.append_assoc, hh, List.append_assoc]

/-- In every run the buffer is a list: the accepted requests, with their arrival times, are the
delivered ones followed by those in the slots; the next delivery is the first of the latter, and an
open queue with room takes what it is offered. No slot is out of range and no slot that should hold
a request is empty. No more requests are in flight than were accepted, so the counters stay below
any bound on that number. -/
theorem run_first_in_first_out (α : Type) {capacity : Nat} (hc : 0 < capacity)
    (policy : AdmissionPolicy) :
    ∃ q : RequestQueue α, RequestQueue.create capacity policy = .ok q ∧
      ∀ actions : List (QueueAction α),
        let past := (around q).events actions
        let room := (around q).after actions
        room.queue.capacity = capacity ∧ room.queue.policy = policy ∧
        (∃ waiting, room.queue.Holds waiting ∧ acceptedIn past = deliveredIn past ++ waiting ∧
          ∀ request left pick, waiting = request :: left →
            room.event? (.dequeue pick) = some (.delivered request)) ∧
        (room.queue.closed = false → room.queue.isFull = false →
          ∀ request, room.event? (.enqueue request) = some (.accepted request)) ∧
        deliveredIn past <+: acceptedIn past ∧
        room.queue.inFlight ≤ (acceptedIn past).length ∧
        ∀ action fault, room.act action = .error fault →
          fault = .unmatchedFinish ∧ ∃ pick, action = .finish pick := by
  obtain ⟨q, hq, hholds, hcap, hpol, hin, -⟩ := RequestQueue.create_holds (α := α) hc policy
  refine ⟨q, hq, ?_⟩
  intro actions past room
  have hstart : InOrder q [] (around q) :=
    ⟨rfl, rfl, Nat.le_of_eq hin, [], hholds, rfl⟩
  have h : InOrder q past room := run_induction hstart (fun _ _ action h => h.step action) actions
  obtain ⟨waiting, hw, he⟩ := h.waiting
  refine ⟨h.capacity_eq.trans hcap, h.policy_eq.trans hpol, ⟨waiting, hw, he, ?_⟩,
    enqueue_event_room hw, ⟨waiting, he.symm⟩, h.inFlight_le, fun action fault => act_error hw⟩
  rintro request left pick rfl
  exact dequeue_event_cons hw pick

/-- Two slots, three requests: the third goes into the slot that the first has left. -/
theorem run_first_in_first_out_wrapping :
    0 < 2 ∧ ∃ q : RequestQueue Nat, RequestQueue.create 2 .inFlight = .ok q ∧
      let actions : List (QueueAction Nat) :=
        [.enqueue ⟨1, .epoch⟩, .enqueue ⟨2, .epoch⟩, .dequeue 0, .finish 0, .enqueue ⟨3, .epoch⟩]
      ((around q).after actions).queue.Holds [⟨2, .epoch⟩, ⟨3, .epoch⟩] ∧
      ((around q).after actions).event? (.dequeue 0) = some (.delivered ⟨2, .epoch⟩) := by
  obtain ⟨q, hq, h⟩ := run_first_in_first_out Nat (show 0 < 2 by decide) .inFlight
  refine ⟨by decide, q, hq, ?_⟩
  intro actions
  obtain ⟨-, -, ⟨waiting, hw, he, hd⟩, -⟩ := h actions
  cases hq
  have hwait : waiting = [⟨2, .epoch⟩, ⟨3, .epoch⟩] := by
    change [⟨1, .epoch⟩, ⟨2, .epoch⟩, ⟨3, .epoch⟩] = [⟨1, .epoch⟩] ++ waiting at he
    exact (List.cons.inj he).2.symm
  subst hwait
  exact ⟨hw, hd _ _ 0 rfl⟩

end WaitingRoom

end PooledHttp
