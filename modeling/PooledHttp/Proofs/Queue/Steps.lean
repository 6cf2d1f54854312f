import PooledHttp.Proofs.Queue.Ring
import PooledHttp.Queue.Waiting

/-! What one step of the threads around a queue can do, and runs of such steps. A step that ends in
a fault leaves everything as it was. -/

namespace PooledHttp

variable {α : Type}

/-- What a critical section does to the queue, by what it lets its thread take. -/
inductive Passage (q : RequestQueue α) : Option (QueueEvent α) → RequestQueue α → Prop
  | wait : Passage q none q
  | accept (request : Pending α) (hc : q.closed = false) (hfull : q.isFull = false) :
    Passage q (some (.accepted request)) (q.push request)
  | reject (returned : QueueClosed α) (hc : q.closed = true) : Passage q (some (.rejected returned)) q
  | deliver (request : Pending α) (h : q.deliver = .ok (.delivered request q.pop)) :
    Passage q (some (.delivered request)) q.pop
  | drain (hq : q.queued = 0) (hc : q.closed = true) : Passage q (some .drained) q
  | finish (hlt : q.queued < q.inFlight) : Passage q (some .finished) q.release
  | close : Passage q (some .closed) q.close

namespace WaitingRoom

/-! The signals leave the queue alone, and each of them touches threads of one kind only. -/

@[simp] theorem stirProducer_queue (r : WaitingRoom α) (index : Nat) :
    (r.stirProducer index).queue = r.queue := by
  cases h : r.producersAsleep[index]? <;> simp [stirProducer, h]

@[simp] theorem signalProducer_queue (r : WaitingRoom α) (pick : Nat) :
    (r.signalProducer pick).queue = r.queue := stirProducer_queue r _

@[simp] theorem signalConsumer_queue (r : WaitingRoom α) : r.signalConsumer.queue = r.queue := by
  by_cases h : r.consumersAsleep = 0 <;> simp [signalConsumer, h]

theorem enqueue_cases {r next : WaitingRoom α} {request : Pending α} {event : Option (QueueEvent α)}
    (h : r.enqueue request = .ok (next, event)) :
    (r.queue.closed = true ∧ next = r ∧ event = some (.rejected ⟨request.connection⟩)) ∨
    (r.queue.closed = false ∧ r.queue.isFull = true ∧
      next = { r with producersAsleep := r.producersAsleep ++ [request] } ∧ event = none) ∨
    (r.queue.closed = false ∧ r.queue.isFull = false ∧
      next = { r with queue := r.queue.push request }.signalConsumer ∧
      event = some (.accepted request)) := by
  cases ho : r.queue.offer request with
  | error e =>
    rw [enqueue, ho] at h
    cases h
  | ok admission =>
    rw [enqueue, ho] at h
    rcases RequestQueue.offer_cases ho with ⟨hc, rfl⟩ | ⟨hc, hfull, rfl⟩ | ⟨hc, hfull, rfl⟩
    · cases h
      exact .inl ⟨hc, rfl, rfl⟩
    · cases h
      exact .inr (.inl ⟨hc, hfull, rfl, rfl⟩)
    · cases h
      exact .inr (.inr ⟨hc, hfull, rfl, rfl⟩)

theorem dequeue_cases {r next : WaitingRoom α} {pick : Nat} {event : Option (QueueEvent α)}
    (h : r.dequeue pick = .ok (next, event)) :
    (r.queue.queued = 0 ∧ r.queue.closed = true ∧ next = r ∧ event = some .drained) ∨
    (r.queue.queued = 0 ∧ r.queue.closed = false ∧
      next = { r with consumersAsleep := r.consumersAsleep + 1 } ∧ event = none) ∨
    (∃ request, r.queue.deliver = .ok (.delivered request r.queue.pop) ∧ r.queue.queued ≠ 0 ∧
      next = (if r.queue.policy = .queue then { r with queue := r.queue.pop }.signalProducer pick
        else { r with queue := r.queue.pop }) ∧
      event = some (.delivered request)) := by
  by_cases hq : r.queue.queued = 0
  · rw [dequeue, RequestQueue.deliver_empty hq] at h
    cases hc : r.queue.closed with
    | true =>
      simp only [hc, if_true] at h
      cases h
      exact .inl ⟨hq, rfl, rfl, rfl⟩
    | false =>
      simp only [hc, Bool.false_eq_true, if_false] at h
      cases h
      exact .inr (.inl ⟨hq, rfl, rfl, rfl⟩)
  · cases hd : r.queue.deliver with
    | error e =>
      rw [dequeue, hd] at h
      cases h
    | ok delivery =>
      obtain ⟨request, rfl⟩ := RequestQueue.deliver_queued hq hd
      rw [dequeue, hd] at h
      cases h
      exact .inr (.inr ⟨request, rfl, hq, rfl, rfl⟩)

theorem finish_cases {r next : WaitingRoom α} {pick : Nat} {event : Option (QueueEvent α)}
    (h : r.finish pick = .ok (next, event)) :
    r.queue.queued < r.queue.inFlight ∧
      next = (if r.queue.policy = .inFlight then { r with queue := r.queue.release }.signalProducer pick
        else { r with queue := r.queue.release }) ∧
      event = some .finished := by
  by_cases hlt : r.queue.queued < r.queue.inFlight
  · rw [finish, RequestQueue.finish, if_pos hlt] at h
    cases h
    exact ⟨hlt, rfl, rfl⟩
  · rw [finish, RequestQueue.finish, if_neg hlt] at h
    cases h

theorem retryEnqueue_cases {r next : WaitingRoom α} {index : Nat} {event : Option (QueueEvent α)}
    (h : r.retryEnqueue index = .ok (next, event)) :
    (next = r ∧ event = none) ∨
    ∃ request, r.producersAwake[index]? = some request ∧
      enqueue { r with producersAwake := r.producersAwake.eraseIdx index } request =
        .ok (next, event) := by
  cases hi : r.producersAwake[index]? with
  | none =>
    simp only [retryEnqueue, hi] at h
    cases h
    exact .inl ⟨rfl, rfl⟩
  | some request =>
    simp only [retryEnqueue, hi] at h
    exact .inr ⟨request, rfl, h⟩

theorem retryDequeue_cases {r next : WaitingRoom α} {pick : Nat} {event : Option (QueueEvent α)}
    (h : r.retryDequeue pick = .ok (next, event)) :
    (next = r ∧ event = none) ∨
    0 < r.consumersAwake ∧
      dequeue { r with consumersAwake := r.consumersAwake - 1 } pick = .ok (next, event) := by
  by_cases hz : r.consumersAwake = 0
  · rw [retryDequeue, if_pos hz] at h
    cases h
    exact .inl ⟨rfl, rfl⟩
  · rw [retryDequeue, if_neg hz] at h
    exact .inr ⟨by omega, h⟩

theorem enqueue_passage {r next : WaitingRoom α} {request : Pending α}
    {event : Option (QueueEvent α)} (h : r.enqueue request = .ok (next, event)) :
    Passage r.queue event next.queue := by
  rcases enqueue_cases h with ⟨hc, rfl, rfl⟩ | ⟨hc, hfull, rfl, rfl⟩ | ⟨hc, hfull, rfl, rfl⟩
  · exact .reject _ hc
  · exact .wait
  · rw [signalConsumer_queue]
    exact .accept request hc hfull

theorem dequeue_passage {r next : WaitingRoom α} {pick : Nat} {event : Option (QueueEvent α)}
    (h : r.dequeue pick = .ok (next, event)) : Passage r.queue event next.queue := by
  rcases dequeue_cases h with ⟨hq, hc, rfl, rfl⟩ | ⟨hq, hc, rfl, rfl⟩ | ⟨request, hd, hq, rfl, rfl⟩
  · exact .drain hq hc
  · exact .wait
  · have hpop := Passage.deliver request hd
    split
    · simpa only [signalProducer_queue] using hpop
    · exact hpop

theorem finish_passage {r next : WaitingRoom α} {pick : Nat} {event : Option (QueueEvent α)}
    (h : r.finish pick = .ok (next, event)) : Passage r.queue event next.queue := by
  obtain ⟨hlt, rfl, rfl⟩ := finish_cases h
  have hrelease := Passage.finish hlt
  split
  · simpa only [signalProducer_queue] using hrelease
  · exact hrelease

theorem act_passage {r next : WaitingRoom α} {action : QueueAction α}
    {event : Option (QueueEvent α)} (h : r.act action = .ok (next, event)) :
    Passage r.queue event next.queue := by
  cases action with
  | enqueue request => exact enqueue_passage h
  | dequeue pick => exact dequeue_passage h
  | retryEnqueue index =>
    rcases retryEnqueue_cases h with ⟨rfl, rfl⟩ | ⟨request, -, he⟩
    · exact .wait
    · have hp := enqueue_passage he
      exact hp
  | retryDequeue pick =>
    rcases retryDequeue_cases h with ⟨rfl, rfl⟩ | ⟨-, hd⟩
    · exact .wait
    · have hp := dequeue_passage hd
      exact hp
  | finish pick => exact finish_passage h
  | close =>
    cases h
    exact .close
  | stirProducer index =>
    cases h
    rw [stirProducer_queue]
    exact .wait
  | stirConsumer =>
    cases h
    rw [signalConsumer_queue]
    exact .wait

def next (r : WaitingRoom α) (action : QueueAction α) : WaitingRoom α :=
  match r.act action with
  | .ok (room, _) => room
  | .error _ => r

def event? (r : WaitingRoom α) (action : QueueAction α) : Option (QueueEvent α) :=
  match r.act action with
  | .ok (_, event) => event
  | .error _ => none

/-- The room after a run, in which any threads may take any steps in any order. -/
def after (r : WaitingRoom α) : List (QueueAction α) → WaitingRoom α
  | [] => r
  | action :: actions => (r.next action).after actions

/-- All that the threads took with them in a run, in its order. -/
def events (r : WaitingRoom α) : List (QueueAction α) → List (QueueEvent α)
  | [] => []
  | action :: actions => (r.event? action).toList ++ (r.next action).events actions

theorem next_passage (r : WaitingRoom α) (action : QueueAction α) :
    Passage r.queue (r.event? action) (r.next action).queue := by
  cases h : r.act action with
  | error e =>
    simp only [event?, next, h]
    exact .wait
  | ok result =>
    obtain ⟨room, event⟩ := result
    simp only [event?, next, h]
    exact act_passage h

/-- What holds at the start and is kept by every step holds after every run. -/
theorem run_induction {P : List (QueueEvent α) → WaitingRoom α → Prop} {r : WaitingRoom α}
    (hstart : P [] r)
    (hstep : ∀ past room action, P past room →
      P (past ++ (room.event? action).toList) (room.next action))
    (actions : List (QueueAction α)) : P (r.events actions) (r.after actions) := by
  have hrun : ∀ actions past room, P past room →
      P (past ++ room.events actions) (room.after actions) := by
    intro actions
    induction actions with
    | nil =>
      intro past room h
      simpa only [events, after, List.append_nil] using h
    | cons action actions ih =>
      intro past room h
      have hh := ih _ _ (hstep past room action h)
      simpa only [events, after, List.append_assoc] using hh
  simpa only [List.nil_append] using hrun actions [] r hstart

end WaitingRoom

end PooledHttp
