import Mathlib.Data.List.Perm.Basic
import PooledHttp.Proofs.Queue.Admission
import PooledHttp.Proofs.Queue.WakeUps

/-! Closing. A queue that was closed stays closed and takes nothing in: whoever offers a request, or
had been waiting to, gets its connection back. What the slots held goes out in its order, and after
that every delivery comes back with nothing. -/

namespace PooledHttp

variable {α : Type}

namespace QueueEvent

def ofResult : Option (Pending α) → QueueEvent α
  | some request => delivered request
  | none => drained

def result? : QueueEvent α → Option (Option (Pending α))
  | delivered request => some (some request)
  | drained => some none
  | _ => none

def rejected? : QueueEvent α → Option α
  | rejected returned => some returned.connection
  | _ => none

end QueueEvent

/-- What deliveries came back with, in the order in which they ended. -/
def resultsIn (past : List (QueueEvent α)) : List (Option (Pending α)) :=
  past.filterMap QueueEvent.result?

def rejectedIn (past : List (QueueEvent α)) : List α := past.filterMap QueueEvent.rejected?

def QueueAction.offered? : QueueAction α → Option (Pending α)
  | enqueue request => some request
  | _ => none

/-- A closed queue that held `waiting` when it was closed. Of the deliveries that have ended since,
each came back with the next of what waited, if there was one. -/
structure Drains (waiting : List (Pending α)) (results : List (Option (Pending α)))
    (q : RequestQueue α) : Prop where
  closed : q.closed = true
  results_eq : results = (List.range results.length).map fun i => waiting[i]?
  left : q.Holds (waiting.drop results.length)

namespace Passage

variable {q next : RequestQueue α} {event : Option (QueueEvent α)}

theorem closed_of_closed (h : Passage q event next) (hc : q.closed = true) : next.closed = true := by
  cases h with
  | close => rfl
  | wait | accept | reject | deliver | drain | finish => exact hc

theorem acceptedIn_eq_nil (h : Passage q event next) (hc : q.closed = true) :
    acceptedIn event.toList = [] := by
  cases h with
  | accept request hopen _ =>
    rw [hc] at hopen
    cases hopen
  | wait | reject | deliver | drain | finish | close => rfl

theorem drained_cases (h : Passage q (some .drained) next) : q.queued = 0 ∧ q.closed = true := by
  cases h with
  | drain hq hc => exact ⟨hq, hc⟩

end Passage

namespace Drains

variable {waiting : List (Pending α)} {results : List (Option (Pending α))}
  {q next : RequestQueue α} {event : Option (QueueEvent α)}

theorem start {q : RequestQueue α} (h : q.Holds waiting) : Drains waiting [] q.close :=
  ⟨rfl, rfl, h.close⟩

theorem concat (h : Drains waiting results q) (hc : next.closed = true)
    (hleft : next.Holds (waiting.drop (results.length + 1))) :
    Drains waiting (results ++ [waiting[results.length]?]) next := by
  refine ⟨hc, ?_, ?_⟩
  · rw [List.length_append, List.length_singleton, List.range_succ, List.map_append,
      ← h.results_eq, List.map_singleton]
  · rwa [List.length_append, List.length_singleton]

theorem next_eq {request : Pending α} {rest : List (Pending α)}
    (hl : waiting.drop results.length = request :: rest) :
    waiting[results.length]? = some request ∧ waiting.drop (results.length + 1) = rest := by
  rw [← List.head?_drop, ← List.tail_drop, hl]
  exact ⟨rfl, rfl⟩

theorem passage (h : Drains waiting results q) (hp : Passage q event next) :
    Drains waiting (results ++ resultsIn event.toList) next := by
  have hclosed := hp.closed_of_closed h.closed
  have hquiet : next.Holds (waiting.drop results.length) → Drains waiting (results ++ []) next := by
    intro hleft
    rw [List.append_nil]
    exact ⟨hclosed, h.results_eq, hleft⟩
  cases hp with
  | accept request hopen _ =>
    rw [h.closed] at hopen
    cases hopen
  | deliver request hd =>
    have hpos := RequestQueue.queued_pos_of_delivered hd
    have hleft := h.left
    cases hl : waiting.drop results.length with
    | nil =>
      rw [hleft.queued_eq, hl] at hpos
      exact absurd hpos (Nat.lt_irrefl 0)
    | cons first rest =>
      obtain ⟨hfirst, hrest⟩ := next_eq hl
      rw [hl] at hleft
      rw [hleft.deliver_cons] at hd
      cases hd
      have hnext := h.concat hclosed (hrest ▸ hleft.pop)
      rwa [hfirst] at hnext
  | drain hq _ =>
    have hnil : waiting.drop results.length = [] := by
      rw [← List.length_eq_zero_iff, ← h.left.queued_eq, hq]
    have hnone : waiting[results.length]? = none := by
      rw [← List.head?_drop, hnil]
      rfl
    have hrest : waiting.drop (results.length + 1) = waiting.drop results.length := by
      rw [← List.tail_drop, hnil]
      rfl
    have hnext := h.concat hclosed (hrest ▸ h.left)
    rwa [hnone] at hnext
  | finish hlt => exact hquiet (h.left.release hlt)
  | close => exact hquiet h.left.close
  | wait | reject => exact hquiet h.left

end Drains

namespace WaitingRoom

variable {r room : WaitingRoom α} {event : Option (QueueEvent α)}

theorem drains_after {waiting : List (Pending α)} {results : List (Option (Pending α))}
    (h : Drains waiting results r.queue) (later : List (QueueAction α)) :
    Drains waiting (results ++ resultsIn (r.events later)) (r.after later).queue := by
  have hstart : Drains waiting (results ++ resultsIn []) r.queue := by
    rwa [resultsIn, List.filterMap_nil, List.append_nil]
  refine run_induction (P := fun past room => Drains waiting (results ++ resultsIn past) room.queue)
    hstart ?_ later
  intro past room action hd
  have hresults : resultsIn (past ++ (room.event? action).toList) =
      resultsIn past ++ resultsIn (room.event? action).toList := List.filterMap_append
  rw [hresults, ← List.append_assoc]
  exact hd.passage (next_passage room action)

theorem acceptedIn_closed (hc : r.queue.closed = true) (later : List (QueueAction α)) :
    acceptedIn (r.events later) = [] := by
  induction later generalizing r with
  | nil => rfl
  | cons action later ih =>
    have hp := next_passage r action
    have hevents : acceptedIn (r.events (action :: later)) =
        acceptedIn (r.event? action).toList ++ acceptedIn ((r.next action).events later) :=
      List.filterMap_append
    rw [hevents, hp.acceptedIn_eq_nil hc, ih (hp.closed_of_closed hc)]
    rfl

theorem enqueue_closed (hc : r.queue.closed = true) (request : Pending α) :
    r.enqueue request = .ok (r, some (.rejected ⟨request.connection⟩)) := by
  rw [enqueue, RequestQueue.offer_closed hc]

theorem retryEnqueue_closed (hc : r.queue.closed = true) {index : Nat} {request : Pending α}
    (hi : r.producersAwake[index]? = some request) :
    r.retryEnqueue index =
      .ok ({ r with producersAwake := r.producersAwake.eraseIdx index },
        some (.rejected ⟨request.connection⟩)) := by
  have hrun : RequestQueue.closed (queue { r with producersAwake := r.producersAwake.eraseIdx index }) =
      true := hc
  simp only [retryEnqueue, hi, enqueue_closed hrun]

theorem dequeue_event_closed {left : List (Pending α)} (hc : r.queue.closed = true)
    (hl : r.queue.Holds left) (pick : Nat) :
    r.event? (.dequeue pick) = some (.ofResult left.head?) := by
  cases left with
  | nil =>
    simp only [event?, act, dequeue, RequestQueue.deliver_empty hl.queued_eq, hc, if_true]
    rfl
  | cons request left => exact dequeue_event_cons hl pick

theorem retryDequeue_event (hpos : 0 < r.consumersAwake) (pick : Nat) :
    r.event? (.retryDequeue pick) =
      event? { r with consumersAwake := r.consumersAwake - 1 } (.dequeue pick) := by
  have hz : r.consumersAwake ≠ 0 := by omega
  simp only [event?, act, retryDequeue, if_neg hz]

/-! Where no producer sleeps, a signal reaches none. -/

theorem stirProducer_nobody (h : r.producersAsleep = []) (index : Nat) :
    r.stirProducer index = r := by
  rcases stirProducer_cases r index with ⟨-, he⟩ | ⟨_, hne, -⟩
  · exact he
  · exact absurd h hne

theorem signalProducer_nobody (h : r.producersAsleep = []) (pick : Nat) :
    r.signalProducer pick = r := stirProducer_nobody h _

theorem dequeue_producers {pick : Nat} (hs : r.producersAsleep = [])
    (h : r.dequeue pick = .ok (room, event)) :
    room.producersAwake = r.producersAwake ∧ rejectedIn event.toList = [] := by
  rcases dequeue_cases h with ⟨-, -, rfl, rfl⟩ | ⟨-, -, rfl, rfl⟩ | ⟨request, -, -, rfl, rfl⟩
  · exact ⟨rfl, rfl⟩
  · exact ⟨rfl, rfl⟩
  · refine ⟨?_, rfl⟩
    have hn := signalProducer_nobody (r := { r with queue := r.queue.pop }) hs pick
    rw [hn]
    split <;> rfl

theorem finish_producers {pick : Nat} (hs : r.producersAsleep = [])
    (h : r.finish pick = .ok (room, event)) :
    room.producersAwake = r.producersAwake ∧ rejectedIn event.toList = [] := by
  obtain ⟨-, rfl, rfl⟩ := finish_cases h
  refine ⟨?_, rfl⟩
  have hn := signalProducer_nobody (r := { r with queue := r.queue.release }) hs pick
  rw [hn]
  split <;> rfl

theorem returned_of_kept (hawake : room.producersAwake = r.producersAwake)
    (hnone : rejectedIn event.toList = []) :
    (rejectedIn event.toList ++ room.producersAwake.map Pending.connection).Perm
      ((r.producersAwake ++ []).map Pending.connection) := by
  rw [hawake, hnone, List.nil_append, List.append_nil]

/-- At a closed queue a step gives a producer its own connection back, or leaves the producers as
they are. -/
theorem act_returned (hc : r.queue.closed = true) (hs : r.producersAsleep = [])
    {action : QueueAction α} (h : r.act action = .ok (room, event)) :
    (rejectedIn event.toList ++ room.producersAwake.map Pending.connection).Perm
      ((r.producersAwake ++ action.offered?.toList).map Pending.connection) := by
  cases action with
  | enqueue request =>
    rw [act, enqueue_closed hc] at h
    cases h
    rw [List.map_append]
    exact List.perm_append_comm
  | retryEnqueue index =>
    cases hi : r.producersAwake[index]? with
    | none =>
      simp only [act, retryEnqueue, hi] at h
      cases h
      exact returned_of_kept rfl rfl
    | some request =>
      rw [act, retryEnqueue_closed hc hi] at h
      cases h
      obtain ⟨hlt, rfl⟩ := List.getElem?_eq_some_iff.mp hi
      change List.Perm _ ((r.producersAwake ++ []).map Pending.connection)
      rw [List.append_nil]
      exact (List.getElem_cons_eraseIdx_perm hlt).map Pending.connection
  | dequeue pick =>
    obtain ⟨hawake, hnone⟩ := dequeue_producers hs h
    exact returned_of_kept hawake hnone
  | retryDequeue pick =>
    rcases retryDequeue_cases h with ⟨rfl, rfl⟩ | ⟨-, hd⟩
    · exact returned_of_kept rfl rfl
    · obtain ⟨hawake, hnone⟩ :=
        dequeue_producers (r := { r with consumersAwake := r.consumersAwake - 1 }) hs hd
      exact returned_of_kept hawake hnone
  | finish pick =>
    obtain ⟨hawake, hnone⟩ := finish_producers hs h
    exact returned_of_kept hawake hnone
  | close =>
    cases h
    refine returned_of_kept ?_ rfl
    change r.producersAwake ++ r.producersAsleep = r.producersAwake
    rw [hs, List.append_nil]
  | stirProducer index =>
    cases h
    refine returned_of_kept ?_ rfl
    rw [stirProducer_nobody hs]
  | stirConsumer =>
    cases h
    refine returned_of_kept ?_ rfl
    rw [signalConsumer]
    split <;> rfl

theorem next_returned (hc : r.queue.closed = true) (hs : r.producersAsleep = [])
    (action : QueueAction α) :
    (rejectedIn (r.event? action).toList ++ (r.next action).producersAwake.map Pending.connection).Perm
      ((r.producersAwake ++ action.offered?.toList).map Pending.connection) := by
  cases h : r.act action with
  | error fault =>
    cases action with
    | enqueue request =>
      rw [act, enqueue_closed hc] at h
      cases h
    | _ =>
      simp only [next, event?, h]
      exact returned_of_kept rfl rfl
  | ok result =>
    obtain ⟨room, event⟩ := result
    simp only [next, event?, h]
    exact act_returned hc hs h

/-- No connection is lost. Whoever was waiting at the closed queue, or has come since, has got its
own connection back or is about to. -/
theorem after_returned (ha : r.Attended) (hc : r.queue.closed = true)
    (later : List (QueueAction α)) :
    (rejectedIn (r.events later) ++ (r.after later).producersAwake.map Pending.connection).Perm
      ((r.producersAwake ++ later.filterMap QueueAction.offered?).map Pending.connection) := by
  induction later generalizing r with
  | nil =>
    have hnone : rejectedIn (none : Option (QueueEvent α)).toList = [] := rfl
    exact returned_of_kept rfl hnone
  | cons action later ih =>
    have hclosed := (next_passage r action).closed_of_closed hc
    have hstep := next_returned hc (ha.nobody_asleep hc).2 action
    have hrest := ih (ha.next action) hclosed
    have hevents : rejectedIn (r.events (action :: later)) =
        rejectedIn (r.event? action).toList ++ rejectedIn ((r.next action).events later) :=
      List.filterMap_append
    have hoffered : (action :: later).filterMap QueueAction.offered? =
        action.offered?.toList ++ later.filterMap QueueAction.offered? := by
      cases action <;> rfl
    rw [hevents, hoffered, List.append_assoc]
    refine (hrest.append_left _).trans ?_
    rw [List.map_append, ← List.append_assoc, ← List.append_assoc, List.map_append]
    exact hstep.append_right _

/-- In every run a delivery comes back with nothing only where the queue is closed and empty. From
the moment at which it is closed, by whomever and however often, it stays closed. Nothing is
accepted any more, not even from a producer that was up already when the queue was closed: whoever
offers a request or retries gets its own connection back, and nothing else changes. Deliveries never
wait; the first of them bring what the slots held at that moment, each request once and in order,
and all others nothing. Nobody sleeps, and of all who waited then or came later each has got its
connection back or is about to. -/
theorem run_closed_drains (α : Type) {capacity : Nat} (hc : 0 < capacity)
    (policy : AdmissionPolicy) :
    ∃ q : RequestQueue α, RequestQueue.create capacity policy = .ok q ∧
      (∀ actions action,
        let room := (around q).after actions
        room.event? action = some .drained → room.queue.closed = true ∧ room.queue.Holds []) ∧
      ∀ before later,
        let last := (around q).after before
        let room := (around q).after (before ++ .close :: later)
        let past := (last.next .close).events later
        let results := resultsIn past
        ∃ waiting, last.queue.Holds waiting ∧
          room.queue.closed = true ∧
          acceptedIn past = [] ∧
          (∀ request,
            room.act (.enqueue request) = .ok (room, some (.rejected ⟨request.connection⟩))) ∧
          (∀ index request, room.producersAwake[index]? = some request →
            room.act (.retryEnqueue index) =
              .ok ({ room with producersAwake := room.producersAwake.eraseIdx index },
                some (.rejected ⟨request.connection⟩))) ∧
          results = (List.range results.length).map (fun i => waiting[i]?) ∧
          room.queue.Holds (waiting.drop results.length) ∧
          (∀ pick, room.event? (.dequeue pick) = some (.ofResult waiting[results.length]?)) ∧
          (0 < room.consumersAwake → ∀ pick,
            room.event? (.retryDequeue pick) = some (.ofResult waiting[results.length]?)) ∧
          room.producersAsleep = [] ∧ room.consumersAsleep = 0 ∧
          (rejectedIn past ++ room.producersAwake.map Pending.connection).Perm
            ((last.producersAwake ++ last.producersAsleep ++
              later.filterMap QueueAction.offered?).map Pending.connection) := by
  obtain ⟨q, hq, hholds, hcap, hpol, hin, -⟩ := RequestQueue.create_holds (α := α) hc policy
  have hinOrder : ∀ actions, InOrder q ((around q).events actions) ((around q).after actions) :=
    run_induction ⟨rfl, rfl, Nat.le_of_eq hin, [], hholds, rfl⟩ fun _ _ action h => h.step action
  refine ⟨q, hq, ?_, ?_⟩
  · intro actions action room he
    obtain ⟨waiting, hw, -⟩ := (hinOrder actions).waiting
    have hp := next_passage room action
    rw [he] at hp
    obtain ⟨hqueued, hclosed⟩ := hp.drained_cases
    have hnil : waiting = [] := List.length_eq_zero_iff.mp (hw.queued_eq.symm.trans hqueued)
    exact ⟨hclosed, hnil ▸ hw⟩
  · intro before later last room past results
    obtain ⟨waiting, hw, -⟩ := (hinOrder before).waiting
    have hroom : room = (last.next .close).after later := after_append (around q) before (.close :: later)
    have hattended : room.Attended := attended_after q _
    have hshut : (last.next .close).queue.closed = true := rfl
    have hdrains : Drains waiting results room.queue := by
      rw [hroom]
      exact drains_after (r := last.next .close) (.start hw) later
    have hasleep := hattended.nobody_asleep hdrains.closed
    have hresult : waiting[results.length]? = (waiting.drop results.length).head? :=
      List.head?_drop.symm
    refine ⟨waiting, hw, hdrains.closed, acceptedIn_closed hshut later, enqueue_closed hdrains.closed,
      fun _ _ => retryEnqueue_closed hdrains.closed, hdrains.results_eq, hdrains.left, ?_, ?_,
      hasleep.2, hasleep.1, ?_⟩
    · intro pick
      rw [hresult]
      exact dequeue_event_closed hdrains.closed hdrains.left pick
    · intro hpos pick
      rw [hresult, retryDequeue_event hpos]
      exact dequeue_event_closed (r := { room with consumersAwake := room.consumersAwake - 1 })
        hdrains.closed hdrains.left pick
    · rw [hroom]
      exact after_returned ((attended_after q before).next .close) hshut later

/-- One slot. A second producer sleeps, a delivery makes room and awakens it, and before it runs
again the queue is closed: it gets its connection back. -/
theorem run_closed_drains_overtaken :
    0 < 1 ∧ ∃ q : RequestQueue Nat, RequestQueue.create 1 .queue = .ok q ∧
      let before : List (QueueAction Nat) :=
        [.enqueue ⟨1, .epoch⟩, .enqueue ⟨2, .epoch⟩, .dequeue 0]
      let room := (around q).after (before ++ [.close])
      room.queue.isFull = false ∧ room.producersAwake = [⟨2, .epoch⟩] ∧
      room.event? (.retryEnqueue 0) = some (.rejected ⟨2⟩) ∧
      (room.next (.retryEnqueue 0)).queue = room.queue := by
  obtain ⟨q, hq, -, h⟩ := run_closed_drains Nat (show 0 < 1 by decide) .queue
  refine ⟨by decide, q, hq, ?_⟩
  intro before room
  obtain ⟨-, -, -, -, -, hretry, -⟩ := h before []
  cases hq
  have hawake : room.producersAwake = [⟨2, .epoch⟩] := rfl
  have hact := hretry 0 ⟨2, .epoch⟩ (hawake ▸ List.getElem?_cons_zero)
  refine ⟨rfl, hawake, ?_, ?_⟩
  · rw [event?, hact]
  · rw [next, hact]

end WaitingRoom

end PooledHttp
