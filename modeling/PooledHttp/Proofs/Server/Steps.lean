import PooledHttp.Proofs.Pool.Accounts
import PooledHttp.Server.Session

/-! A running server, step by step. What a step of the acceptor, of a worker or of a shutdown can do,
and runs of such steps in any order. -/

namespace PooledHttp

variable {α : Type}

namespace AcceptorPhase

def held : AcceptorPhase α → List α
  | received incoming => incoming.dropped
  | enqueuing request => [request.connection]
  | _ => []

def hasLeft : AcceptorPhase α → Bool
  | leaving | draining | ended _ => true
  | _ => false

def hasClosed : AcceptorPhase α → Bool
  | draining | ended _ => true
  | _ => false

def results? : AcceptorPhase α → Option (List Tally)
  | ended results => some results
  | _ => none

end AcceptorPhase

namespace Server

/-- What a step brings in. Only an acceptor that waits takes a connection. -/
def obtained (s : Server α) : Action α → List α
  | .receive incoming =>
    match s.phase with
    | .waiting => incoming.dropped
    | _ => []
  | _ => []

def event? (handler : RequestHandler α) (s : Server α) : Action α → Option (PoolEvent α)
  | .advance _ =>
    match s.phase with
    | .enqueuing request => s.pool.event? handler (.offer request)
    | _ => none
  | .work now worker => s.pool.event? handler (.work now worker)
  | _ => none

inductive Move (handler : RequestHandler α) (s : Server α) :
    Action α → List α → Option (PoolEvent α) → Server α → Prop
  | idle {action : Action α} : Move handler s action [] none s
  | receive {incoming : Incoming α} (hp : s.phase = .waiting) :
    Move handler s (.receive incoming) incoming.dropped none { s with phase := .received incoming }
  | leave {incoming : Incoming α} {now : Instant} (hp : s.phase = .received incoming)
    (hs : s.stop = true) :
    Move handler s (.advance now) [] none
      { s with phase := .leaving, discarded := s.discarded ++ incoming.dropped }
  | pause {cause : SystemError} {now : Instant} (hp : s.phase = .received (.failure cause))
    (failures milliseconds : Nat) :
    Move handler s (.advance now) [] none { s with failures, phase := .pausing milliseconds }
  | resume {milliseconds : Nat} {now : Instant} (hp : s.phase = .pausing milliseconds) :
    Move handler s (.advance now) [] none { s with phase := .waiting }
  | proceed {connection : α} {now : Instant} (hp : s.phase = .received (.connection connection)) :
    Move handler s (.advance now) [] none
      { s with failures := 0, phase := .enqueuing ⟨connection, now⟩ }
  | enqueue {request : Pending α} {now : Instant} (hp : s.phase = .enqueuing request)
    (hc : s.pool.queue.closed = false) (hfull : s.pool.queue.isFull = false) :
    Move handler s (.advance now) [] (some (.accepted request))
      { s with pool := { s.pool with queue := s.pool.queue.push request }, phase := .waiting }
  | reject {request : Pending α} {now : Instant} (hp : s.phase = .enqueuing request)
    (hc : s.pool.queue.closed = true) :
    Move handler s (.advance now) [] none
      { s with phase := .leaving, discarded := s.discarded ++ [request.connection] }
  | close {now : Instant} (hp : s.phase = .leaving) :
    Move handler s (.advance now) [] none
      { s with pool := { s.pool with queue := s.pool.queue.close }, phase := .draining }
  | finish {now : Instant} (hp : s.phase = .draining)
    (hdone : s.pool.workers.all Worker.isDone = true) :
    Move handler s (.advance now) [] none { s with phase := .ended s.pool.results }
  | work {now : Instant} {worker : Nat} {pool : WorkerPool α}
    (hw : s.pool.step handler now worker = .ok pool) :
    Move handler s (.work now worker) [] (s.pool.event? handler (.work now worker)) { s with pool }
  | raiseStop : Move handler s .raiseStop [] none { s with stop := true }
  | closeQueue (hs : s.stop = true) :
    Move handler s .closeQueue [] none
      { s with pool := { s.pool with queue := s.pool.queue.close } }

variable {handler : RequestHandler α} {s next : Server α} {action : Action α} {taken : List α}
  {event : Option (PoolEvent α)}

theorem receive_move (handler : RequestHandler α) (s : Server α) (incoming : Incoming α) :
    Move handler s (.receive incoming) (s.obtained (.receive incoming)) none (s.receive incoming) := by
  cases hp : s.phase with
  | waiting =>
    simp only [receive, obtained, hp]
    exact .receive hp
  | received | pausing | enqueuing | leaving | draining | ended =>
    simp only [receive, obtained, hp]
    exact .idle

theorem advance_move {now : Instant} (h : s.advance now = .ok next) :
    Move handler s (.advance now) [] (s.event? handler (.advance now)) next := by
  cases hp : s.phase with
  | waiting | ended results =>
    simp only [advance, event?, hp] at h ⊢
    cases h
    exact .idle
  | received incoming =>
    simp only [advance, event?, hp] at h ⊢
    by_cases hs : s.stop = true
    · rw [if_pos hs] at h
      cases h
      exact .leave hp hs
    · rw [if_neg hs] at h
      cases incoming with
      | failure cause =>
        cases h
        exact .pause hp _ _
      | connection connection =>
        cases h
        exact .proceed hp
  | pausing milliseconds =>
    simp only [advance, event?, hp] at h ⊢
    cases h
    exact .resume hp
  | enqueuing request =>
    simp only [advance, event?, hp] at h ⊢
    cases ho : s.pool.queue.offer request with
    | error e => simp [ho] at h
    | ok admission =>
      simp only [ho] at h
      simp only [WorkerPool.event?, ho]
      rcases RequestQueue.offer_cases ho with ⟨hc, rfl⟩ | ⟨-, -, rfl⟩ | ⟨hc, hfull, rfl⟩
      · cases h
        exact .reject hp hc
      · cases h
        exact .idle
      · cases h
        exact .enqueue hp hc hfull
  | leaving =>
    simp only [advance, event?, hp] at h ⊢
    cases h
    exact .close hp
  | draining =>
    simp only [advance, event?, hp] at h ⊢
    by_cases hdone : s.pool.workers.all Worker.isDone = true
    · rw [if_pos hdone] at h
      cases h
      exact .finish hp hdone
    · rw [if_neg hdone] at h
      cases h
      exact .idle

theorem act_move (h : s.act handler action = .ok next) :
    Move handler s action (s.obtained action) (s.event? handler action) next := by
  cases action with
  | receive incoming =>
    cases h
    exact receive_move handler s incoming
  | advance now => exact advance_move h
  | work now worker =>
    cases hw : s.pool.step handler now worker with
    | error e => simp [act, hw, Except.map] at h
    | ok pool =>
      simp only [act, hw, Except.map] at h
      cases h
      exact .work hw
  | raiseStop =>
    cases h
    exact .raiseStop
  | closeQueue =>
    change Except.ok s.closeQueue = _ at h
    cases h
    rw [closeQueue]
    split
    · exact .closeQueue ‹_›
    · exact .idle

/-- A step of a server is a step of its pool, or leaves the pool as it is. -/
theorem Move.pool (hm : Move handler s action taken event next) :
    WorkerPool.Move handler s.pool event next.pool := by
  cases hm with
  | enqueue _ hc hfull => exact .accept _ hc hfull
  | work hw => exact WorkerPool.step_move hw
  | close | closeQueue => exact .close
  | idle | receive | leave | pause | resume | proceed | reject | finish | raiseStop => exact .idle

theorem act_returns {size : Nat} {past : List (PoolEvent α)} (h : WorkerPool.Kept size past s.pool)
    (handler : RequestHandler α) (action : Action α) : ∃ next, s.act handler action = .ok next := by
  cases action with
  | receive incoming => exact ⟨_, rfl⟩
  | raiseStop => exact ⟨_, rfl⟩
  | closeQueue => exact ⟨_, rfl⟩
  | work now worker =>
    obtain ⟨pool, hpool⟩ := h.act_returns handler (.work now worker)
    have hw : s.pool.step handler now worker = .ok pool := hpool
    exact ⟨{ s with pool }, by rw [act, hw]; rfl⟩
  | advance now =>
    cases hp : s.phase with
    | waiting | pausing | leaving | ended => exact ⟨_, by simp only [act, advance, hp]; rfl⟩
    | received incoming =>
      simp only [act, advance, hp]
      cases s.stop
      · cases incoming <;> exact ⟨_, rfl⟩
      · exact ⟨_, rfl⟩
    | draining =>
      simp only [act, advance, hp]
      cases s.pool.workers.all Worker.isDone <;> exact ⟨_, rfl⟩
    | enqueuing request =>
      obtain ⟨pool, hpool⟩ := h.act_returns handler (.offer request)
      simp only [WorkerPool.act] at hpool
      simp only [act, advance, hp]
      rcases ho : s.pool.queue.offer request with e | admission
      · simp [ho] at hpool
      · cases admission <;> exact ⟨_, rfl⟩

theorem actAll_cons (handler : RequestHandler α) (s : Server α) (action : Action α)
    (actions : List (Action α)) :
    s.actAll handler (action :: actions) =
      (s.act handler action).bind fun next => next.actAll handler actions := rfl

theorem actAll_append (handler : RequestHandler α) (s : Server α)
    (actions more : List (Action α)) :
    s.actAll handler (actions ++ more) =
      (s.actAll handler actions).bind fun next => next.actAll handler more :=
  List.foldlM_append

def history (handler : RequestHandler α) : Server α → List (Action α) → List (PoolEvent α)
  | _, [] => []
  | s, action :: actions =>
    match s.act handler action with
    | .error _ => []
    | .ok next => (s.event? handler action).toList ++ history handler next actions

/-- The connections that the acceptor took, in their order. -/
def obtainedIn (handler : RequestHandler α) : Server α → List (Action α) → List α
  | _, [] => []
  | s, action :: actions =>
    match s.act handler action with
    | .error _ => []
    | .ok next => s.obtained action ++ obtainedIn handler next actions

theorem run_keeps {P : List (Action α) → List α → List (PoolEvent α) → Server α → Prop}
    (hstart : P [] [] [] s)
    (hreturns : ∀ before taken past server action, P before taken past server →
      ∃ next, act handler server action = .ok next)
    (hstep : ∀ before taken past server action now event next, P before taken past server →
      Move handler server action now event next →
      P (before ++ [action]) (taken ++ now) (past ++ event.toList) next)
    (actions : List (Action α)) :
    ∃ last, s.actAll handler actions = .ok last ∧
      P actions (s.obtainedIn handler actions) (s.history handler actions) last := by
  have hrun : ∀ actions before taken past server, P before taken past server →
      ∃ last, actAll handler server actions = .ok last ∧
        P (before ++ actions) (taken ++ obtainedIn handler server actions)
          (past ++ history handler server actions) last := by
    intro actions
    induction actions with
    | nil =>
      intro before taken past server h
      exact ⟨server, rfl, by rwa [obtainedIn, history, List.append_nil, List.append_nil,
        List.append_nil]⟩
    | cons action actions ih =>
      intro before taken past server h
      obtain ⟨next, hnext⟩ := hreturns before taken past server action h
      obtain ⟨last, hlast, hh⟩ :=
        ih _ _ _ next (hstep before taken past server action _ _ next h (act_move hnext))
      refine ⟨last, ?_, ?_⟩
      · rw [actAll_cons, hnext]
        exact hlast
      · simpa only [obtainedIn, history, hnext, List.append_assoc, List.singleton_append] using hh
  simpa only [List.nil_append] using hrun actions [] [] [] s hstart

end Server

end PooledHttp
