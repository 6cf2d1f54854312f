import PooledHttp.Proofs.Checked.Reading
import PooledHttp.Proofs.Server.Accounting

/-! How long the acceptor pauses after failures in a row. Its count of them stops at a largest number,
the doublings are capped, and so is the pause. Together the three limits leave nothing of themselves but
the last: the pause is ten milliseconds, doubled with each failure, up to a second. -/

namespace PooledHttp

namespace Checked

def within (limit n : Nat) : Checked Nat := if n ≤ limit then .ok n else .error .overflow

/-- The pause, with a 32-bit number for the power and a 64-bit number of seconds for the product. -/
def pause (failures : Nat) : Checked Nat := do
  let factor ← within (UInt32.size - 1) (2 ^ min (failures - 1) 7)
  let product ← within (Decimal.max64 * 1000) (10 * factor)
  return min product 1000

theorem pause_eq (failures : Nat) : pause failures = .ok (Backoff.pause failures) := by
  have hpower : 2 ^ min (failures - 1) 7 ≤ 2 ^ 7 :=
    Nat.pow_le_pow_right (by decide) (Nat.min_le_right _ _)
  have hfactor : 2 ^ min (failures - 1) 7 ≤ UInt32.size - 1 := hpower.trans (by decide)
  have hproduct : 10 * 2 ^ min (failures - 1) 7 ≤ Decimal.max64 * 1000 :=
    (Nat.mul_le_mul_left 10 hpower).trans (by decide)
  rw [pause, within, if_pos hfactor, ok_bind, within, if_pos hproduct, ok_bind, Backoff.pause,
    Nat.shiftLeft_eq]
  rfl

end Checked

namespace Backoff

/-- Ten milliseconds before the first doubling, and a second at most. -/
def doubled (doublings : Nat) : Nat := min (10 * 2 ^ doublings) 1000

theorem doubled_mono {m n : Nat} (h : m ≤ n) : doubled m ≤ doubled n := by
  have hpower : 2 ^ m ≤ 2 ^ n := Nat.pow_le_pow_right (by decide) h
  simp only [doubled]
  omega

theorem doubled_of_le {n : Nat} (h : 7 ≤ n) : doubled n = 1000 := by
  have hpower : 2 ^ 7 ≤ 2 ^ n := Nat.pow_le_pow_right (by decide) h
  simp only [doubled]
  omega

/-- Neither the cap on the doublings nor the end of the count shows in the pause. -/
theorem pause_eq_doubled (streak : Nat) : pause (min streak mostFailures) = doubled (streak - 1) := by
  have hmost : mostFailures = 4294967295 := rfl
  rcases Nat.lt_or_ge streak 8 with hshort | hlong
  · have hcount : min (min streak mostFailures - 1) 7 = streak - 1 := by omega
    rw [pause, hcount, Nat.shiftLeft_eq, doubled]
  · have hcount : min (min streak mostFailures - 1) 7 = 7 := by omega
    rw [pause, hcount, doubled_of_le (by omega)]
    rfl

example : (List.range 9).map doubled = [10, 20, 40, 80, 160, 320, 640, 1000, 1000] := by
  decide

end Backoff

variable {α : Type}

namespace Incoming

def failed : Incoming α → Bool
  | connection _ => false
  | failure _ => true

/-- How many failures stand at the end, behind the last connection or the start. -/
def streak (outcomes : List (Incoming α)) : Nat := (outcomes.reverse.takeWhile failed).length

theorem streak_concat (past : List (Incoming α)) (incoming : Incoming α) :
    streak (past ++ [incoming]) = if incoming.failed then streak past + 1 else 0 := by
  rw [streak, List.reverse_append, List.reverse_singleton, List.singleton_append,
    List.takeWhile_cons]
  split <;> rfl

theorem streak_append {past more : List (Incoming α)} (h : ∀ incoming ∈ more, incoming.failed = true) :
    streak (past ++ more) = streak past + more.length := by
  have hmore : ∀ incoming ∈ more.reverse, incoming.failed = true :=
    fun incoming hmem => h incoming (List.mem_reverse.mp hmem)
  rw [streak, List.reverse_append, List.takeWhile_append_of_pos hmore, List.length_append,
    List.length_reverse, Nat.add_comm, streak]

theorem streak_replicate (cause : SystemError) (n : Nat) :
    streak (List.replicate n (failure (α := α) cause)) = n := by
  rw [streak, List.reverse_replicate, List.takeWhile_replicate]
  exact List.length_replicate

/-- The pause that follows these outcomes. -/
def pauseAfter (outcomes : List (Incoming α)) : Option Nat :=
  if streak outcomes = 0 then none else some (Backoff.doubled (streak outcomes - 1))

theorem pauseAfter_failure (past : List (Incoming α)) (cause : SystemError) :
    pauseAfter (past ++ [failure cause]) = some (Backoff.doubled (streak past)) := by
  rw [pauseAfter, streak_concat, failed, if_pos rfl, if_neg (Nat.succ_ne_zero _),
    Nat.add_sub_cancel]

theorem pauseAfter_connection (past : List (Incoming α)) (c : α) :
    pauseAfter (past ++ [connection c]) = none := by
  rw [pauseAfter, streak_concat]
  rfl

end Incoming

def AcceptorPhase.pause? : AcceptorPhase α → Option Nat
  | pausing milliseconds => some milliseconds
  | _ => none

namespace Server

open Incoming

variable {handler : RequestHandler α} {s next : Server α} {action : Action α}
  {past : List (Incoming α)}

/-- What the acceptor looks at in a step. It no longer looks once the stop flag is up. -/
def looked (s : Server α) : Action α → Option (Incoming α)
  | .advance _ =>
    match s.phase with
    | .received incoming => if s.stop then none else some incoming
    | _ => none
  | _ => none

/-- What the acceptor looks at in a run, each with the pause that it then takes. -/
def reactions (handler : RequestHandler α) : Server α → List (Action α) →
    List (Incoming α × Option Nat)
  | _, [] => []
  | s, action :: actions =>
    match s.act handler action with
    | .error _ => []
    | .ok next =>
      ((s.looked action).map fun incoming => (incoming, next.phase.pause?)).toList ++
        reactions handler next actions

/-- Only a look changes the count of failures. -/
inductive Look (s next : Server α) : Option (Incoming α) → Prop
  | idle (hf : next.failures = s.failures) : Look s next none
  | failure (cause : SystemError) (hf : next.failures = Backoff.afterFailure s.failures)
    (hp : next.phase.pause? = some (Backoff.pause next.failures)) : Look s next (some (.failure cause))
  | connection (c : α) (hf : next.failures = 0) (hp : next.phase.pause? = none) :
    Look s next (some (.connection c))

theorem advance_look {now : Instant} (h : s.advance now = .ok next) :
    Look s next (s.looked (.advance now)) := by
  cases hp : s.phase with
  | waiting | pausing | leaving | ended =>
    simp only [advance, looked, hp] at h ⊢
    cases h
    exact .idle rfl
  | received incoming =>
    simp only [advance, looked, hp] at h ⊢
    by_cases hs : s.stop = true
    · rw [if_pos hs] at h ⊢
      cases h
      exact .idle rfl
    · rw [if_neg hs] at h ⊢
      cases incoming with
      | failure cause =>
        cases h
        exact .failure cause rfl rfl
      | connection c =>
        cases h
        exact .connection c rfl rfl
  | enqueuing request =>
    simp only [advance, looked, hp] at h ⊢
    cases ho : s.pool.queue.offer request with
    | error fault => simp [ho] at h
    | ok admission =>
      rw [ho] at h
      cases admission <;> cases h <;> exact .idle rfl
  | draining =>
    simp only [advance, looked, hp] at h ⊢
    split at h <;> cases h <;> exact .idle rfl

theorem act_look (h : s.act handler action = .ok next) : Look s next (s.looked action) := by
  cases action with
  | advance now => exact advance_look h
  | receive incoming =>
    cases h
    refine .idle ?_
    rw [receive]
    split <;> rfl
  | work now worker =>
    cases hw : s.pool.step handler now worker with
    | error fault => simp [act, hw, Except.map] at h
    | ok pool =>
      simp only [act, hw, Except.map] at h
      cases h
      exact .idle rfl
  | raiseStop =>
    cases h
    exact .idle rfl
  | closeQueue =>
    change Except.ok s.closeQueue = _ at h
    cases h
    refine .idle ?_
    rw [closeQueue]
    split <;> rfl

/-- The count is that of the failures since the last connection, as far as it goes. -/
def CountsStreak (past : List (Incoming α)) (s : Server α) : Prop :=
  s.failures = min (streak past) Backoff.mostFailures

theorem CountsStreak.step (h : CountsStreak past s) (hact : s.act handler action = .ok next) :
    CountsStreak (past ++ (s.looked action).toList) next ∧
      ∀ incoming ∈ s.looked action, next.phase.pause? = pauseAfter (past ++ [incoming]) := by
  have hlook := act_look hact
  revert hlook
  cases s.looked action with
  | none =>
    rintro ⟨hf⟩
    refine ⟨?_, nofun⟩
    rw [Option.toList_none, List.append_nil, CountsStreak, hf, h]
  | some incoming =>
    intro hlook
    rw [Option.toList_some, CountsStreak, streak_concat]
    cases hlook with
    | failure cause hf hp =>
      have hcount : next.failures = min (streak past + 1) Backoff.mostFailures := by
        rw [hf, h, Backoff.afterFailure]
        omega
      refine ⟨hcount, ?_⟩
      rintro incoming ⟨⟩
      rw [hp, hcount, Backoff.pause_eq_doubled, pauseAfter_failure, Nat.add_sub_cancel]
    | connection c hf hp =>
      refine ⟨hf.trans (Nat.zero_min _).symm, ?_⟩
      rintro incoming ⟨⟩
      rw [hp, pauseAfter_connection]

/-- In a run the acceptor pauses after each outcome as those before it and this one tell. -/
theorem CountsStreak.reactions_pause (h : CountsStreak past s) {actions : List (Action α)}
    {before after : List (Incoming α × Option Nat)} {incoming : Incoming α} {pause : Option Nat}
    (hsplit : s.reactions handler actions = before ++ (incoming, pause) :: after) :
    pause = pauseAfter (past ++ before.map Prod.fst ++ [incoming]) := by
  induction actions generalizing past s before with
  | nil => simp [reactions] at hsplit
  | cons action actions ih =>
    cases hact : s.act handler action with
    | error fault => simp [reactions, hact] at hsplit
    | ok next =>
      obtain ⟨hnext, hpause⟩ := h.step hact
      simp only [reactions, hact] at hsplit
      cases hlooked : s.looked action with
      | none =>
        rw [hlooked] at hsplit hnext
        rw [Option.toList_none, List.append_nil] at hnext
        exact ih hnext hsplit
      | some outcome =>
        rw [hlooked] at hsplit hnext
        cases before with
        | nil =>
          cases hsplit
          rw [hpause _ hlooked, List.map_nil, List.append_nil]
        | cons first before =>
          obtain ⟨rfl, hrest⟩ := List.cons.inj hsplit
          have hpast := ih hnext hrest
          simpa only [Option.toList_some, List.map_cons, List.append_assoc, List.singleton_append,
            List.cons_append, List.nil_append] using hpast

/-- The pauses of a run: each failure is followed by one, and no connection is. -/
structure Paced (reactions : List (Incoming α × Option Nat)) : Prop where
  rests : ∀ r ∈ reactions, r.1.failed = false → r.2 = none
  doubles : ∀ before cause pause after, reactions = before ++ (.failure cause, pause) :: after →
    let k := streak (before.map Prod.fst ++ [.failure cause])
    1 ≤ k ∧ pause = some (min (10 * 2 ^ (k - 1)) 1000)
  positive : ∀ r ∈ reactions, ∀ milliseconds ∈ r.2, 0 < milliseconds
  grows : ∀ before earlier m between later n after,
    reactions = before ++ (earlier, some m) :: (between ++ (later, some n) :: after) →
    (∀ r ∈ between, r.1.failed = true) → m ≤ n
  restarts : ∀ before cause pause after, reactions = before ++ (.failure cause, pause) :: after →
    (∀ r ∈ before.getLast?, r.1.failed = false) → pause = some 10

theorem streak_eq_zero {past : List (Incoming α)}
    (h : ∀ incoming ∈ past.getLast?, incoming.failed = false) : streak past = 0 := by
  cases past using List.reverseRecOn with
  | nil => rfl
  | append_singleton past incoming =>
    rw [List.getLast?_concat] at h
    rw [streak_concat, h incoming rfl]
    rfl

theorem pauseAfter_eq_some {past : List (Incoming α)} {incoming : Incoming α} {milliseconds : Nat}
    (h : pauseAfter (past ++ [incoming]) = some milliseconds) :
    incoming.failed = true ∧ milliseconds = Backoff.doubled (streak past) := by
  cases incoming with
  | connection c =>
    rw [pauseAfter_connection] at h
    cases h
  | failure cause =>
    rw [pauseAfter_failure] at h
    exact ⟨rfl, (Option.some.inj h).symm⟩

theorem paced {reactions : List (Incoming α × Option Nat)}
    (h : ∀ before incoming pause after, reactions = before ++ (incoming, pause) :: after →
      pause = pauseAfter (before.map Prod.fst ++ [incoming])) : Paced reactions where
  rests := by
    rintro ⟨incoming, pause⟩ hmem hfailed
    obtain ⟨before, after, hsplit⟩ := List.append_of_mem hmem
    cases incoming with
    | failure cause => cases hfailed
    | connection c => rw [h before _ pause after hsplit, pauseAfter_connection]
  doubles := by
    intro before cause pause after hsplit k
    have hk : k = streak (before.map Prod.fst) + 1 := streak_concat _ _
    rw [h before _ pause after hsplit, pauseAfter_failure, hk, Nat.add_sub_cancel]
    exact ⟨Nat.le_add_left 1 _, rfl⟩
  positive := by
    rintro ⟨incoming, pause⟩ hmem milliseconds hpause
    obtain ⟨before, after, hsplit⟩ := List.append_of_mem hmem
    have hafter := (h before incoming pause after hsplit).symm.trans hpause
    have hleast : Backoff.doubled 0 ≤ milliseconds :=
      (pauseAfter_eq_some hafter).2 ▸ Backoff.doubled_mono (Nat.zero_le _)
    exact Nat.lt_of_lt_of_le (by decide) hleast
  grows := by
    intro before earlier m between later n after hsplit hbetween
    have hagain : reactions = (before ++ (earlier, some m) :: between) ++ (later, some n) :: after := by
      rw [hsplit, List.append_assoc, List.cons_append]
    obtain ⟨hfailed, rfl⟩ := pauseAfter_eq_some (h _ _ _ _ hsplit).symm
    obtain ⟨-, rfl⟩ := pauseAfter_eq_some (h _ _ _ _ hagain).symm
    have hmore : ∀ incoming ∈ earlier :: between.map Prod.fst, incoming.failed = true := by
      refine List.forall_mem_cons.mpr ⟨hfailed, fun incoming hmem => ?_⟩
      obtain ⟨r, hr, rfl⟩ := List.mem_map.mp hmem
      exact hbetween r hr
    rw [List.map_append, List.map_cons, streak_append hmore]
    exact Backoff.doubled_mono (Nat.le_add_right _ _)
  restarts := by
    intro before cause pause after hsplit hlast
    have hzero : streak (before.map Prod.fst) = 0 := by
      refine streak_eq_zero fun incoming hmem => ?_
      rw [List.getLast?_map] at hmem
      obtain ⟨r, hr, rfl⟩ := Option.map_eq_some_iff.mp hmem
      exact hlast r hr
    rw [h before _ pause after hsplit, pauseAfter_failure, hzero]
    rfl

theorem CountsStreak.failures_le (h : CountsStreak past s) : s.failures ≤ Backoff.mostFailures := by
  rw [h]
  exact Nat.min_le_right _ _

theorem CountsStreak.actAll {actions : List (Action α)} {last : Server α} (h : CountsStreak past s)
    (hrun : s.actAll handler actions = .ok last) : last.failures ≤ Backoff.mostFailures := by
  induction actions generalizing past s with
  | nil =>
    cases hrun
    exact h.failures_le
  | cons action actions ih =>
    rw [actAll_cons] at hrun
    cases hact : s.act handler action with
    | error fault =>
      rw [hact] at hrun
      cases hrun
    | ok next =>
      rw [hact] at hrun
      exact ih (h.step hact).1 hrun

/-- Whatever comes in and however the threads interleave, the pause after the `k`-th failure in a row is
ten milliseconds times two to the `k - 1`, and a second where that is more. So it is never none, never
shorter than those before it in the row, and ten milliseconds again after a connection. The count stays
a 32-bit number, and neither the power nor the product passes its limit. -/
theorem run_paced (handler : RequestHandler α) {capacity : Nat} (hc : 0 < capacity) (size : Nat)
    (policy : AdmissionPolicy) (log : LogBuffer) :
    (∀ failures, Checked.pause failures = .ok (Backoff.pause failures)) ∧
    ∃ q : RequestQueue α, RequestQueue.create capacity policy = .ok q ∧
      ∀ actions,
        let first := Server.start (.start size q log)
        ∃ s, first.actAll handler actions = .ok s ∧ s.failures ≤ UInt32.size - 1 ∧
          Paced (first.reactions handler actions) := by
  refine ⟨Checked.pause_eq, ?_⟩
  obtain ⟨q, hq, hholds, -, -, hin, hopen⟩ := RequestQueue.create_holds (α := α) hc policy
  refine ⟨q, hq, ?_⟩
  intro actions first
  have hcounts : CountsStreak [] first := rfl
  obtain ⟨s, hs, -⟩ := (accounted_start hholds hin hopen size log).actAll_returns handler actions
  refine ⟨s, hs, hcounts.actAll hs, paced fun before incoming pause after hsplit => ?_⟩
  rw [hcounts.reactions_pause hsplit, List.nil_append]

/-- An acceptor that meets this failure so many times. -/
def failing (cause : SystemError) (n : Nat) : List (Action α) :=
  (List.replicate n [.receive (.failure cause), .advance .epoch, .advance .epoch]).flatten

theorem reactions_failing (handler : RequestHandler α) (cause : SystemError) (n : Nat)
    (hp : s.phase = .waiting) (hs : s.stop = false) :
    (s.reactions handler (failing cause n)).map Prod.fst = List.replicate n (.failure cause) := by
  induction n generalizing s with
  | zero => rfl
  | succ n ih =>
    let failures := Backoff.afterFailure s.failures
    have hrest := ih (s := { s with failures, phase := .waiting }) rfl hs
    rw [failing, List.replicate_succ, List.flatten_cons, List.replicate_succ, ← hrest]
    simp [reactions, act, receive, advance, looked, hp, hs, failing, failures]

theorem Paced.at_end {reactions : List (Incoming α × Option Nat)} (h : Paced reactions)
    {cause : SystemError} {n : Nat} (hn : 7 ≤ n)
    (hfailures : reactions.map Prod.fst = List.replicate (n + 1) (.failure cause)) :
    ∃ before, reactions = before ++ [(.failure cause, some 1000)] ∧ before.length = n := by
  rw [List.replicate_succ'] at hfailures
  obtain ⟨before, rest, rfl, hbefore, hrest⟩ := List.map_eq_append_iff.mp hfailures
  obtain ⟨⟨incoming, pause⟩, rfl, hincoming⟩ := List.map_eq_singleton_iff.mp hrest
  obtain rfl : incoming = .failure cause := hincoming
  refine ⟨before, ?_, by rw [← List.length_map Prod.fst, hbefore, List.length_replicate]⟩
  have hstreak : streak (before.map Prod.fst ++ [.failure cause]) = n + 1 := by
    rw [hbefore, ← List.replicate_succ', streak_replicate]
  obtain ⟨-, hpause⟩ := h.doubles before cause pause [] rfl
  rw [hpause, hstreak]
  exact congrArg (fun milliseconds => before ++ [(_, some milliseconds)])
    (Backoff.doubled_of_le (n := n) hn)

/-- One failure more than the count has room for. -/
theorem run_paced_beyond_count :
    let handler : RequestHandler Connection := Site.handler ⟨⟨.empty, []⟩, "/"⟩ fun _ => none
    0 < 1 ∧ ∃ q : RequestQueue Connection, RequestQueue.create 1 .queue = .ok q ∧
      let first := Server.start (.start 1 q ⟨[], 1⟩)
      ∃ before, first.reactions handler (failing .timedOut UInt32.size) =
          before ++ [(.failure .timedOut, some 1000)] ∧ before.length = UInt32.size - 1 := by
  intro handler
  obtain ⟨-, q, hq, h⟩ := run_paced handler (show 0 < 1 by decide) 1 .queue ⟨[], 1⟩
  refine ⟨by decide, q, hq, ?_⟩
  intro first
  obtain ⟨s, -, -, hpaced⟩ := h (failing .timedOut UInt32.size)
  have hstop : first.stop = false := rfl
  have hreactions := reactions_failing handler .timedOut UInt32.size (s := first) rfl hstop
  have hsize : UInt32.size = UInt32.size - 1 + 1 := (Nat.sub_add_cancel (by decide)).symm
  exact hpaced.at_end (by decide) (hsize ▸ hreactions)

end Server

end PooledHttp
