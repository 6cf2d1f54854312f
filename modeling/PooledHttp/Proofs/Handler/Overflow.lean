import PooledHttp.Proofs.Handler.Account

/-! Full counters. A worker that catches the failure of a full counter and goes on has lost nothing by
it: a call that fails leaves every field as it was, and the counters tell of the calls that did not
fail. -/

namespace PooledHttp

namespace Tally

/-- A call whose failure is caught. The worker goes on with what the failure left. -/
def attempt (t : Tally) (kind : Option Served) : Tally :=
  match t.count kind with
  | .ok next => next
  | .error failure => failure.left

def attempts (t : Tally) (kinds : List (Option Served)) : Tally := kinds.foldl attempt t

/-- The calls that did not fail. -/
def completed : Tally → List (Option Served) → List (Option Served)
  | _, [] => []
  | t, kind :: kinds =>
    match t.count kind with
    | .ok next => kind :: completed next kinds
    | .error failure => completed failure.left kinds

/-- What succeeded is in the total, and the total is a 64-bit number. -/
structure Whole (t : Tally) : Prop where
  successes_le : t.successes ≤ t.total
  total_le : t.total ≤ Decimal.max64

theorem whole_start (worker : Nat) : (start worker).Whole := ⟨Nat.le_refl 0, Nat.zero_le _⟩

variable {t : Tally}

/-- The total is counted first, so where it is full nothing has changed yet. -/
theorem count_full (h : t.total = Decimal.max64) (kind : Option Served) :
    t.count kind = .error ⟨t⟩ := by
  have herror : t.recordError = .error ⟨t⟩ := by
    rw [recordError, if_neg (by omega)]
  cases kind with
  | none => exact herror
  | some kind => simp only [count, record, herror]

theorem Whole.counter_lt (h : t.Whole) (hroom : t.total < Decimal.max64) (kind : Served) :
    t.counter kind < Decimal.max64 :=
  Nat.lt_of_le_of_lt ((t.counter_le_successes kind).trans h.successes_le) hroom

/-- A call fails before it has changed anything, or it counts. -/
theorem Whole.count_cases (h : t.Whole) (kind : Option Served) :
    (t.total = Decimal.max64 ∧ t.count kind = .error ⟨t⟩) ∨
      t.total < Decimal.max64 ∧ ∃ next, t.count kind = .ok next ∧ next.Whole ∧
        next.worker = t.worker ∧ ∀ which, next.shows which = t.shows which + adds kind which := by
  rcases Nat.eq_or_lt_of_le h.total_le with hfull | hroom
  · exact .inl ⟨hfull, count_full hfull kind⟩
  · obtain ⟨next, hcount, hworker, hshows⟩ :=
      count_of_room (room_of_successes_le h.successes_le hroom kind)
    have htotal : next.total = t.total + 1 := hshows none
    have hsuccesses := count_successes hcount
    have hle := h.successes_le
    refine .inr ⟨hroom, next, hcount, ⟨?_, by omega⟩, hworker, hshows⟩
    rw [hsuccesses, htotal]
    split <;> omega

/-- What a worker comes to by these calls. -/
structure AddsUp (t last : Tally) (done : List (Option Served)) : Prop where
  whole : last.Whole
  worker : last.worker = t.worker
  total : last.total = t.total + done.length
  counter : ∀ kind, last.counter kind = t.counter kind + done.count (some kind)

theorem AddsUp.cons {next last : Tally} {kind : Option Served} {done : List (Option Served)}
    (h : AddsUp next last done) (hworker : next.worker = t.worker)
    (hshows : ∀ which, next.shows which = t.shows which + adds kind which) :
    AddsUp t last (kind :: done) := by
  refine ⟨h.whole, h.worker.trans hworker, ?_, fun counted => ?_⟩
  · have htotal : next.total = t.total + 1 := hshows none
    rw [h.total, htotal, List.length_cons]
    omega
  · have hcounter : next.counter counted = t.counter counted + if kind = some counted then 1 else 0 :=
      hshows (some counted)
    rw [h.counter, hcounter, List.count_cons]
    simp only [beq_iff_eq]
    omega

/-- As many calls are completed as the total has room for, and these alone are counted. -/
theorem Whole.attempts (h : t.Whole) (kinds : List (Option Served)) :
    t.completed kinds = kinds.take (Decimal.max64 - t.total) ∧
      AddsUp t (t.attempts kinds) (t.completed kinds) := by
  induction kinds generalizing t with
  | nil => exact ⟨List.take_nil.symm, h, rfl, rfl, fun _ => rfl⟩
  | cons kind kinds ih =>
    rcases h.count_cases kind with ⟨hfull, hcount⟩ | ⟨hroom, next, hcount, hnext, hworker, hshows⟩
    · obtain ⟨htake, hcounted⟩ := ih h
      have hnone : Decimal.max64 - t.total = 0 := by omega
      rw [hnone, List.take_zero] at htake ⊢
      simp only [completed, Tally.attempts, List.foldl_cons, attempt, hcount]
      exact ⟨htake, hcounted⟩
    · obtain ⟨htake, hcounted⟩ := ih hnext
      have htotal : next.total = t.total + 1 := hshows none
      have hone : Decimal.max64 - t.total = Decimal.max64 - next.total + 1 := by omega
      simp only [completed, Tally.attempts, List.foldl_cons, attempt, hcount]
      rw [hone, List.take_succ_cons, ← htake]
      exact ⟨rfl, hcounted.cons hworker hshows⟩

theorem length_eq_counts (done : List (Option Served)) :
    done.length = done.count (some .static) + done.count (some .dynamic) +
      done.count (some .post) + done.count none := by
  induction done with
  | nil => rfl
  | cons kind done ih =>
    rcases kind with _ | (_ | _ | _) <;> simp [ih] <;> omega

/-- Whatever a worker is told to count, also after failures that were caught, it keeps its number, and
its total is made up of the three counters and of the errors that were counted. The first calls are
completed, as many as there are 64-bit numbers above zero. A call fails just where the total is full,
and then it leaves every field as it is: where the total has room, so has each counter. -/
theorem attempts_whole (worker : Nat) (kinds : List (Option Served)) :
    let t := (start worker).attempts kinds
    let done := (start worker).completed kinds
    t.worker = worker ∧
    t.total = t.static + t.dynamic + t.post + done.count none ∧
    (∀ kind, t.counter kind = done.count (some kind)) ∧
    done = kinds.take Decimal.max64 ∧
    (∀ kind failure, t.count kind = .error failure ↔
      t.total = Decimal.max64 ∧ failure.left = t) ∧
    (t.total = Decimal.max64 ∨ ∀ kind, t.counter kind < Decimal.max64) := by
  intro t done
  obtain ⟨htake, hcounted⟩ := (whole_start worker).attempts kinds
  have hcounter : ∀ kind, t.counter kind = done.count (some kind) := by
    intro kind
    have hzero : (start worker).counter kind = 0 := shows_start worker (some kind)
    rw [hcounted.counter, hzero, Nat.zero_add]
  have htotal : t.total = done.length := hcounted.total.trans (Nat.zero_add _)
  refine ⟨hcounted.worker, ?_, hcounter, htake, ?_, ?_⟩
  · have hstatic : t.static = done.count (some .static) := hcounter .static
    have hdynamic : t.dynamic = done.count (some .dynamic) := hcounter .dynamic
    have hpost : t.post = done.count (some .post) := hcounter .post
    rw [htotal, hstatic, hdynamic, hpost]
    exact length_eq_counts done
  · intro kind failure
    rcases hcounted.whole.count_cases kind with ⟨hfull, hcount⟩ | ⟨hroom, next, hcount, -⟩
    · rw [hcount]
      refine ⟨?_, ?_⟩
      · rintro ⟨⟩
        exact ⟨hfull, rfl⟩
      · rintro ⟨-, hleft⟩
        exact congrArg (Except.error ∘ TallyOverflow.mk) hleft.symm
    · rw [hcount]
      exact ⟨nofun, fun h => absurd h.1 (Nat.ne_of_lt hroom)⟩
  · rcases Nat.eq_or_lt_of_le hcounted.whole.total_le with hfull | hroom
    · exact .inl hfull
    · exact .inr (hcounted.whole.counter_lt hroom)

end Tally

end PooledHttp
