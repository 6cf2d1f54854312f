import Mathlib.Order.Bounds.Basic
import PooledHttp.Log.Shared
import PooledHttp.Proofs.Checked.Respond

/-! How a log grows. Its capacity is always the least doubling of the first one that holds the bytes
and one more, so it depends on their number alone. An append that is refused the room has asked for the
least doubling that would do, and leaves everything as it was. -/

namespace PooledHttp

/-- No allocator has more than half of what can be counted. -/
def Allocator.Bounded (allocate : Allocator) : Prop :=
  ∀ size, Allocator.largest < size → allocate size ≠ none

namespace LogBuffer

/-- Doubling again and again while the size falls short. Nothing but its end ends it. -/
inductive Doubles (required : Nat) : Nat → Nat → Prop
  | enough {size : Nat} (h : required ≤ size) : Doubles required size size
  | again {size last : Nat} (h : size < required) (next : Doubles required (double size) last) :
    Doubles required size last

/-- The least of a size, its double and so on that is large enough. -/
def LeastDoubling (start required size : Nat) : Prop :=
  IsLeast {s | required ≤ s ∧ ∃ k, s = start * 2 ^ k} size

/-- The same, where nothing is larger than the largest number. -/
def LeastCapped (start required size : Nat) : Prop :=
  IsLeast {s | required ≤ s ∧ ∃ k, s = min (start * 2 ^ k) Decimal.max64} size

variable {start required size : Nat}

theorem double_of_lt (h : double size < required) (hmax : required ≤ Decimal.max64) :
    double size = 2 * size := by
  rw [double] at h ⊢
  omega

/-- Up to the largest number, doubling comes to an end from every size above zero. -/
theorem doubles_grown (hsize : 1 ≤ size) (hmax : required ≤ Decimal.max64) :
    Doubles required (double size) (grown required size) := by
  fun_induction grown required size with
  | case1 size hstop =>
    refine .enough ?_
    rcases hstop with hzero | hlarge | hstop
    · omega
    · rw [double]
      omega
    · exact hstop
  | case2 size hgo ih =>
    rw [not_or, not_or, Nat.not_le, Nat.not_le] at hgo
    have hdouble := double_of_lt hgo.2.2 hmax
    exact .again hgo.2.2 (ih (by omega))

theorem leastCapped_grown (hsize : 1 ≤ size) (hlt : size < required)
    (hmax : required ≤ Decimal.max64) : LeastCapped size required (grown required size) := by
  fun_induction grown required size with
  | case1 size hstop =>
    have hfits : required ≤ double size := by omega
    refine ⟨⟨hfits, 1, by rw [double, Nat.pow_one, Nat.mul_comm]⟩, ?_⟩
    rintro s ⟨hs, k, rfl⟩
    cases k with
    | zero => omega
    | succ k =>
      have hpow : size * 2 ≤ size * 2 ^ (k + 1) :=
        Nat.mul_le_mul_left size (Nat.le_self_pow (Nat.succ_ne_zero k) 2)
      rw [double]
      omega
  | case2 size hgo ih =>
    rw [not_or, not_or, Nat.not_le, Nat.not_le] at hgo
    have hdouble := double_of_lt hgo.2.2 hmax
    obtain ⟨⟨hfits, k, hk⟩, hleast⟩ := ih (by omega) hgo.2.2
    have hpow : ∀ k, size * 2 ^ (k + 1) = double size * 2 ^ k := by
      intro k
      rw [hdouble, Nat.pow_succ, Nat.mul_comm 2 size, Nat.mul_assoc, Nat.mul_comm 2]
    refine ⟨⟨hfits, k + 1, by rw [hpow, hk]⟩, ?_⟩
    rintro s ⟨hs, k, rfl⟩
    cases k with
    | zero => omega
    | succ k => exact hleast ⟨hs, k, by rw [hpow]⟩

/-- What is doubled may itself be a doubling that falls short. -/
theorem LeastCapped.of_doubling {k last : Nat} (h : LeastCapped (start * 2 ^ k) required last)
    (hlt : start * 2 ^ k < required) : LeastCapped start required last := by
  obtain ⟨⟨hfits, j, hj⟩, hleast⟩ := h
  refine ⟨⟨hfits, k + j, by rw [Nat.pow_add, ← Nat.mul_assoc, hj]⟩, ?_⟩
  rintro s ⟨hs, i, rfl⟩
  have hle : k ≤ i := by
    by_contra hi
    have hpow : start * 2 ^ i ≤ start * 2 ^ k :=
      Nat.mul_le_mul_left start (Nat.pow_le_pow_right (by decide) (by omega))
    omega
  refine hleast ⟨hs, i - k, ?_⟩
  rw [Nat.mul_assoc, ← Nat.pow_add, Nat.add_sub_cancel' hle]

/-- Below the largest number nothing is cut off. -/
theorem LeastCapped.leastDoubling (h : LeastCapped start required size)
    (hlt : size < Decimal.max64) : LeastDoubling start required size := by
  obtain ⟨⟨hfits, k, hk⟩, hleast⟩ := h
  refine ⟨⟨hfits, k, by omega⟩, ?_⟩
  rintro s ⟨hs, j, rfl⟩
  have hcapped := hleast ⟨by omega, j, rfl⟩
  omega

/-- While it is large enough for more, it stays the least. -/
theorem LeastDoubling.mono {more : Nat} (h : LeastDoubling start required size)
    (hle : required ≤ more) (hfits : more ≤ size) : LeastDoubling start more size :=
  ⟨⟨hfits, h.1.2⟩, fun _ hs => h.2 ⟨hle.trans hs.1, hs.2⟩⟩

theorem LeastDoubling.unique {other : Nat} (h : LeastDoubling start required size)
    (hother : LeastDoubling start required other) : size = other := IsLeast.unique h hother

end LogBuffer

namespace SharedLog

open LogBuffer

/-- One append after the other, each with the allocator as it is then; `none` where one has to
wait. -/
def appendAll (log : SharedLog) : List (Allocator × Bytes) →
    Option (List (Except AllocationError Unit) × SharedLog)
  | [] => some ([], log)
  | (allocate, data) :: calls =>
    (log.append allocate data).bind fun (result, next) =>
      (next.appendAll calls).map fun (results, last) => (result :: results, last)

/-- How many bytes an append needs in all, with the spare one. -/
def required (log : SharedLog) (data : Bytes) : Nat := log.buffer.bytes.length + data.length + 1

/-- A log that nobody uses, and its capacity. -/
structure Kept (start : Nat) (log : SharedLog) : Prop where
  free : log.lock = .free
  least : LeastDoubling start (log.buffer.bytes.length + 1) log.buffer.capacity
  bounded : log.buffer.capacity ≤ Allocator.largest

/-- What an append comes to. -/
inductive Outcome (start : Nat) (log : SharedLog) (allocate : Allocator) (data : Bytes) :
    Except AllocationError Unit → SharedLog → Prop
  | nothing (hdata : data = []) : Outcome start log allocate data (.ok ()) log
  | fits (hdata : data ≠ []) (hroom : log.required data ≤ log.buffer.capacity) :
    Outcome start log allocate data (.ok ())
      { log with buffer := ⟨log.buffer.bytes ++ data, log.buffer.capacity⟩ }
  | grows {size : Nat} (hdata : data ≠ []) (hroom : log.buffer.capacity < log.required data)
    (least : LeastDoubling start (log.required data) size) (hsize : size ≤ Allocator.largest)
    (granted : allocate size = none) :
    Outcome start log allocate data (.ok ())
      { log with buffer := ⟨log.buffer.bytes ++ data, size⟩ }
  | refused {size : Nat} {cause : Refusal} (hdata : data ≠ [])
    (hroom : log.buffer.capacity < log.required data)
    (least : LeastCapped start (log.required data) size) (refused : allocate size = some cause) :
    Outcome start log allocate data (.error ⟨size, cause⟩) log

variable {start : Nat} {log : SharedLog} {allocate : Allocator} {data : Bytes}

theorem append_free (h : log.lock = .free) (hdata : data ≠ []) :
    log.append allocate data = some (match log.buffer.append allocate data with
      | .ok buffer => (.ok (), { log with buffer })
      | .error e => (.error e, log)) := by
  obtain ⟨lock, buffer⟩ := log
  obtain rfl : lock = .free := h
  rw [append, if_neg (by simpa using hdata)]
  cases hbuffer : buffer.append allocate data <;>
    simp [LockCounters.free, LockCounters.announceWrite, LockCounters.enterWrite?,
      LockCounters.leaveWrite]

theorem Kept.length_le (h : Kept start log) : log.buffer.bytes.length + 1 ≤ Allocator.largest :=
  h.least.1.1.trans h.bounded

theorem Kept.required_le (h : Kept start log) (hdata : data.length ≤ Allocator.largest) :
    log.required data ≤ Decimal.max64 := by
  have hroom : Allocator.largest + Allocator.largest + 1 ≤ Decimal.max64 := by decide
  have hlength := h.length_le
  rw [required]
  omega

/-- There is room, or the least doubling that would do is asked for. -/
theorem Kept.makeRoom_cases (h : Kept start log) (hdata : data.length ≤ Allocator.largest)
    (allocate : Allocator) :
    log.required data ≤ log.buffer.capacity ∧ log.buffer.makeRoom allocate data = .ok log.buffer ∨
    log.buffer.capacity < log.required data ∧ ∃ size, LeastCapped start (log.required data) size ∧
      log.buffer.makeRoom allocate data =
        match allocate size with
        | some cause => .error ⟨size, cause⟩
        | none => .ok { log.buffer with capacity := size } := by
  by_cases hroom : log.required data ≤ log.buffer.capacity
  · exact .inl ⟨hroom, if_pos hroom⟩
  · have hlt : log.buffer.capacity < log.required data := Nat.lt_of_not_le hroom
    have hpos : 1 ≤ log.buffer.capacity := (Nat.le_add_left _ _).trans h.least.1.1
    have hgrown := leastCapped_grown hpos hlt (h.required_le hdata)
    obtain ⟨k, hk⟩ := h.least.1.2
    have hleast : LeastCapped start (log.required data)
        (grown (log.required data) log.buffer.capacity) :=
      .of_doubling (k := k) (by rwa [← hk]) (by rwa [← hk])
    refine .inr ⟨hlt, _, hleast, ?_⟩
    rw [makeRoom]
    refine (if_neg hroom).trans ?_
    rw [required, reserve]
    cases allocate (grown (log.buffer.bytes.length + data.length + 1) log.buffer.capacity) <;> rfl

theorem Kept.append_outcome (h : Kept start log) (hallocate : allocate.Bounded)
    (hdata : data.length ≤ Allocator.largest) :
    ∃ result next, log.append allocate data = some (result, next) ∧
      Outcome start log allocate data result next := by
  by_cases hempty : data = []
  · exact ⟨.ok (), log, by rw [append, hempty]; rfl, .nothing hempty⟩
  · rw [append_free h.free hempty, LogBuffer.append, if_neg (by simpa using hempty)]
    rcases h.makeRoom_cases hdata allocate with ⟨hroom, hmake⟩ | ⟨hlt, size, hleast, hmake⟩
    · rw [hmake]
      exact ⟨_, _, rfl, .fits hempty hroom⟩
    · rw [hmake]
      cases hanswer : allocate size with
      | none =>
        have hle : size ≤ Allocator.largest :=
          Nat.le_of_not_lt fun hlarge => hallocate size hlarge hanswer
        have hsmall : Allocator.largest < Decimal.max64 := by decide
        exact ⟨_, _, rfl, .grows hempty hlt (hleast.leastDoubling (by omega)) hle hanswer⟩
      | some cause => exact ⟨_, _, rfl, .refused hempty hlt hleast hanswer⟩

/-- Once there is room, neither the bytes so far nor those to come need more. -/
theorem Kept.makeRoom_fits (h : Kept start log) (hdata : data.length ≤ Allocator.largest)
    {room : LogBuffer} (hroom : log.buffer.makeRoom allocate data = .ok room) :
    room.bytes = log.buffer.bytes ∧ log.required data ≤ room.capacity := by
  rcases h.makeRoom_cases hdata allocate with ⟨hfits, hmake⟩ | ⟨-, size, hleast, hmake⟩
  · rw [hmake] at hroom
    cases hroom
    exact ⟨rfl, hfits⟩
  · rw [hmake] at hroom
    cases hanswer : allocate size with
    | some cause =>
      rw [hanswer] at hroom
      cases hroom
    | none =>
      rw [hanswer] at hroom
      cases hroom
      exact ⟨rfl, hleast.1.1⟩

theorem Outcome.kept {result : Except AllocationError Unit} {next : SharedLog}
    (ho : Outcome start log allocate data result next) (h : Kept start log) : Kept start next := by
  cases ho with
  | nothing hdata => exact h
  | fits hdata hroom =>
    refine ⟨h.free, ?_, h.bounded⟩
    rw [List.length_append]
    exact h.least.mono (by omega) hroom
  | grows hdata hroom least hsize granted =>
    refine ⟨h.free, ?_, hsize⟩
    rw [List.length_append]
    exact least
  | refused hdata hroom least refused => exact h

theorem kept_create {capacity : Nat} (hallocate : allocate.Bounded)
    (h : create allocate capacity = .ok log) : Kept (max capacity 1) log := by
  rw [create, LogBuffer.create, reserve] at h
  cases hanswer : allocate (max capacity 1) with
  | some cause =>
    rw [hanswer] at h
    cases h
  | none =>
    rw [hanswer] at h
    cases h
    refine ⟨rfl, ⟨⟨Nat.le_max_right _ _, 0, (Nat.mul_one _).symm⟩, ?_⟩, ?_⟩
    · rintro s ⟨-, k, rfl⟩
      exact Nat.le_mul_of_pos_right _ (Nat.two_pow_pos k)
    · exact Nat.le_of_not_lt fun hlarge => hallocate _ hlarge hanswer

/-- What may be asked of a log: data that memory can hold, with an allocator of what memory there
is. -/
def Sound (calls : List (Allocator × Bytes)) : Prop :=
  ∀ call ∈ calls, call.1.Bounded ∧ call.2.length ≤ Allocator.largest

theorem Kept.appendAll (h : Kept start log) {calls : List (Allocator × Bytes)} (hcalls : Sound calls) :
    ∃ results last, log.appendAll calls = some (results, last) ∧ Kept start last := by
  induction calls generalizing log with
  | nil => exact ⟨[], log, rfl, h⟩
  | cons call calls ih =>
    obtain ⟨⟨hallocate, hdata⟩, hrest⟩ := List.forall_mem_cons.mp hcalls
    obtain ⟨result, next, happend, houtcome⟩ := h.append_outcome hallocate hdata
    obtain ⟨results, last, hlast, hkept⟩ := ih (houtcome.kept h) hrest
    refine ⟨result :: results, last, ?_, hkept⟩
    rw [SharedLog.appendAll, happend, Option.bind_some]
    dsimp only
    rw [hlast]
    rfl

/-- A log grows by doublings, and doubling comes to an end from every size above zero. After any appends,
of which any may have been refused, nobody is inside, and the capacity is the least doubling of the
first one that is larger than the number of bytes: so logs that began with the same capacity and hold
as many bytes have the same, whatever their appends were. The next append computes what it needs
within the numbers there are, has room for what it copies, and comes to one of four ends. One that is
refused room has asked for the least doubling that would do, or the largest number, and leaves the
log, with its lock, as it was. -/
theorem appendAll_growth {capacity : Nat} {first : Allocator} {log : SharedLog}
    (hfirst : first.Bounded) (hcreate : create first capacity = .ok log)
    {calls : List (Allocator × Bytes)} (hcalls : Sound calls) :
    (∀ size required, 1 ≤ size → required ≤ Decimal.max64 →
      Doubles required (double size) (grown required size)) ∧
    ∃ results last, log.appendAll calls = some (results, last) ∧ last.lock = .free ∧
      LeastDoubling (max capacity 1) (last.buffer.bytes.length + 1) last.buffer.capacity ∧
      (∀ (allocate : Allocator) other more ends final, allocate.Bounded →
        create allocate capacity = .ok other → Sound more → other.appendAll more = some (ends, final) →
        final.buffer.bytes.length = last.buffer.bytes.length →
        final.buffer.capacity = last.buffer.capacity) ∧
      ∀ (allocate : Allocator) data, allocate.Bounded → data.length ≤ Allocator.largest →
        Checked.append allocate last.buffer data = .ok (last.buffer.append allocate data) ∧
        (∀ room, last.buffer.makeRoom allocate data = .ok room →
          room.bytes = last.buffer.bytes ∧ last.required data ≤ room.capacity) ∧
        ∃ result next, last.append allocate data = some (result, next) ∧
          Outcome (max capacity 1) last allocate data result next := by
  refine ⟨fun size required hsize hmax => doubles_grown hsize hmax, ?_⟩
  obtain ⟨results, last, hlast, hkept⟩ := (kept_create hfirst hcreate).appendAll hcalls
  refine ⟨results, last, hlast, hkept.free, hkept.least, ?_, ?_⟩
  · intro allocate other more ends final hallocate hother hmore hfinal hlength
    obtain ⟨ends', final', hfinal', hkept'⟩ := (kept_create hallocate hother).appendAll hmore
    cases hfinal.symm.trans hfinal'
    exact (hlength ▸ hkept'.least).unique hkept.least
  · intro allocate data hallocate hdata
    have hlength := hkept.length_le
    exact ⟨Checked.append_eq allocate (by omega) hdata, fun room hroom => hkept.makeRoom_fits hdata hroom,
      hkept.append_outcome hallocate hdata⟩

/-- From the least capacity there is, where an allocator refuses the second append. -/
theorem appendAll_growth_one_refused :
    let machine : Allocator := fun size => if Allocator.largest < size then some .beyondLimit else none
    let stingy : Allocator := fun size => if 4 < size then some .exhausted else none
    let calls : List (Allocator × Bytes) := [(machine, [1, 2, 3]), (stingy, [4]), (machine, [5])]
    let log : SharedLog := ⟨.free, ⟨[], 1⟩⟩
    machine.Bounded ∧ create machine 0 = .ok log ∧ Sound calls ∧
      log.appendAll calls = some ([.ok (), .error ⟨8, .exhausted⟩, .ok ()], ⟨.free, ⟨[1, 2, 3, 5], 8⟩⟩) ∧
      LeastDoubling 1 5 8 := by
  intro machine stingy calls log
  have hmachine : machine.Bounded := by
    intro size hlarge
    simp [machine, hlarge]
  have hstingy : stingy.Bounded := by
    intro size hlarge
    have hsize : 4 < size := Nat.lt_trans (by decide) hlarge
    simp [stingy, hsize]
  have hcreate : create machine 0 = .ok log := rfl
  have hcalls : Sound calls := by
    intro call hcall
    simp only [calls, List.mem_cons, List.not_mem_nil, or_false] at hcall
    rcases hcall with rfl | rfl | rfl
    · exact ⟨hmachine, by decide⟩
    · exact ⟨hstingy, by decide⟩
    · exact ⟨hmachine, by decide⟩
  have hends : log.appendAll calls =
      some ([.ok (), .error ⟨8, .exhausted⟩, .ok ()], ⟨.free, ⟨[1, 2, 3, 5], 8⟩⟩) := by
    simp only [log, calls, machine, stingy]
    cbv
  obtain ⟨-, results, last, hlast, -, hleast, -⟩ := appendAll_growth hmachine hcreate hcalls
  cases hends.symm.trans hlast
  exact ⟨hmachine, hcreate, hcalls, hends, hleast⟩

end SharedLog

end PooledHttp
