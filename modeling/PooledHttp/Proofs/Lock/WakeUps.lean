import PooledHttp.Proofs.Lock.Accounts

/-! No signal of the lock is lost. A reader sleeps only where a writer is inside or waits. A writer
that sleeps at a lock with nobody inside has another one awakened beside it. The lock never sticks:
with nobody inside, one of those who wait is awake and gets in. -/

namespace PooledHttp

variable {ν V : Type}

namespace LockRoom

/-- A sleeping reader has a writer to wait for. -/
def ReaderAttended (r : LockRoom ν V) : Prop :=
  r.readersAsleep ≠ [] → 0 < r.counters.writers ∨ 0 < r.counters.waiting

/-- Whoever sleeps has somebody to wait for who will awaken it. -/
structure Attended (r : LockRoom ν V) : Prop where
  reader : r.ReaderAttended
  writer : r.writersAsleep ≠ [] → r.counters.readers = 0 → r.counters.writers = 0 →
    r.writersAwake ≠ []

variable {r : LockRoom ν V}

theorem attended_around (value : V) : (around value : LockRoom ν V).Attended :=
  ⟨fun hne => absurd rfl hne, fun hne => absurd rfl hne⟩

theorem Attended.read (h : r.Attended) (name : ν) : (r.read name).Attended := by
  rcases read_cases r name with ⟨-, -, he⟩ | ⟨hbusy, he⟩
  · rw [he]
    refine ⟨h.reader, ?_⟩
    intro _ hz
    exact absurd hz (Nat.succ_ne_zero _)
  · rw [he]
    exact ⟨fun _ => hbusy, h.writer⟩

/-- A writer that goes in is somebody to wait for, and one that goes to sleep has found somebody,
so what the writers had to rely on before does not matter. -/
theorem ReaderAttended.enterWrite (h : r.ReaderAttended) (name : ν) :
    (r.enterWrite name).Attended := by
  rcases enterWrite_cases r name with ⟨-, -, he⟩ | ⟨hbusy, he⟩
  · rw [he]
    refine ⟨fun _ => .inl Nat.zero_lt_one, ?_⟩
    intro _ _ hz
    exact absurd hz Nat.one_ne_zero
  · rw [he]
    refine ⟨h, ?_⟩
    intro _ hr hw
    change r.counters.readers = 0 at hr
    change r.counters.writers = 0 at hw
    omega

theorem attended_write (r : LockRoom ν V) (name : ν) : (r.write name).Attended := by
  have h : ReaderAttended { r with counters := r.counters.announceWrite } :=
    fun _ => .inr (Nat.succ_pos _)
  exact h.enterWrite name

theorem Attended.retryRead (h : r.Attended) (index : Nat) : (r.retryRead index).Attended := by
  rcases retryRead_cases r index with he | ⟨name, -, he⟩
  · rwa [he]
  · rw [he]
    apply Attended.read
    exact ⟨h.reader, h.writer⟩

theorem Attended.retryWrite (h : r.Attended) (index : Nat) : (r.retryWrite index).Attended := by
  rcases retryWrite_cases r index with he | ⟨name, -, he⟩
  · rwa [he]
  · rw [he]
    apply ReaderAttended.enterWrite
    exact h.reader

theorem Attended.stirReader (h : r.Attended) (index : Nat) : (r.stirReader index).Attended := by
  rcases stirReader_cases r index with he | ⟨name, hi, he⟩
  · rwa [he]
  · have hne : r.readersAsleep ≠ [] := by
      intro hnil
      rw [hnil, List.getElem?_nil] at hi
      cases hi
    rw [he]
    exact ⟨fun _ => h.reader hne, h.writer⟩

theorem Attended.stirWriter (h : r.Attended) (index : Nat) : (r.stirWriter index).Attended := by
  rcases stirWriter_cases r index with ⟨-, he⟩ | ⟨name, -, he⟩
  · rwa [he]
  · rw [he]
    exact ⟨h.reader, fun _ _ _ => List.concat_ne_nil name r.writersAwake⟩

/-- A signal to the writers reaches one wherever one sleeps. -/
theorem ReaderAttended.signal (h : r.ReaderAttended) (pick : Nat) :
    (r.signal pick .oneWriter).Attended := by
  rcases stirWriter_cases r (pick % r.writersAsleep.length) with ⟨hi, he⟩ | ⟨name, -, he⟩
  · rw [LockRoom.signal, he]
    refine ⟨h, ?_⟩
    intro hne
    have hlt := Nat.mod_lt pick (List.length_pos_iff.mpr hne)
    have hge := List.getElem?_eq_none_iff.mp hi
    omega
  · rw [LockRoom.signal, he]
    exact ⟨h, fun _ _ _ => List.concat_ne_nil name r.writersAwake⟩

variable [DecidableEq ν]

theorem Attended.update (h : r.Attended) (name : ν) (change : V → V) :
    (r.update name change).Attended := by
  rcases update_cases r name change with ⟨-, he⟩ | ⟨-, he⟩
  · rwa [he]
  · rw [he]
    exact ⟨h.reader, h.writer⟩

/-- Only the last reader to leave has somebody to awaken. -/
theorem Attended.endRead (h : r.Attended) (name : ν) (pick : Nat) :
    (r.endRead name pick).Attended := by
  rcases endRead_cases r name pick with he | ⟨value, -, he⟩
  · rwa [he]
  · rw [he]
    by_cases hlast : r.counters.readers - 1 = 0
    · rw [if_pos hlast]
      apply ReaderAttended.signal
      exact h.reader
    · rw [if_neg hlast]
      refine ⟨h.reader, ?_⟩
      intro _ hz
      exact absurd hz hlast

/-- Where no writer waits none is asleep, so to awaken the readers is enough. -/
theorem Attended.endWrite (ha : r.Accounted 0) (h : r.Attended) (name : ν) (pick : Nat) :
    (r.endWrite name pick).Attended := by
  rcases endWrite_cases r name pick with he | ⟨-, he⟩
  · rwa [he]
  · rw [he]
    by_cases hwait : 0 < r.counters.waiting
    · rw [if_pos hwait]
      apply ReaderAttended.signal
      exact fun _ => .inr hwait
    · rw [if_neg hwait]
      have hnone : r.writersAsleep = [] := by
        have hsum := ha.waiting_eq
        exact List.length_eq_zero_iff.mp (by omega)
      exact ⟨fun hne => absurd rfl hne, fun hne => absurd hnone hne⟩

theorem Attended.act (ha : r.Accounted 0) (h : r.Attended) (action : LockAction ν V) :
    (r.act action).Attended := by
  cases action with
  | read name => exact h.read name
  | write name => exact attended_write r name
  | retryRead index => exact h.retryRead index
  | retryWrite index => exact h.retryWrite index
  | update name change => exact h.update name change
  | endRead name ending pick => exact h.endRead name pick
  | endWrite name ending pick => exact h.endWrite ha name pick
  | stirReader index => exact h.stirReader index
  | stirWriter index => exact h.stirWriter index

theorem Attended.after (ha : r.Accounted 0) (h : r.Attended) (actions : List (LockAction ν V)) :
    (r.after actions).Attended := by
  induction actions generalizing r with
  | nil => exact h
  | cons action actions ih => exact ih (ha.act action) (h.act ha action)

omit [DecidableEq ν] in
theorem retryWrite_enters {index : Nat} {name : ν} (hi : r.writersAwake[index]? = some name)
    (hr : r.counters.readers = 0) (hw : r.counters.writers = 0) :
    (r.retryWrite index).writing = r.writing ++ [name] := by
  rw [retryWrite, hi]
  rcases enterWrite_cases { r with writersAwake := r.writersAwake.eraseIdx index } name with
    ⟨-, -, he⟩ | ⟨hbusy, -⟩
  · simp only [he]
  · change 0 < r.counters.readers ∨ 0 < r.counters.writers at hbusy
    omega

omit [DecidableEq ν] in
theorem retryRead_enters {index : Nat} {name : ν} (hi : r.readersAwake[index]? = some name)
    (hw : r.counters.writers = 0) (hwait : r.counters.waiting = 0) :
    (r.retryRead index).reading = r.reading ++ [(name, r.value)] := by
  rw [retryRead, hi]
  rcases read_cases { r with readersAwake := r.readersAwake.eraseIdx index } name with
    ⟨-, -, he⟩ | ⟨hbusy, -⟩
  · simp only [he]
  · change 0 < r.counters.writers ∨ 0 < r.counters.waiting at hbusy
    omega

/-- In every run: a reader that sleeps has a writer inside or a waiting one before it, and a writer
that sleeps at a lock with nobody inside has an awakened one beside it. So wherever nobody is inside
and somebody wants in, one of the awakened may enter and does so when it runs. -/
theorem run_never_stuck (start : V) (actions : List (LockAction ν V)) :
    let room := (around start).after actions
    (room.readersAsleep ≠ [] → room.counters.writers = 1 ∨ 0 < room.counters.waiting) ∧
    (room.writersAsleep ≠ [] → room.counters.readers = 0 → room.counters.writers = 0 →
      room.writersAwake ≠ []) ∧
    (room.reading = [] → room.writing = [] →
      (room.readersAsleep ≠ [] ∨ room.readersAwake ≠ [] ∨
        room.writersAsleep ≠ [] ∨ room.writersAwake ≠ []) →
      (∃ index name, room.writersAwake[index]? = some name ∧
        room.counters.readers = 0 ∧ room.counters.writers = 0 ∧
        (room.act (.retryWrite index)).writing = [name]) ∨
      ∃ index name, room.readersAwake[index]? = some name ∧
        room.counters.writers = 0 ∧ room.counters.waiting = 0 ∧
        (room.act (.retryRead index)).reading = [(name, room.value)]) := by
  intro room
  have hstart : (around start : LockRoom ν V).Accounted 0 := accounted_around start
  have ha : room.Accounted 0 := hstart.after actions
  have h : room.Attended := (attended_around start).after hstart actions
  refine ⟨?_, h.writer, ?_⟩
  · intro hne
    have hle : room.counters.writers ≤ 1 := ha.writers_eq ▸ ha.writing_le
    have hor := h.reader hne
    omega
  · intro hread hwrite hsome
    have hr : room.counters.readers = 0 := by rw [ha.readers_eq, hread, List.length_nil]
    have hw : room.counters.writers = 0 := by rw [ha.writers_eq, hwrite, List.length_nil]
    cases hawake : room.writersAwake with
    | cons name others =>
      have hi : room.writersAwake[0]? = some name := by rw [hawake, List.getElem?_cons_zero]
      have hin := retryWrite_enters hi hr hw
      rw [hwrite, List.nil_append] at hin
      exact .inl ⟨0, name, hawake ▸ hi, hr, hw, hin⟩
    | nil =>
      have hsleep : room.writersAsleep = [] := by
        by_contra hne
        exact h.writer hne hr hw hawake
      have hwait : room.counters.waiting = 0 := by
        rw [ha.waiting_eq, hsleep, hawake, List.length_nil]
      have hreaders : room.readersAsleep = [] := by
        by_contra hne
        have hor := h.reader hne
        omega
      cases hreader : room.readersAwake with
      | nil => simp [hreaders, hreader, hsleep, hawake] at hsome
      | cons name others =>
        have hi : room.readersAwake[0]? = some name := by rw [hreader, List.getElem?_cons_zero]
        have hin := retryRead_enters hi hw hwait
        rw [hread, List.nil_append] at hin
        exact .inr ⟨0, name, hreader ▸ hi, hw, hwait, hin⟩

end LockRoom

end PooledHttp
