import PooledHttp.Proofs.Lock.Steps

/-! The counters of the lock are those who are inside and those who wait. At most one writer is
inside, and never beside a reader, so a reader sees the value that it found until it leaves. -/

namespace PooledHttp

variable {ν V : Type}

namespace LockRoom

/-- The counters agree with the threads; `running` writers have announced themselves and are
neither asleep nor awakened. -/
structure Accounted (r : LockRoom ν V) (running : Nat) : Prop where
  readers_eq : r.counters.readers = r.reading.length
  writers_eq : r.counters.writers = r.writing.length
  waiting_eq : r.counters.waiting = r.writersAsleep.length + r.writersAwake.length + running
  writing_le : r.writing.length ≤ 1
  apart : r.writing = [] ∨ r.reading = []
  found : ∀ p ∈ r.reading, p.2 = r.value

variable {r : LockRoom ν V} {running : Nat}

theorem accounted_around (value : V) : (around value : LockRoom ν V).Accounted 0 :=
  ⟨rfl, rfl, rfl, Nat.zero_le 1, .inl rfl, fun _ hp => by cases hp⟩

theorem Accounted.writing_eq (h : r.Accounted running) {name : ν} (hmem : name ∈ r.writing) :
    r.writing = [name] := by
  have hle := h.writing_le
  have hpos := List.length_pos_of_mem hmem
  obtain ⟨other, he⟩ := List.length_eq_one_iff.mp (by omega : r.writing.length = 1)
  rw [he, List.mem_singleton] at hmem
  rw [he, hmem]

theorem Accounted.read (h : r.Accounted running) (name : ν) :
    (r.read name).Accounted running := by
  rcases read_cases r name with ⟨hw, -, he⟩ | ⟨-, he⟩
  · have hnil : r.writing = [] := by
      rw [← List.length_eq_zero_iff, ← h.writers_eq, hw]
    rw [he]
    refine ⟨?_, h.writers_eq, h.waiting_eq, h.writing_le, .inl hnil, ?_⟩
    · simp only [List.length_append, List.length_singleton, h.readers_eq]
    · intro p hp
      rcases List.mem_append.mp hp with hp | hp
      · exact h.found p hp
      · rw [List.mem_singleton.mp hp]
  · rw [he]
    exact ⟨h.readers_eq, h.writers_eq, h.waiting_eq, h.writing_le, h.apart, h.found⟩

theorem Accounted.enterWrite (h : r.Accounted (running + 1)) (name : ν) :
    (r.enterWrite name).Accounted running := by
  have hwait := h.waiting_eq
  rcases enterWrite_cases r name with ⟨hr, hw, he⟩ | ⟨-, he⟩
  · have hnil : r.writing = [] := by
      rw [← List.length_eq_zero_iff, ← h.writers_eq, hw]
    have hread : r.reading = [] := by
      rw [← List.length_eq_zero_iff, ← h.readers_eq, hr]
    rw [he]
    refine ⟨h.readers_eq, ?_, ?_, ?_, .inr hread, h.found⟩
    · simp [hnil]
    · change r.counters.waiting - 1 = r.writersAsleep.length + r.writersAwake.length + running
      omega
    · simp [hnil]
  · rw [he]
    refine ⟨h.readers_eq, h.writers_eq, ?_, h.writing_le, h.apart, h.found⟩
    simp only [List.length_append, List.length_singleton]
    omega

theorem Accounted.announce (h : r.Accounted running) :
    Accounted { r with counters := r.counters.announceWrite } (running + 1) :=
  ⟨h.readers_eq, h.writers_eq, congrArg (· + 1) h.waiting_eq, h.writing_le, h.apart, h.found⟩

theorem Accounted.write (h : r.Accounted running) (name : ν) :
    (r.write name).Accounted running := h.announce.enterWrite name

theorem Accounted.retryRead (h : r.Accounted running) (index : Nat) :
    (r.retryRead index).Accounted running := by
  rcases retryRead_cases r index with he | ⟨name, -, he⟩
  · rwa [he]
  · rw [he]
    apply Accounted.read
    exact ⟨h.readers_eq, h.writers_eq, h.waiting_eq, h.writing_le, h.apart, h.found⟩

/-- An awakened writer that runs is not among the awakened any more. -/
theorem Accounted.wakeWriter (h : r.Accounted running) {index : Nat} {name : ν}
    (hi : r.writersAwake[index]? = some name) :
    Accounted { r with writersAwake := r.writersAwake.eraseIdx index } (running + 1) := by
  obtain ⟨hlt, -⟩ := List.getElem?_eq_some_iff.mp hi
  have hwait := h.waiting_eq
  refine ⟨h.readers_eq, h.writers_eq, ?_, h.writing_le, h.apart, h.found⟩
  simp only [List.length_eraseIdx_of_lt hlt]
  omega

theorem Accounted.retryWrite (h : r.Accounted running) (index : Nat) :
    (r.retryWrite index).Accounted running := by
  rcases retryWrite_cases r index with he | ⟨name, hi, he⟩
  · rwa [he]
  · rw [he]
    exact (h.wakeWriter hi).enterWrite name

theorem Accounted.stirReader (h : r.Accounted running) (index : Nat) :
    (r.stirReader index).Accounted running := by
  rcases stirReader_cases r index with he | ⟨name, -, he⟩
  · rwa [he]
  · rw [he]
    exact ⟨h.readers_eq, h.writers_eq, h.waiting_eq, h.writing_le, h.apart, h.found⟩

theorem Accounted.stirWriter (h : r.Accounted running) (index : Nat) :
    (r.stirWriter index).Accounted running := by
  rcases stirWriter_cases r index with ⟨-, he⟩ | ⟨name, hi, he⟩
  · rwa [he]
  · obtain ⟨hlt, -⟩ := List.getElem?_eq_some_iff.mp hi
    have hwait := h.waiting_eq
    rw [he]
    refine ⟨h.readers_eq, h.writers_eq, ?_, h.writing_le, h.apart, h.found⟩
    simp only [List.length_eraseIdx_of_lt hlt, List.length_append, List.length_singleton]
    omega

theorem Accounted.signal (h : r.Accounted running) (pick : Nat) (wake : Wake) :
    (r.signal pick wake).Accounted running := by
  cases wake with
  | nobody => exact h
  | oneWriter => exact h.stirWriter _
  | allReaders =>
    exact ⟨h.readers_eq, h.writers_eq, h.waiting_eq, h.writing_le, h.apart, h.found⟩

variable [DecidableEq ν]

theorem Accounted.update (h : r.Accounted running) (name : ν) (change : V → V) :
    (r.update name change).Accounted running := by
  rcases update_cases r name change with ⟨-, he⟩ | ⟨hmem, he⟩
  · rwa [he]
  · have hread : r.reading = [] := h.apart.resolve_left (List.ne_nil_of_mem hmem)
    rw [he]
    refine ⟨h.readers_eq, h.writers_eq, h.waiting_eq, h.writing_le, h.apart, ?_⟩
    intro p hp
    rw [hread] at hp
    cases hp

theorem Accounted.endRead (h : r.Accounted running) (name : ν) (pick : Nat) :
    (r.endRead name pick).Accounted running := by
  rcases endRead_cases r name pick with he | ⟨value, hmem, he⟩
  · rwa [he]
  · have hlen : (r.reading.eraseP (·.1 = name)).length = r.reading.length - 1 :=
      List.length_eraseP_of_mem hmem (by simp)
    have hnil : r.writing = [] := h.apart.resolve_right (List.ne_nil_of_mem hmem)
    rw [he]
    apply Accounted.signal
    refine ⟨?_, h.writers_eq, h.waiting_eq, h.writing_le, .inl hnil, ?_⟩
    · simp only [hlen, h.readers_eq]
    · intro p hp
      exact h.found p (List.mem_of_mem_eraseP hp)

/-- The writer that leaves was the only one, so nobody is counted out with it. -/
theorem Accounted.endWrite (h : r.Accounted running) (name : ν) (pick : Nat) :
    (r.endWrite name pick).Accounted running := by
  rcases endWrite_cases r name pick with he | ⟨hmem, he⟩
  · rwa [he]
  · have hout : r.writing.erase name = [] := by
      rw [h.writing_eq hmem, List.erase_cons_head]
    rw [he, hout]
    apply Accounted.signal
    exact ⟨h.readers_eq, rfl, h.waiting_eq, Nat.zero_le 1, .inl rfl, h.found⟩

theorem Accounted.act (h : r.Accounted running) (action : LockAction ν V) :
    (r.act action).Accounted running := by
  cases action with
  | read name => exact h.read name
  | write name => exact h.write name
  | retryRead index => exact h.retryRead index
  | retryWrite index => exact h.retryWrite index
  | update name change => exact h.update name change
  | endRead name ending pick => exact h.endRead name pick
  | endWrite name ending pick => exact h.endWrite name pick
  | stirReader index => exact h.stirReader index
  | stirWriter index => exact h.stirWriter index

theorem Accounted.after (h : r.Accounted running) (actions : List (LockAction ν V)) :
    (r.after actions).Accounted running := by
  induction actions generalizing r with
  | nil => exact h
  | cons action actions ih => exact ih (h.act action)

end LockRoom

end PooledHttp
