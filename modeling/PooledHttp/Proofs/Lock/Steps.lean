import Mathlib.Data.List.Basic
import PooledHttp.Lock.Waiting

/-! What one step of the threads around a lock can do, and runs of such steps. -/

namespace PooledHttp

variable {ν V : Type}

namespace LockRoom

theorem read_cases (r : LockRoom ν V) (name : ν) :
    (r.counters.writers = 0 ∧ r.counters.waiting = 0 ∧ r.read name =
      { r with
        counters := { r.counters with readers := r.counters.readers + 1 }
        reading := r.reading ++ [(name, r.value)] }) ∨
    ((0 < r.counters.writers ∨ 0 < r.counters.waiting) ∧
      r.read name = { r with readersAsleep := r.readersAsleep ++ [name] }) := by
  by_cases h : r.counters.writers = 0 ∧ r.counters.waiting = 0
  · have he : r.counters.enterRead? = some { r.counters with readers := r.counters.readers + 1 } :=
      if_pos h
    exact .inl ⟨h.1, h.2, by rw [read, he]⟩
  · have he : r.counters.enterRead? = none := if_neg h
    exact .inr ⟨by omega, by rw [read, he]⟩

theorem enterWrite_cases (r : LockRoom ν V) (name : ν) :
    (r.counters.readers = 0 ∧ r.counters.writers = 0 ∧ r.enterWrite name =
      { r with
        counters := { r.counters with writers := 1, waiting := r.counters.waiting - 1 }
        writing := r.writing ++ [name] }) ∨
    ((0 < r.counters.readers ∨ 0 < r.counters.writers) ∧
      r.enterWrite name = { r with writersAsleep := r.writersAsleep ++ [name] }) := by
  by_cases h : r.counters.readers = 0 ∧ r.counters.writers = 0
  · have he : r.counters.enterWrite? =
        some { r.counters with writers := 1, waiting := r.counters.waiting - 1 } := if_pos h
    exact .inl ⟨h.1, h.2, by rw [enterWrite, he]⟩
  · have he : r.counters.enterWrite? = none := if_neg h
    exact .inr ⟨by omega, by rw [enterWrite, he]⟩

theorem retryRead_cases (r : LockRoom ν V) (index : Nat) :
    r.retryRead index = r ∨ ∃ name, r.readersAwake[index]? = some name ∧ r.retryRead index =
      read { r with readersAwake := r.readersAwake.eraseIdx index } name := by
  cases h : r.readersAwake[index]? with
  | none => exact .inl (by simp only [retryRead, h])
  | some name => exact .inr ⟨name, rfl, by simp only [retryRead, h]⟩

theorem retryWrite_cases (r : LockRoom ν V) (index : Nat) :
    r.retryWrite index = r ∨ ∃ name, r.writersAwake[index]? = some name ∧ r.retryWrite index =
      enterWrite { r with writersAwake := r.writersAwake.eraseIdx index } name := by
  cases h : r.writersAwake[index]? with
  | none => exact .inl (by simp only [retryWrite, h])
  | some name => exact .inr ⟨name, rfl, by simp only [retryWrite, h]⟩

theorem stirReader_cases (r : LockRoom ν V) (index : Nat) :
    r.stirReader index = r ∨ ∃ name, r.readersAsleep[index]? = some name ∧ r.stirReader index =
      { r with
        readersAsleep := r.readersAsleep.eraseIdx index
        readersAwake := r.readersAwake ++ [name] } := by
  cases h : r.readersAsleep[index]? with
  | none => exact .inl (by simp only [stirReader, h])
  | some name => exact .inr ⟨name, rfl, by simp only [stirReader, h]⟩

theorem stirWriter_cases (r : LockRoom ν V) (index : Nat) :
    (r.writersAsleep[index]? = none ∧ r.stirWriter index = r) ∨
    ∃ name, r.writersAsleep[index]? = some name ∧ r.stirWriter index =
      { r with
        writersAsleep := r.writersAsleep.eraseIdx index
        writersAwake := r.writersAwake ++ [name] } := by
  cases h : r.writersAsleep[index]? with
  | none => exact .inl ⟨rfl, by simp only [stirWriter, h]⟩
  | some name => exact .inr ⟨name, rfl, by simp only [stirWriter, h]⟩

/-! A signal concerns those outside only. -/

@[simp] theorem stirWriter_counters (r : LockRoom ν V) (index : Nat) :
    (r.stirWriter index).counters = r.counters := by
  rcases stirWriter_cases r index with ⟨-, he⟩ | ⟨_, -, he⟩ <;> rw [he]

@[simp] theorem stirWriter_value (r : LockRoom ν V) (index : Nat) :
    (r.stirWriter index).value = r.value := by
  rcases stirWriter_cases r index with ⟨-, he⟩ | ⟨_, -, he⟩ <;> rw [he]

@[simp] theorem stirWriter_writing (r : LockRoom ν V) (index : Nat) :
    (r.stirWriter index).writing = r.writing := by
  rcases stirWriter_cases r index with ⟨-, he⟩ | ⟨_, -, he⟩ <;> rw [he]

@[simp] theorem stirWriter_reading (r : LockRoom ν V) (index : Nat) :
    (r.stirWriter index).reading = r.reading := by
  rcases stirWriter_cases r index with ⟨-, he⟩ | ⟨_, -, he⟩ <;> rw [he]

@[simp] theorem signal_counters (r : LockRoom ν V) (pick : Nat) (wake : Wake) :
    (r.signal pick wake).counters = r.counters := by
  cases wake <;> simp [signal]

@[simp] theorem signal_value (r : LockRoom ν V) (pick : Nat) (wake : Wake) :
    (r.signal pick wake).value = r.value := by
  cases wake <;> simp [signal]

@[simp] theorem signal_writing (r : LockRoom ν V) (pick : Nat) (wake : Wake) :
    (r.signal pick wake).writing = r.writing := by
  cases wake <;> simp [signal]

@[simp] theorem signal_reading (r : LockRoom ν V) (pick : Nat) (wake : Wake) :
    (r.signal pick wake).reading = r.reading := by
  cases wake <;> simp [signal]

variable [DecidableEq ν]

theorem update_cases (r : LockRoom ν V) (name : ν) (change : V → V) :
    (name ∉ r.writing ∧ r.update name change = r) ∨
    (name ∈ r.writing ∧ r.update name change = { r with value := change r.value }) := by
  by_cases h : name ∈ r.writing
  · exact .inr ⟨h, if_pos h⟩
  · exact .inl ⟨h, if_neg h⟩

theorem endRead_cases (r : LockRoom ν V) (name : ν) (pick : Nat) :
    r.endRead name pick = r ∨ ∃ value, (name, value) ∈ r.reading ∧ r.endRead name pick =
      signal
        { r with
          counters := { r.counters with readers := r.counters.readers - 1 }
          reading := r.reading.eraseP (·.1 = name) }
        pick (if r.counters.readers - 1 = 0 then .oneWriter else .nobody) := by
  by_cases h : r.reading.any (·.1 = name)
  · obtain ⟨p, hp, hname⟩ := List.any_eq_true.mp h
    have he : p.1 = name := by simpa using hname
    exact .inr ⟨p.2, he ▸ hp, if_pos h⟩
  · exact .inl (if_neg h)

theorem endWrite_cases (r : LockRoom ν V) (name : ν) (pick : Nat) :
    r.endWrite name pick = r ∨ (name ∈ r.writing ∧ r.endWrite name pick =
      signal
        { r with
          counters := { r.counters with writers := 0 }
          writing := r.writing.erase name }
        pick (if 0 < r.counters.waiting then .oneWriter else .allReaders)) := by
  by_cases h : name ∈ r.writing
  · exact .inr ⟨h, if_pos h⟩
  · exact .inl (if_neg h)

/-- The room after a run, in which any threads may take any steps in any order. -/
def after (r : LockRoom ν V) : List (LockAction ν V) → LockRoom ν V
  | [] => r
  | action :: actions => (r.act action).after actions

end LockRoom

end PooledHttp
