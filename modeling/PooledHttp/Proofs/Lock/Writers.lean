import Mathlib.Data.List.Perm.Basic
import PooledHttp.Proofs.Lock.Steps

/-! Those who have asked for exclusive access and not yet given it back: inside, asleep or awakened.
Only a call for access and the end of one change who they are. -/

namespace PooledHttp

variable {ν V : Type}

namespace LockRoom

/-- Those who have asked for exclusive access and not yet given it back. -/
def writers (r : LockRoom ν V) : List ν := r.writing ++ (r.writersAsleep ++ r.writersAwake)

theorem read_writers (r : LockRoom ν V) (name : ν) : (r.read name).writers = r.writers := by
  rcases read_cases r name with ⟨-, -, he⟩ | ⟨-, he⟩ <;> rw [he] <;> rfl

theorem retryRead_writers (r : LockRoom ν V) (index : Nat) :
    (r.retryRead index).writers = r.writers := by
  rcases retryRead_cases r index with he | ⟨name, -, he⟩
  · rw [he]
  · rw [he, read_writers]
    rfl

theorem stirReader_writers (r : LockRoom ν V) (index : Nat) :
    (r.stirReader index).writers = r.writers := by
  rcases stirReader_cases r index with he | ⟨name, -, he⟩
  · rw [he]
  · rw [he]
    rfl

theorem enterWrite_writers (r : LockRoom ν V) (name : ν) :
    (r.enterWrite name).writers.Perm (name :: r.writers) := by
  classical
  rw [List.perm_iff_count]
  intro other
  rcases enterWrite_cases r name with ⟨-, -, he⟩ | ⟨-, he⟩
  · simp only [he, writers, List.count_append, List.count_cons, List.count_nil]
    omega
  · simp only [he, writers, List.count_append, List.count_cons, List.count_nil]
    omega

theorem write_writers (r : LockRoom ν V) (name : ν) :
    (r.write name).writers.Perm (name :: r.writers) := enterWrite_writers _ name

theorem retryWrite_writers (r : LockRoom ν V) (index : Nat) :
    (r.retryWrite index).writers.Perm r.writers := by
  classical
  rcases retryWrite_cases r index with he | ⟨name, hi, he⟩
  · rw [he]
  · obtain ⟨hlt, rfl⟩ := List.getElem?_eq_some_iff.mp hi
    rw [he]
    refine (enterWrite_writers _ _).trans ?_
    rw [List.perm_iff_count]
    intro other
    have hcount := (List.getElem_cons_eraseIdx_perm hlt).count_eq other
    simp only [writers, List.count_append, List.count_cons] at hcount ⊢
    omega

theorem stirWriter_writers (r : LockRoom ν V) (index : Nat) :
    (r.stirWriter index).writers.Perm r.writers := by
  classical
  rcases stirWriter_cases r index with ⟨-, he⟩ | ⟨name, hi, he⟩
  · rw [he]
  · obtain ⟨hlt, rfl⟩ := List.getElem?_eq_some_iff.mp hi
    rw [he, List.perm_iff_count]
    intro other
    have hcount := (List.getElem_cons_eraseIdx_perm hlt).count_eq other
    simp only [writers, List.count_append, List.count_cons, List.count_nil] at hcount ⊢
    omega

theorem signal_writers (r : LockRoom ν V) (pick : Nat) (wake : Wake) :
    (r.signal pick wake).writers.Perm r.writers := by
  cases wake with
  | nobody | allReaders => exact .rfl
  | oneWriter => exact stirWriter_writers r _

variable [DecidableEq ν]

theorem endRead_writers (r : LockRoom ν V) (name : ν) (pick : Nat) :
    (r.endRead name pick).writers.Perm r.writers := by
  rcases endRead_cases r name pick with he | ⟨value, -, he⟩
  · rw [he]
  · rw [he]
    exact signal_writers _ pick _

theorem endWrite_left {r : LockRoom ν V} {name : ν}
    (hw : r.writing = [name]) (pick : Nat) :
    (r.endWrite name pick).value = r.value ∧ (r.endWrite name pick).writing = [] ∧
      r.writers.Perm (name :: (r.endWrite name pick).writers) := by
  have hmem : name ∈ r.writing := by
    rw [hw]
    exact List.mem_singleton_self name
  have hnone : r.writing.erase name = [] := by
    rw [hw, List.erase_cons_head]
  have he : r.endWrite name pick = signal
      { r with
        counters := { r.counters with writers := 0 }
        writing := r.writing.erase name }
      pick (if 0 < r.counters.waiting then .oneWriter else .allReaders) := if_pos hmem
  rw [he, signal_value, signal_writing]
  refine ⟨rfl, hnone, ?_⟩
  refine List.Perm.trans ?_ ((signal_writers _ pick _).symm.cons name)
  rw [writers, writers, hnone, hw]
  exact .rfl

end LockRoom

end PooledHttp
