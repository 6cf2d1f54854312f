import Mathlib.Data.List.Perm.Basic
import PooledHttp.Log.Waiting
import PooledHttp.Proofs.Lock.Exclusion
import PooledHttp.Proofs.Lock.Writers

/-! What one step of the threads around the log can do, and runs of such steps. A call that appends
is made, enters and returns; in between it makes room and adds its data. -/

namespace PooledHttp

variable {ν : Type}

inductive LogMark (ν : Type)
  | called (name : ν) (data : Bytes)
  | entered (name : ν) (data : Bytes)
  | returned (name : ν) (data : Bytes) (result : Except AllocationError Unit)

namespace LogRoom

variable [DecidableEq ν]

def dataOf (r : LogRoom ν) (name : ν) : Bytes := (r.data.lookup name).getD []

/-- The calls that are inside after a step and were not before. -/
def entering (r next : LogRoom ν) : List (LogMark ν) :=
  (next.lock.writing.drop r.lock.writing.length).map fun name => .entered name (next.dataOf name)

/-- A call without data asks for nothing and leaves no mark. -/
def marks (r : LogRoom ν) : LogAction ν → List (LogMark ν)
  | .append name data =>
    if data.isEmpty then [] else .called name data :: r.entering (r.append name data).1
  | .retryWrite index => r.entering (r.act (.retryWrite index)).1
  | .advance allocate pick =>
    match (r.advance allocate pick).2 with
    | some (.appended name result) => [.returned name (r.dataOf name) result]
    | _ => []
  | _ => []

/-- What a step is to the calls that append. -/
inductive Deed (r : LogRoom ν) : List (LogMark ν) → LogRoom ν → Prop
  | aside {next : LogRoom ν} (hv : next.lock.value = r.lock.value)
    (hw : next.lock.writing = r.lock.writing) (hnames : next.lock.writers.Perm r.lock.writers)
    (hd : next.data = r.data) (hs : next.stage = r.stage) : Deed r [] next
  | asked {next : LogRoom ν} (name : ν) (data : Bytes) (hv : next.lock.value = r.lock.value)
    (hw : next.lock.writing = r.lock.writing)
    (hnames : next.lock.writers.Perm (name :: r.lock.writers))
    (hd : next.data = r.data ++ [(name, data)]) (hs : next.stage = r.stage) :
    Deed r [.called name data] next
  | askedAndEntered {next : LogRoom ν} (name : ν) (data : Bytes)
    (hv : next.lock.value = r.lock.value) (hnil : r.lock.writing = [])
    (hw : next.lock.writing = [name])
    (hnames : next.lock.writers.Perm (name :: r.lock.writers))
    (hd : next.data = r.data ++ [(name, data)]) (hs : next.stage = r.stage) :
    Deed r [.called name data, .entered name (next.dataOf name)] next
  | entered {next : LogRoom ν} (name : ν) (hv : next.lock.value = r.lock.value)
    (hnil : r.lock.writing = []) (hw : next.lock.writing = [name])
    (hnames : next.lock.writers.Perm r.lock.writers) (hd : next.data = r.data)
    (hs : next.stage = r.stage) : Deed r [.entered name (next.dataOf name)] next
  | refused {name : ν} (hw : r.lock.writing = [name]) (hs : r.stage = .entered)
    (e : AllocationError) : Deed r [] { r with stage := .done (.error e) }
  | madeRoom {name : ν} (hw : r.lock.writing = [name]) (hs : r.stage = .entered)
    {buffer : LogBuffer} (hb : buffer.bytes = r.lock.value.bytes) :
    Deed r [] { r with lock := { r.lock with value := buffer }, stage := .roomMade }
  | added {name : ν} (hw : r.lock.writing = [name]) (hs : r.stage = .roomMade) :
    Deed r []
      { r with
        lock := { r.lock with value := r.lock.value.add (r.dataOf name) }
        stage := .done (.ok ()) }
  | returned {name : ν} {result : Except AllocationError Unit} {next : LogRoom ν}
    (hold : r.lock.writing = [name]) (hdone : r.stage = .done result)
    (hv : next.lock.value = r.lock.value) (hw : next.lock.writing = [])
    (hnames : r.lock.writers.Perm (name :: next.lock.writers))
    (hd : next.data = r.data.eraseP (·.1 = name)) (hs : next.stage = .entered) :
    Deed r [.returned name (r.dataOf name) result] next

variable {r : LogRoom ν}

theorem entering_none {next : LogRoom ν} (hw : next.lock.writing = r.lock.writing) :
    r.entering next = [] := by
  rw [entering, hw, List.drop_length]
  rfl

theorem entering_one {next : LogRoom ν} {name : ν} (hnil : r.lock.writing = [])
    (hw : next.lock.writing = [name]) : r.entering next = [.entered name (next.dataOf name)] := by
  rw [entering, hw, hnil]
  rfl

theorem append_deed (h : r.lock.Accounted 0) (name : ν) (data : Bytes) :
    Deed r (r.marks (.append name data)) (r.append name data).1 := by
  by_cases hempty : data.isEmpty = true
  · simp only [marks, append, if_pos hempty]
    exact .aside rfl rfl .rfl rfl rfl
  · simp only [marks, append, if_neg hempty]
    have hnames := r.lock.write_writers name
    obtain ⟨hv, ⟨hw, -⟩ | ⟨hnil, hw, -⟩⟩ := h.announce.enterWrite_writing name
    · rw [entering_none hw]
      exact .asked name data hv hw hnames rfl rfl
    · rw [entering_one hnil hw]
      exact .askedAndEntered name data hv hnil hw hnames rfl rfl

theorem makeRoom_bytes {allocate : Allocator} {buffer next : LogBuffer} {data : Bytes}
    (h : buffer.makeRoom allocate data = .ok next) : next.bytes = buffer.bytes := by
  simp only [LogBuffer.makeRoom] at h
  split at h
  · cases h
    rfl
  · cases hr : LogBuffer.reserve allocate
        (LogBuffer.grown (buffer.bytes.length + data.length + 1) buffer.capacity) with
    | error e => simp [hr, Except.map] at h
    | ok u =>
      simp only [hr, Except.map] at h
      cases h
      rfl

theorem update_inside {name : ν} (hw : r.lock.writing = [name]) (change : LogBuffer → LogBuffer) :
    r.lock.update name change = { r.lock with value := change r.lock.value } := by
  have hmem : name ∈ r.lock.writing := by
    rw [hw]
    exact List.mem_singleton_self name
  exact if_pos hmem

theorem advance_deed (h : r.lock.Accounted 0) (allocate : Allocator) (pick : Nat) :
    Deed r (r.marks (.advance allocate pick)) (r.advance allocate pick).1 := by
  cases hw : r.lock.writing with
  | nil =>
    simp only [marks, advance, hw, List.head?_nil]
    exact .aside rfl rfl .rfl rfl rfl
  | cons name others =>
    have hone : r.lock.writing = [name] := h.writing_eq (hw ▸ List.mem_cons_self)
    simp only [marks, advance, hw, List.head?_cons]
    cases hs : r.stage with
    | entered =>
      cases hm : r.lock.value.makeRoom allocate ((r.data.lookup name).getD []) with
      | error e => exact .refused hone hs e
      | ok buffer =>
        simp only [update_inside hone]
        exact .madeRoom hone hs (makeRoom_bytes hm)
    | roomMade =>
      simp only [update_inside hone]
      exact .added hone hs
    | done result =>
      obtain ⟨hv, hout, hnames⟩ := LockRoom.endWrite_left hone pick
      exact .returned hone hs hv hout hnames rfl rfl

theorem act_deed (h : r.lock.Accounted 0) (action : LogAction ν) :
    Deed r (r.marks action) (r.act action).1 := by
  cases action with
  | append name data => exact append_deed h name data
  | advance allocate pick => exact advance_deed h allocate pick
  | look name =>
    have hu := r.lock.read_unchanged name
    exact .aside hu.value_eq hu.writing_eq (.of_eq (r.lock.read_writers name)) rfl rfl
  | finishLook name pick =>
    change Deed r [] (r.finishLook name pick).1
    cases hf : r.lock.reading.lookup name with
    | none =>
      simp only [finishLook, hf]
      exact .aside rfl rfl .rfl rfl rfl
    | some buffer =>
      simp only [finishLook, hf]
      have hu := r.lock.endRead_unchanged name pick
      exact .aside hu.value_eq hu.writing_eq (r.lock.endRead_writers name pick) rfl rfl
  | retryRead index =>
    have hu := r.lock.retryRead_unchanged index
    exact .aside hu.value_eq hu.writing_eq (.of_eq (r.lock.retryRead_writers index)) rfl rfl
  | retryWrite index =>
    have ht := h.turn (.retryWrite index)
    have hnames := r.lock.retryWrite_writers index
    change Deed r (r.entering { r with lock := r.lock.retryWrite index })
      { r with lock := r.lock.retryWrite index }
    change LockRoom.Turn r.lock _ (r.lock.retryWrite index) at ht
    generalize r.lock.retryWrite index = next at ht hnames
    cases ht with
    | aside ha hn hu =>
      rw [entering_none hu.writing_eq]
      exact .aside hu.value_eq hu.writing_eq hnames rfl rfl
    | entered name ha hv hnil hw hwait =>
      rw [entering_one hnil hw]
      exact .entered name hv hnil hw hnames rfl rfl
  | stirReader index =>
    have hu := r.lock.stirReader_unchanged index
    exact .aside hu.value_eq hu.writing_eq (.of_eq (r.lock.stirReader_writers index)) rfl rfl
  | stirWriter index =>
    have hu := r.lock.stirWriter_unchanged index
    exact .aside hu.value_eq hu.writing_eq (r.lock.stirWriter_writers index) rfl rfl

/-- The lock takes one of its own steps, or none. -/
theorem act_lock (r : LogRoom ν) (action : LogAction ν) :
    (r.act action).1.lock = r.lock ∨
      ∃ step : LockAction ν LogBuffer, (r.act action).1.lock = r.lock.act step := by
  cases action with
  | append name data =>
    by_cases hempty : data.isEmpty = true
    · exact .inl (by simp only [act, append, if_pos hempty])
    · exact .inr ⟨.write name, by simp only [act, append, if_neg hempty]; rfl⟩
  | advance allocate pick =>
    cases hw : r.lock.writing.head? with
    | none => exact .inl (by simp only [act, advance, hw])
    | some name =>
      cases hs : r.stage with
      | entered =>
        cases hm : r.lock.value.makeRoom allocate ((r.data.lookup name).getD []) with
        | error e => exact .inl (by simp only [act, advance, hw, hs, hm])
        | ok buffer =>
          exact .inr ⟨.update name fun _ => buffer, by simp only [act, advance, hw, hs, hm]; rfl⟩
      | roomMade =>
        exact .inr ⟨.update name (·.add (r.dataOf name)), by simp only [act, advance, hw, hs]; rfl⟩
      | done result =>
        exact .inr ⟨.endWrite name .inOrder pick, by simp only [act, advance, hw, hs]; rfl⟩
  | finishLook name pick =>
    cases hf : r.lock.reading.lookup name with
    | none => exact .inl (by simp only [act, finishLook, hf])
    | some buffer =>
      exact .inr ⟨.endRead name .inOrder pick, by simp only [act, finishLook, hf]; rfl⟩
  | look name => exact .inr ⟨.read name, rfl⟩
  | retryRead index => exact .inr ⟨.retryRead index, rfl⟩
  | retryWrite index => exact .inr ⟨.retryWrite index, rfl⟩
  | stirReader index => exact .inr ⟨.stirReader index, rfl⟩
  | stirWriter index => exact .inr ⟨.stirWriter index, rfl⟩

theorem act_accounted (h : r.lock.Accounted 0) (action : LogAction ν) :
    (r.act action).1.lock.Accounted 0 := by
  rcases act_lock r action with he | ⟨step, he⟩ <;> rw [he]
  · exact h
  · exact h.act step

/-- A look tells of the buffer that its reader found. -/
theorem looked_cases {action : LogAction ν} {name : ν} {bytes : Bytes} {length : Nat}
    (h : (r.act action).2 = some (.looked name bytes length)) :
    ∃ buffer, (name, buffer) ∈ r.lock.reading ∧ bytes = buffer.bytes ∧ length = bytes.length := by
  cases action with
  | finishLook other pick =>
    cases hf : r.lock.reading.lookup other with
    | none => simp [act, finishLook, hf] at h
    | some buffer =>
      simp only [act, finishLook, hf] at h
      cases h
      obtain ⟨front, back, hsplit, -⟩ := List.lookup_eq_some_iff.mp hf
      exact ⟨buffer, by rw [hsplit]; exact List.mem_append_right _ List.mem_cons_self, rfl, rfl⟩
  | append other data =>
    by_cases hempty : data.isEmpty = true <;> simp [act, append, hempty] at h
  | advance allocate pick =>
    cases hw : r.lock.writing with
    | nil => simp [act, advance, hw] at h
    | cons writer others =>
      simp only [act, advance, hw, List.head?_cons] at h
      cases hs : r.stage with
      | entered =>
        cases hm : r.lock.value.makeRoom allocate ((r.data.lookup writer).getD []) <;>
          simp [hs, hm] at h
      | roomMade | done => simp [hs] at h
  | look | retryRead | retryWrite | stirReader | stirWriter => cases h

/-- The answer to a call that appends is the one that its mark shows. -/
theorem appended_cases {action : LogAction ν} {name : ν} {result : Except AllocationError Unit}
    (h : (r.act action).2 = some (.appended name result)) :
    (action = .append name [] ∧ result = .ok ()) ∨
      r.marks action = [.returned name (r.dataOf name) result] := by
  cases action with
  | append other data =>
    by_cases hempty : data.isEmpty = true
    · simp only [act, append, if_pos hempty] at h
      cases h
      rw [List.isEmpty_iff.mp hempty]
      exact .inl ⟨rfl, rfl⟩
    · simp [act, append, hempty] at h
  | advance allocate pick =>
    change (r.advance allocate pick).2 = _ at h
    refine .inr ?_
    simp only [marks, h]
  | finishLook other pick =>
    cases hf : r.lock.reading.lookup other <;> simp [act, finishLook, hf] at h
  | look | retryRead | retryWrite | stirReader | stirWriter => cases h

/-- The room after a run, in which any threads may take any steps in any order. -/
def after (r : LogRoom ν) : List (LogAction ν) → LogRoom ν
  | [] => r
  | action :: actions => (r.act action).1.after actions

theorem after_append (r : LogRoom ν) (before later : List (LogAction ν)) :
    r.after (before ++ later) = (r.after before).after later := by
  induction before generalizing r with
  | nil => rfl
  | cons action before ih => exact ih (r.act action).1

theorem after_accounted (h : r.lock.Accounted 0) (actions : List (LogAction ν)) :
    (r.after actions).lock.Accounted 0 := by
  induction actions generalizing r with
  | nil => exact h
  | cons action actions ih => exact ih (act_accounted h action)

def history (r : LogRoom ν) : List (LogAction ν) → List (LogMark ν)
  | [] => []
  | action :: actions => r.marks action ++ (r.act action).1.history actions

theorem history_append (r : LogRoom ν) (before later : List (LogAction ν)) :
    r.history (before ++ later) = r.history before ++ (r.after before).history later := by
  induction before generalizing r with
  | nil => rfl
  | cons action before ih =>
    rw [List.cons_append, history, history, ih, List.append_assoc]
    rfl

end LogRoom

end PooledHttp
