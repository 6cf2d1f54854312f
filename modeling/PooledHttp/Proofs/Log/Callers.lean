import PooledHttp.Proofs.Log.Order

/-! What a step around the log is to those who call: one comes in with data, one who brings none is
answered at once, one is answered by a look, one gives access back and is answered, or nothing of the
kind happens. -/

namespace PooledHttp

namespace LogRoom

open LogMark

variable {ν : Type} [DecidableEq ν]

/-- A step, with the answer that it gives. -/
inductive Progress (r : LogRoom ν) (action : LogAction ν) :
    Option (LogEvent ν) → LogRoom ν → Prop
  | aside {next : LogRoom ν} (hd : next.data = r.data) (hm : returnedIn (r.marks action) = []) :
    Progress r action none next
  | asked {name : ν} {data : Bytes} {next : LogRoom ν} (ha : action = .append name data)
    (hne : data ≠ []) (hd : next.data = r.data ++ [(name, data)])
    (hm : returnedIn (r.marks action) = []) : Progress r action none next
  | passed {name : ν} (ha : action = .append name []) (hm : returnedIn (r.marks action) = []) :
    Progress r action (some (.appended name (.ok ()))) r
  | looked {name : ν} {bytes : Bytes} {length : Nat} {next : LogRoom ν} (hd : next.data = r.data)
    (hm : returnedIn (r.marks action) = []) :
    Progress r action (some (.looked name bytes length)) next
  | returned {name : ν} {result : Except AllocationError Unit} {next : LogRoom ν}
    (hw : r.lock.writing = [name]) (hd : next.data = r.data.eraseP (·.1 = name))
    (hm : returnedIn (r.marks action) = [⟨name, r.dataOf name, result⟩]) :
    Progress r action (some (.appended name result)) next

variable {r : LogRoom ν}

theorem returnedIn_entering (r next : LogRoom ν) : returnedIn (r.entering next) = [] := by
  refine List.filterMap_eq_nil_iff.mpr fun mark hmem => ?_
  obtain ⟨name, -, rfl⟩ := List.mem_map.mp hmem
  rfl

theorem append_progress (r : LogRoom ν) (name : ν) (data : Bytes) :
    Progress r (.append name data) (r.append name data).2 (r.append name data).1 := by
  by_cases hempty : data.isEmpty = true
  · have hnil := List.isEmpty_iff.mp hempty
    simp only [append, if_pos hempty]
    exact .passed (by rw [hnil]) (by rw [marks, if_pos hempty]; rfl)
  · simp only [append, if_neg hempty]
    refine .asked rfl (fun he => hempty (List.isEmpty_iff.mpr he)) rfl ?_
    rw [marks, if_neg hempty]
    exact returnedIn_entering r _

theorem advance_progress (h : r.lock.Accounted 0) (allocate : Allocator) (pick : Nat) :
    Progress r (.advance allocate pick) (r.advance allocate pick).2 (r.advance allocate pick).1 := by
  cases hw : r.lock.writing with
  | nil =>
    have hstays : r.advance allocate pick = (r, none) := by simp only [advance, hw, List.head?_nil]
    rw [hstays]
    exact .aside rfl (by simp only [marks, hstays]; rfl)
  | cons name others =>
    have hone : r.lock.writing = [name] := h.writing_eq (hw ▸ List.mem_cons_self)
    cases hs : r.stage with
    | entered =>
      have hquiet : (r.advance allocate pick).2 = none ∧ (r.advance allocate pick).1.data = r.data := by
        simp only [advance, hw, List.head?_cons, hs]
        cases r.lock.value.makeRoom allocate ((r.data.lookup name).getD []) <;> exact ⟨rfl, rfl⟩
      rw [hquiet.1]
      exact .aside hquiet.2 (by simp only [marks, hquiet.1]; rfl)
    | roomMade =>
      have hquiet : (r.advance allocate pick).2 = none ∧ (r.advance allocate pick).1.data = r.data := by
        constructor <;> simp only [advance, hw, List.head?_cons, hs]
      rw [hquiet.1]
      exact .aside hquiet.2 (by simp only [marks, hquiet.1]; rfl)
    | done result =>
      have hends : (r.advance allocate pick).2 = some (.appended name result) ∧
          (r.advance allocate pick).1.data = r.data.eraseP (·.1 = name) := by
        constructor <;> simp only [advance, hw, List.head?_cons, hs]
      rw [hends.1]
      exact .returned hone hends.2 (by simp only [marks, hends.1]; rfl)

theorem act_progress (h : r.lock.Accounted 0) (action : LogAction ν) :
    Progress r action (r.act action).2 (r.act action).1 := by
  cases action with
  | append name data => exact append_progress r name data
  | advance allocate pick => exact advance_progress h allocate pick
  | finishLook name pick =>
    cases hf : r.lock.reading.lookup name with
    | none =>
      simp only [act, finishLook, hf]
      exact .aside rfl rfl
    | some buffer =>
      simp only [act, finishLook, hf]
      exact .looked rfl rfl
  | retryWrite index => exact .aside rfl (returnedIn_entering r _)
  | look | retryRead | stirReader | stirWriter => exact .aside rfl rfl

end LogRoom

end PooledHttp
