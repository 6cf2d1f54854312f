import PooledHttp.Proofs.Lock.Accounts

/-! Writers exclude each other and the readers. So the value is what the changes make of the first
one, taken access by access in the order of entry, and it stands still while a reader is inside. -/

namespace PooledHttp

variable {ν V : Type}

/-- The stay of a writer inside, with the changes that it has made so far. -/
structure WriteAccess (ν V : Type) where
  name : ν
  changes : List (V → V)

namespace WriteAccess

/-- What the accesses, the latest first, make of a value. -/
def replay (value : V) : List (WriteAccess ν V) → V
  | [] => value
  | access :: earlier => access.changes.foldl (fun v change => change v) (replay value earlier)

/-- Adds a change to the latest access of a writer. -/
def note [DecidableEq ν] (name : ν) (change : V → V) :
    List (WriteAccess ν V) → List (WriteAccess ν V)
  | [] => []
  | access :: earlier =>
    if access.name = name then { access with changes := access.changes ++ [change] } :: earlier
    else access :: note name change earlier

end WriteAccess

def LockAction.asksWrite : LockAction ν V → Bool
  | .write _ => true
  | _ => false

namespace LockRoom

open WriteAccess

structure Unchanged (r next : LockRoom ν V) : Prop where
  value_eq : next.value = r.value
  writing_eq : next.writing = r.writing
  waiting_eq : next.counters.waiting = r.counters.waiting

theorem read_unchanged (r : LockRoom ν V) (name : ν) : Unchanged r (r.read name) := by
  rcases read_cases r name with ⟨-, -, he⟩ | ⟨-, he⟩ <;> rw [he] <;> exact ⟨rfl, rfl, rfl⟩

theorem retryRead_unchanged (r : LockRoom ν V) (index : Nat) : Unchanged r (r.retryRead index) := by
  rcases retryRead_cases r index with he | ⟨name, -, he⟩
  · rw [he]
    exact ⟨rfl, rfl, rfl⟩
  · have hh := read_unchanged { r with readersAwake := r.readersAwake.eraseIdx index } name
    rw [he]
    exact ⟨hh.value_eq, hh.writing_eq, hh.waiting_eq⟩

theorem stirReader_unchanged (r : LockRoom ν V) (index : Nat) :
    Unchanged r (r.stirReader index) := by
  rcases stirReader_cases r index with he | ⟨name, -, he⟩ <;> rw [he] <;> exact ⟨rfl, rfl, rfl⟩

theorem stirWriter_unchanged (r : LockRoom ν V) (index : Nat) :
    Unchanged r (r.stirWriter index) :=
  ⟨stirWriter_value r index, stirWriter_writing r index,
    congrArg LockCounters.waiting (stirWriter_counters r index)⟩

theorem endRead_unchanged [DecidableEq ν] (r : LockRoom ν V) (name : ν) (pick : Nat) :
    Unchanged r (r.endRead name pick) := by
  rcases endRead_cases r name pick with he | ⟨value, -, he⟩
  · rw [he]
    exact ⟨rfl, rfl, rfl⟩
  · rw [he]
    exact ⟨by rw [signal_value], by rw [signal_writing], by rw [signal_counters]⟩

variable {r : LockRoom ν V} {running : Nat}

/-- A writer that comes in finds no other inside. -/
theorem Accounted.enterWrite_writing (h : r.Accounted running) (name : ν) :
    (r.enterWrite name).value = r.value ∧
    (((r.enterWrite name).writing = r.writing ∧
        (r.enterWrite name).counters.waiting = r.counters.waiting) ∨
      (r.writing = [] ∧ (r.enterWrite name).writing = [name] ∧
        (r.enterWrite name).counters.waiting = r.counters.waiting - 1)) := by
  rcases enterWrite_cases r name with ⟨-, hw, he⟩ | ⟨-, he⟩
  · have hnil : r.writing = [] := by
      rw [← List.length_eq_zero_iff, ← h.writers_eq, hw]
    rw [he]
    exact ⟨rfl, .inr ⟨hnil, by rw [hnil, List.nil_append], rfl⟩⟩
  · rw [he]
    exact ⟨rfl, .inl ⟨rfl, rfl⟩⟩

variable [DecidableEq ν]

/-- The writers inside after a step that were not inside before. -/
def entrants (r : LockRoom ν V) (action : LockAction ν V) : List ν :=
  (r.act action).writing.drop r.writing.length

/-- What a step is to the writers and to the value. -/
inductive Turn (r : LockRoom ν V) : LockAction ν V → LockRoom ν V → Prop
  | aside {action next} (ha : action.asksWrite = false)
    (hn : ∀ name change, action = .update name change → name ∉ r.writing)
    (hu : Unchanged r next) : Turn r action next
  | asked {name next} (hv : next.value = r.value) (hw : next.writing = r.writing)
    (hwait : next.counters.waiting = r.counters.waiting + 1) : Turn r (.write name) next
  | entered {action next} (name : ν)
    (ha : action = .write name ∨
      ∃ index, action = .retryWrite index ∧ r.writersAwake[index]? = some name)
    (hv : next.value = r.value) (hnil : r.writing = []) (hw : next.writing = [name])
    (hwait : next.counters.waiting + 1 =
      r.counters.waiting + if action.asksWrite then 1 else 0) : Turn r action next
  | changed {name change} (hmem : name ∈ r.writing) :
    Turn r (.update name change) { r with value := change r.value }
  | left {name ending pick next} (hv : next.value = r.value) (hw : next.writing = [])
    (hwait : next.counters.waiting = r.counters.waiting) : Turn r (.endWrite name ending pick) next

theorem Accounted.turn (h : r.Accounted 0) (action : LockAction ν V) :
    Turn r action (r.act action) := by
  cases action with
  | read name => exact .aside rfl nofun (read_unchanged r name)
  | write name =>
    obtain ⟨hv, ⟨hw, hwait⟩ | ⟨hnil, hw, hwait⟩⟩ := h.announce.enterWrite_writing name
    · exact .asked hv hw hwait
    · exact .entered name (.inl rfl) hv hnil hw (congrArg (· + 1) hwait)
  | retryRead index => exact .aside rfl nofun (retryRead_unchanged r index)
  | retryWrite index =>
    change Turn r _ (r.retryWrite index)
    rcases retryWrite_cases r index with he | ⟨name, hi, he⟩
    · rw [he]
      exact .aside rfl nofun ⟨rfl, rfl, rfl⟩
    · have hrun := h.wakeWriter hi
      have hpos : 0 < r.counters.waiting := by
        have hwait : r.counters.waiting = _ := hrun.waiting_eq
        omega
      rw [he]
      obtain ⟨hv, ⟨hw, hwait⟩ | ⟨hnil, hw, hwait⟩⟩ := hrun.enterWrite_writing name
      · exact .aside rfl nofun ⟨hv, hw, hwait⟩
      · refine .entered name (.inr ⟨index, rfl, hi⟩) hv hnil hw ?_
        rw [hwait]
        exact Nat.sub_add_cancel hpos
  | update name change =>
    change Turn r _ (r.update name change)
    rcases update_cases r name change with ⟨hmem, he⟩ | ⟨hmem, he⟩
    · rw [he]
      refine .aside rfl ?_ ⟨rfl, rfl, rfl⟩
      rintro _ _ ⟨⟩
      exact hmem
    · rw [he]
      exact .changed hmem
  | endRead name ending pick => exact .aside rfl nofun (endRead_unchanged r name pick)
  | endWrite name ending pick =>
    change Turn r _ (r.endWrite name pick)
    rcases endWrite_cases r name pick with he | ⟨hmem, he⟩
    · rw [he]
      exact .aside rfl nofun ⟨rfl, rfl, rfl⟩
    · have hout : r.writing.erase name = [] := by
        rw [h.writing_eq hmem, List.erase_cons_head]
      rw [he]
      exact .left (by rw [signal_value]) (by rw [signal_writing, hout]) (by rw [signal_counters])
  | stirReader index => exact .aside rfl nofun (stirReader_unchanged r index)
  | stirWriter index => exact .aside rfl nofun (stirWriter_unchanged r index)

/-- The accesses so far, the latest first, carried on over a step. -/
def record (r : LockRoom ν V) (action : LockAction ν V) (accesses : List (WriteAccess ν V)) :
    List (WriteAccess ν V) :=
  match action with
  | .update name change => if name ∈ r.writing then note name change accesses else accesses
  | action => (r.entrants action).map (⟨·, []⟩) ++ accesses

def accesses (r : LockRoom ν V) (sofar : List (WriteAccess ν V)) :
    List (LockAction ν V) → List (WriteAccess ν V)
  | [] => sofar
  | action :: actions => (r.act action).accesses (r.record action sofar) actions

theorem record_kept {action : LockAction ν V} {accesses : List (WriteAccess ν V)}
    (hw : (r.act action).writing = r.writing)
    (hn : ∀ name change, action = .update name change → name ∉ r.writing) :
    r.record action accesses = accesses := by
  have hnone : r.entrants action = [] := by
    rw [entrants, hw, List.drop_length]
  cases action with
  | update name change => exact if_neg (hn name change rfl)
  | _ => simp only [record, hnone, List.map_nil, List.nil_append]

theorem record_entered {action : LockAction ν V} {accesses : List (WriteAccess ν V)} {name : ν}
    (ha : action = .write name ∨
      ∃ index, action = .retryWrite index ∧ r.writersAwake[index]? = some name)
    (hnil : r.writing = []) (hw : (r.act action).writing = [name]) :
    r.record action accesses = ⟨name, []⟩ :: accesses := by
  have hone : r.entrants action = [name] := by
    rw [entrants, hw, hnil, List.length_nil, List.drop_zero]
  rcases ha with rfl | ⟨index, rfl, -⟩ <;> simp only [record, hone] <;> rfl

theorem record_left {name : ν} {ending : Ending} {pick : Nat}
    {accesses : List (WriteAccess ν V)} (hw : (r.act (.endWrite name ending pick)).writing = []) :
    r.record (.endWrite name ending pick) accesses = accesses := by
  simp only [record, entrants, hw, List.drop_nil, List.map_nil, List.nil_append]

/-- The accesses tell the value, and the latest is that of the writer inside. -/
structure Recorded (start : V) (accesses : List (WriteAccess ν V)) (r : LockRoom ν V) : Prop where
  value_eq : r.value = replay start accesses
  latest : ∀ name ∈ r.writing, ∃ changes earlier, accesses = ⟨name, changes⟩ :: earlier

theorem Recorded.act {start : V} {accesses : List (WriteAccess ν V)} (h : r.Accounted 0)
    (hr : Recorded start accesses r) (action : LockAction ν V) :
    Recorded start (r.record action accesses) (r.act action) := by
  have ht := h.turn action
  generalize hnext : r.act action = next at ht
  cases ht with
  | aside ha hn hu =>
    rw [record_kept (hnext ▸ hu.writing_eq) hn]
    exact ⟨hu.value_eq.trans hr.value_eq, hu.writing_eq ▸ hr.latest⟩
  | asked hv hw hwait =>
    rw [record_kept (hnext ▸ hw) nofun]
    exact ⟨hv.trans hr.value_eq, hw ▸ hr.latest⟩
  | entered name ha hv hnil hw hwait =>
    rw [record_entered ha hnil (hnext ▸ hw)]
    refine ⟨hv.trans hr.value_eq, ?_⟩
    intro other hmem
    rw [hw, List.mem_singleton] at hmem
    exact ⟨[], accesses, by rw [hmem]⟩
  | @changed name change hmem =>
    obtain ⟨changes, earlier, he⟩ := hr.latest name hmem
    have hv := hr.value_eq
    have hnote : r.record (.update name change) accesses =
        ⟨name, changes ++ [change]⟩ :: earlier := by
      rw [record, if_pos hmem, he, note, if_pos rfl]
    rw [hnote]
    refine ⟨?_, ?_⟩
    · rw [he, replay] at hv
      rw [replay, List.foldl_concat, ← hv]
    · -- the writer inside is alone, so the latest access is the one that has just grown
      intro other hother
      rw [h.writing_eq hmem, List.mem_singleton] at hother
      exact ⟨_, _, by rw [hother]⟩
  | left hv hw hwait =>
    rw [record_left (hnext ▸ hw)]
    refine ⟨hv.trans hr.value_eq, ?_⟩
    intro other hmem
    rw [hw] at hmem
    cases hmem

theorem note_length (name : ν) (change : V → V) (accesses : List (WriteAccess ν V)) :
    (note name change accesses).length = accesses.length := by
  induction accesses with
  | nil => rfl
  | cons access earlier ih =>
    by_cases hname : access.name = name
    · rw [note, if_pos hname, List.length_cons, List.length_cons]
    · rw [note, if_neg hname, List.length_cons, List.length_cons, ih]

/-- A call for write access counts once: it waits, or it has been let in. -/
theorem waiting_add_record (h : r.Accounted 0) (action : LockAction ν V)
    (accesses : List (WriteAccess ν V)) :
    (r.act action).counters.waiting + (r.record action accesses).length =
      r.counters.waiting + accesses.length + if action.asksWrite then 1 else 0 := by
  have ht := h.turn action
  generalize hnext : r.act action = next at ht
  cases ht with
  | aside ha hn hu =>
    rw [record_kept (hnext ▸ hu.writing_eq) hn, hu.waiting_eq, if_neg (by simp [ha]), Nat.add_zero]
  | asked hv hw hwait =>
    rw [record_kept (hnext ▸ hw) nofun, hwait, LockAction.asksWrite, if_pos rfl]
    omega
  | entered name ha hv hnil hw hwait =>
    rw [record_entered ha hnil (hnext ▸ hw), List.length_cons]
    omega
  | changed hmem =>
    rw [record, if_pos hmem, note_length]
    rfl
  | left hv hw hwait =>
    rw [record_left (hnext ▸ hw), hwait]
    rfl

theorem Recorded.accesses {start : V} {sofar : List (WriteAccess ν V)} (h : r.Accounted 0)
    (hr : Recorded start sofar r) (actions : List (LockAction ν V)) :
    Recorded start (r.accesses sofar actions) (r.after actions) := by
  induction actions generalizing r sofar with
  | nil => exact hr
  | cons action actions ih => exact ih (h.act action) (hr.act h action)

theorem waiting_add_accesses (h : r.Accounted 0) (sofar : List (WriteAccess ν V))
    (actions : List (LockAction ν V)) :
    (r.after actions).counters.waiting + (r.accesses sofar actions).length =
      r.counters.waiting + sofar.length + actions.countP (·.asksWrite) := by
  induction actions generalizing r sofar with
  | nil => rfl
  | cons action actions ih =>
    have hstep := waiting_add_record h action sofar
    rw [after, LockRoom.accesses, ih (h.act action), hstep, List.countP_cons]
    omega

theorem Accounted.act_value (h : r.Accounted 0) (hread : r.reading ≠ [])
    (action : LockAction ν V) : (r.act action).value = r.value := by
  have ht := h.turn action
  generalize r.act action = next at ht
  cases ht with
  | aside ha hn hu => exact hu.value_eq
  | asked hv hw hwait => exact hv
  | entered name ha hv hnil hw hwait => exact hv
  | changed hmem => exact absurd (h.apart.resolve_right hread) (List.ne_nil_of_mem hmem)
  | left hv hw hwait => exact hv

/-- In every run the counters are those inside and those who wait, so that no count goes below
nothing; a writer is inside alone; and the value is what the accesses have made of the first one in
the order of entry. While a reader is inside it is the value that the reader found. An access that
fails ends like any other. -/
theorem run_exclusive (start : V) (actions : List (LockAction ν V)) :
    let room := (around start).after actions
    let accesses := (around start).accesses [] actions
    room.counters.readers = room.reading.length ∧
    room.counters.writers = room.writing.length ∧
    room.counters.writers ≤ 1 ∧
    (room.counters.readers = 0 ∨ room.counters.writers = 0) ∧
    room.counters.waiting = room.writersAsleep.length + room.writersAwake.length ∧
    room.counters.waiting + accesses.length = actions.countP (·.asksWrite) ∧
    (room.reading ≠ [] → 0 < room.counters.readers) ∧
    (room.writersAwake ≠ [] → 0 < room.counters.waiting) ∧
    room.value = replay start accesses ∧
    (∀ name ∈ room.writing, ∃ changes earlier, accesses = ⟨name, changes⟩ :: earlier) ∧
    (∀ p ∈ room.reading, p.2 = room.value) ∧
    (room.reading ≠ [] → ∀ action, (room.act action).value = room.value) ∧
    (∀ name pick, room.act (.endRead name .unwinding pick) =
      room.act (.endRead name .inOrder pick)) ∧
    ∀ name pick, room.act (.endWrite name .unwinding pick) =
      room.act (.endWrite name .inOrder pick) := by
  intro room accesses
  have hstart : (around start : LockRoom ν V).Accounted 0 := accounted_around start
  have h : room.Accounted 0 := hstart.after actions
  have hr : Recorded start accesses room :=
    Recorded.accesses hstart ⟨rfl, fun _ hmem => by cases hmem⟩ actions
  have hcalls : room.counters.waiting + accesses.length = actions.countP (·.asksWrite) := by
    have hh := waiting_add_accesses hstart [] actions
    have hfree : (around start : LockRoom ν V).counters.waiting = 0 := rfl
    rwa [hfree, List.length_nil, Nat.zero_add] at hh
  have hapart : room.counters.readers = 0 ∨ room.counters.writers = 0 := by
    rw [h.readers_eq, h.writers_eq, List.length_eq_zero_iff, List.length_eq_zero_iff]
    exact h.apart.symm
  refine ⟨h.readers_eq, h.writers_eq, h.writers_eq ▸ h.writing_le, hapart, h.waiting_eq, hcalls,
    ?_, ?_, hr.value_eq, hr.latest, h.found, h.act_value, fun _ _ => rfl, fun _ _ => rfl⟩
  · intro hread
    rw [h.readers_eq]
    exact List.length_pos_iff.mpr hread
  · intro hawake
    have hwait := h.waiting_eq
    have hpos := List.length_pos_iff.mpr hawake
    omega

end LockRoom

end PooledHttp
