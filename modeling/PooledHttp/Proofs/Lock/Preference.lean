import PooledHttp.Proofs.Lock.Exclusion
import PooledHttp.Proofs.Lock.Writers

/-! Writers come first. From the moment at which a writer has asked for access until it leaves, no
reader enters. So a reader that enters finds all the writers gone that had asked before, and the
value that it sees is what all of them have made of it. -/

namespace PooledHttp

variable {ν V : Type}

def LockAction.asked? : LockAction ν V → Option ν
  | .write name => some name
  | _ => none

/-- The calls for write access, by the names of the callers. -/
def askedIn (actions : List (LockAction ν V)) : List ν := actions.filterMap LockAction.asked?

theorem askedIn_cons (action : LockAction ν V) (actions : List (LockAction ν V)) :
    askedIn (action :: actions) = action.asked?.toList ++ askedIn actions := by
  cases action <;> rfl

theorem askedIn_append (before later : List (LockAction ν V)) :
    askedIn (before ++ later) = askedIn before ++ askedIn later := List.filterMap_append

namespace LockRoom

open WriteAccess

variable {r : LockRoom ν V}

theorem enterWrite_writing_le (r : LockRoom ν V) (name : ν) :
    r.writing.length ≤ (r.enterWrite name).writing.length := by
  rcases enterWrite_cases r name with ⟨-, -, he⟩ | ⟨-, he⟩ <;> simp [he]

theorem retryWrite_writing_le (r : LockRoom ν V) (index : Nat) :
    r.writing.length ≤ (r.retryWrite index).writing.length := by
  rcases retryWrite_cases r index with he | ⟨name, -, he⟩
  · exact Nat.le_of_eq (by rw [he])
  · rw [he]
    exact enterWrite_writing_le { r with writersAwake := r.writersAwake.eraseIdx index } name

theorem enterWrite_reading (r : LockRoom ν V) (name : ν) :
    (r.enterWrite name).reading = r.reading := by
  rcases enterWrite_cases r name with ⟨-, -, he⟩ | ⟨-, he⟩ <;> rw [he]

theorem retryWrite_reading (r : LockRoom ν V) (index : Nat) :
    (r.retryWrite index).reading = r.reading := by
  rcases retryWrite_cases r index with he | ⟨name, -, he⟩
  · rw [he]
  · rw [he, enterWrite_reading]

theorem stirReader_reading (r : LockRoom ν V) (index : Nat) :
    (r.stirReader index).reading = r.reading := by
  rcases stirReader_cases r index with he | ⟨name, -, he⟩ <;> rw [he]

theorem read_reading (r : LockRoom ν V) (name : ν) :
    (r.read name).reading = r.reading ∨
    (r.counters.writers = 0 ∧ r.counters.waiting = 0 ∧
      (r.read name).reading = r.reading ++ [(name, r.value)]) := by
  rcases read_cases r name with ⟨hw, hwait, he⟩ | ⟨-, he⟩
  · exact .inr ⟨hw, hwait, by rw [he]⟩
  · exact .inl (by rw [he])

theorem Accounted.writers_eq_nil (h : r.Accounted 0) :
    r.writers = [] ↔ r.counters.writers = 0 ∧ r.counters.waiting = 0 := by
  have hwait := h.waiting_eq
  rw [writers, ← List.length_eq_zero_iff, List.length_append, List.length_append, h.writers_eq]
  omega

variable [DecidableEq ν]

theorem update_reading (r : LockRoom ν V) (name : ν) (change : V → V) :
    (r.update name change).reading = r.reading := by
  rcases update_cases r name change with ⟨-, he⟩ | ⟨-, he⟩ <;> rw [he]

theorem endRead_reading (r : LockRoom ν V) (name : ν) (pick : Nat) :
    (r.endRead name pick).reading.Sublist r.reading := by
  rcases endRead_cases r name pick with he | ⟨value, -, he⟩
  · rw [he]
  · rw [he, signal_reading]
    exact List.eraseP_sublist

theorem endWrite_reading (r : LockRoom ν V) (name : ν) (pick : Nat) :
    (r.endWrite name pick).reading = r.reading := by
  rcases endWrite_cases r name pick with he | ⟨-, he⟩
  · rw [he]
  · rw [he, signal_reading]

/-- A step lets no reader in, or it lets one in where there is no writer. -/
theorem act_reading (r : LockRoom ν V) (action : LockAction ν V) :
    (r.act action).reading.Sublist r.reading ∨
    (r.counters.writers = 0 ∧ r.counters.waiting = 0 ∧
      ∃ reader, (r.act action).reading = r.reading ++ [(reader, r.value)]) := by
  have hsame : (r.act action).reading = r.reading → (r.act action).reading.Sublist r.reading :=
    fun he => he ▸ List.Sublist.refl _
  cases action with
  | read name =>
    rcases read_reading r name with he | ⟨hw, hwait, he⟩
    · exact .inl (hsame he)
    · exact .inr ⟨hw, hwait, name, he⟩
  | retryRead index =>
    rcases retryRead_cases r index with he | ⟨name, -, he⟩
    · exact .inl (hsame (congrArg reading he))
    · have hact : (r.act (.retryRead index)).reading = _ := congrArg reading he
      rcases read_reading { r with readersAwake := r.readersAwake.eraseIdx index } name with
        hin | ⟨hw, hwait, hin⟩
      · exact .inl (hsame (hact.trans hin))
      · exact .inr ⟨hw, hwait, name, hact.trans hin⟩
  | write name => exact .inl (hsame (enterWrite_reading _ name))
  | retryWrite index => exact .inl (hsame (retryWrite_reading r index))
  | update name change => exact .inl (hsame (update_reading r name change))
  | endRead name ending pick => exact .inl (endRead_reading r name pick)
  | endWrite name ending pick => exact .inl (hsame (endWrite_reading r name pick))
  | stirReader index => exact .inl (hsame (stirReader_reading r index))
  | stirWriter index => exact .inl (hsame (stirWriter_reading r index))

/-- The writers inside before a step that are not inside after it. -/
def leavers (r : LockRoom ν V) (action : LockAction ν V) : List ν :=
  r.writing.drop (r.act action).writing.length

def leaving (r : LockRoom ν V) : List (LockAction ν V) → List ν
  | [] => []
  | action :: actions => r.leavers action ++ (r.act action).leaving actions

theorem leavers_none {action : LockAction ν V}
    (hle : r.writing.length ≤ (r.act action).writing.length) : r.leavers action = [] :=
  List.drop_eq_nil_of_le hle

/-- Who has asked for access has it, waits for it or has given it back. -/
theorem act_writers (h : r.Accounted 0) (action : LockAction ν V) :
    (r.leavers action ++ (r.act action).writers).Perm (action.asked?.toList ++ r.writers) := by
  have hquiet : (r.act action).writing = r.writing → r.leavers action = [] := by
    intro hw
    exact leavers_none (Nat.le_of_eq (congrArg List.length hw.symm))
  cases action with
  | read name =>
    rw [hquiet (read_unchanged r name).writing_eq]
    exact .of_eq (read_writers r name)
  | retryRead index =>
    rw [hquiet (retryRead_unchanged r index).writing_eq]
    exact .of_eq (retryRead_writers r index)
  | stirReader index =>
    rw [hquiet (stirReader_unchanged r index).writing_eq]
    exact .of_eq (stirReader_writers r index)
  | stirWriter index =>
    rw [hquiet (stirWriter_writing r index)]
    exact stirWriter_writers r index
  | endRead name ending pick =>
    rw [hquiet (endRead_unchanged r name pick).writing_eq]
    exact endRead_writers r name pick
  | write name =>
    have hle := enterWrite_writing_le { r with counters := r.counters.announceWrite } name
    rw [leavers_none hle]
    exact write_writers r name
  | retryWrite index =>
    rw [leavers_none (retryWrite_writing_le r index)]
    exact retryWrite_writers r index
  | update name change =>
    have he : (r.update name change).writing = r.writing ∧
        (r.update name change).writers = r.writers := by
      rcases update_cases r name change with ⟨-, he⟩ | ⟨-, he⟩ <;> rw [he] <;> exact ⟨rfl, rfl⟩
    rw [hquiet he.1]
    exact .of_eq he.2
  | endWrite name ending pick =>
    rcases endWrite_cases r name pick with he | ⟨hmem, -⟩
    · rw [hquiet (congrArg writing he)]
      exact .of_eq (congrArg writers he)
    · have hone := h.writing_eq hmem
      obtain ⟨-, hout, hperm⟩ := endWrite_left hone pick
      have hleft : r.leavers (.endWrite name ending pick) = [name] := by
        rw [leavers, hone]
        change [name].drop (r.endWrite name pick).writing.length = [name]
        rw [hout]
        rfl
      rw [hleft]
      exact hperm.symm

theorem after_append (r : LockRoom ν V) (before later : List (LockAction ν V)) :
    r.after (before ++ later) = (r.after before).after later := by
  induction before generalizing r with
  | nil => rfl
  | cons action before ih => exact ih (r.act action)

theorem after_writers (h : r.Accounted 0) (actions : List (LockAction ν V)) :
    (r.leaving actions ++ (r.after actions).writers).Perm (askedIn actions ++ r.writers) := by
  induction actions generalizing r with
  | nil => exact .rfl
  | cons action actions ih =>
    have hstep := act_writers h action
    have hrest := ih (h.act action)
    rw [List.perm_iff_count] at hstep hrest ⊢
    intro name
    have hs := hstep name
    have hr := hrest name
    rw [leaving, after, askedIn_cons]
    simp only [List.count_append] at hs hr ⊢
    omega

theorem reading_sublist (h : r.Accounted 0) (hne : r.writers ≠ []) (action : LockAction ν V) :
    (r.act action).reading.Sublist r.reading := by
  rcases act_reading r action with hs | ⟨hw, hwait, -⟩
  · exact hs
  · exact absurd (h.writers_eq_nil.mpr ⟨hw, hwait⟩) hne

/-- As long as not all of a name have left that had asked, one of them is still there. -/
theorem count_writers_pos (h : r.Accounted 0) {name : ν} {later : List (LockAction ν V)}
    (hlt : (r.leaving later).count name < r.writers.count name) :
    0 < (r.after later).writers.count name := by
  have hcount := (after_writers h later).count_eq name
  rw [List.count_append, List.count_append] at hcount
  omega

theorem after_reading_sublist (h : r.Accounted 0) {name : ν} {later : List (LockAction ν V)}
    (hlt : (r.leaving later).count name < r.writers.count name) :
    (r.after later).reading.Sublist r.reading := by
  induction later generalizing r with
  | nil => exact List.Sublist.refl _
  | cons action later ih =>
    have hne : r.writers ≠ [] := by
      intro hnil
      rw [hnil, List.count_nil] at hlt
      exact Nat.not_lt_zero _ hlt
    have hcount := (act_writers h action).count_eq name
    rw [leaving, List.count_append] at hlt
    rw [List.count_append, List.count_append] at hcount
    have hlater : ((r.act action).leaving later).count name < (r.act action).writers.count name := by
      omega
    exact (ih (h.act action) hlater).trans (reading_sublist h hne action)

/-! Each call for access is answered by one access, under the same name. -/

theorem note_names (name : ν) (change : V → V) (accesses : List (WriteAccess ν V)) :
    (note name change accesses).map WriteAccess.name = accesses.map WriteAccess.name := by
  induction accesses with
  | nil => rfl
  | cons access earlier ih =>
    by_cases hname : access.name = name
    · rw [note, if_pos hname]
      rfl
    · rw [note, if_neg hname, List.map_cons, List.map_cons, ih]

theorem record_names (h : r.Accounted 0) (action : LockAction ν V)
    (accesses : List (WriteAccess ν V)) {left : List ν}
    (hn : (accesses.map WriteAccess.name).Perm (left ++ r.writing)) :
    ((r.record action accesses).map WriteAccess.name).Perm
      (left ++ r.leavers action ++ (r.act action).writing) := by
  have ht := h.turn action
  have hstay : (r.act action).writing = r.writing →
      (accesses.map WriteAccess.name).Perm (left ++ r.leavers action ++ (r.act action).writing) := by
    intro hw
    rw [leavers_none (Nat.le_of_eq (congrArg List.length hw.symm)), hw, List.append_nil]
    exact hn
  generalize hnext : r.act action = next at ht
  cases ht with
  | aside ha hstill hu =>
    rw [record_kept (hnext ▸ hu.writing_eq) hstill, ← hnext]
    exact hstay (hnext ▸ hu.writing_eq)
  | asked hv hw hwait =>
    rw [record_kept (hnext ▸ hw) nofun, ← hnext]
    exact hstay (hnext ▸ hw)
  | entered name ha hv hnil hw hwait =>
    have hnone : r.leavers action = [] := by rw [leavers, hnil, List.drop_nil]
    rw [hnil, List.append_nil] at hn
    rw [record_entered ha hnil (hnext ▸ hw), hnone, hw, List.append_nil, List.map_cons]
    exact (hn.cons name).trans (List.perm_append_singleton name left).symm
  | @changed name change hmem =>
    rw [record, if_pos hmem, note_names, ← hnext]
    exact hstay (by rw [hnext])
  | @left name ending pick next hv hw hwait =>
    have hall : r.leavers (.endWrite name ending pick) = r.writing := by
      rw [leavers, hnext, hw]
      rfl
    rw [record_left (hnext ▸ hw), hall, hw, List.append_nil]
    exact hn

theorem accesses_names (h : r.Accounted 0) {sofar : List (WriteAccess ν V)} {left : List ν}
    (hn : (sofar.map WriteAccess.name).Perm (left ++ r.writing)) (actions : List (LockAction ν V)) :
    ((r.accesses sofar actions).map WriteAccess.name).Perm
      (left ++ r.leaving actions ++ (r.after actions).writing) := by
  induction actions generalizing r sofar left with
  | nil =>
    rw [leaving, List.append_nil]
    exact hn
  | cons action actions ih =>
    have hrest := ih (h.act action) (record_names h action sofar hn)
    rw [leaving, ← List.append_assoc]
    exact hrest

/-- In every run: from the step in which a writer asks for access until the step in which it leaves,
no reader enters. A name may stand for several calls; then this goes on until as many of the name
have left as had asked. Wherever the number of readers rises, one reader enters and sees the value
as it is, nobody has access or waits for it, and that value is what the accesses have made of the
first one. Each call for access so far is among them, so whoever asked before the reader entered has
made its changes. -/
theorem run_writers_preferred (start : V) (name : ν) (before later : List (LockAction ν V)) :
    let actions := before ++ .write name :: later
    let last := (around start).after before
    let asked := last.act (.write name)
    let room := (around start).after actions
    let accesses := (around start).accesses [] actions
    asked.reading = last.reading ∧ name ∈ asked.writers ∧
    ((asked.leaving later).count name < asked.writers.count name →
      room.reading.Sublist last.reading ∧
      ∀ action, (room.act action).reading.Sublist room.reading ∧
        (room.act action).counters.readers ≤ room.counters.readers) ∧
    ∀ action, room.counters.readers < (room.act action).counters.readers →
      asked.writers.count name ≤ (asked.leaving later).count name ∧
      room.writers = [] ∧
      (∃ reader, (room.act action).reading = room.reading ++ [(reader, room.value)]) ∧
      room.value = replay start accesses ∧
      (accesses.map WriteAccess.name).Perm (askedIn actions) := by
  intro actions last asked room accesses
  have hstart : (around start : LockRoom ν V).Accounted 0 := accounted_around start
  have hlast : last.Accounted 0 := hstart.after before
  have hasked : asked.Accounted 0 := hlast.act (.write name)
  have h : room.Accounted 0 := hstart.after actions
  have hroom : room = asked.after later := after_append _ before (.write name :: later)
  have hreading : asked.reading = last.reading := enterWrite_reading _ name
  have hbusy : (asked.leaving later).count name < asked.writers.count name → room.writers ≠ [] := by
    intro hlt hnil
    have hpos := count_writers_pos hasked hlt
    rw [← hroom, hnil] at hpos
    exact Nat.lt_irrefl 0 hpos
  refine ⟨hreading, ?_, ?_, ?_⟩
  · exact (write_writers last name).mem_iff.mpr List.mem_cons_self
  · intro hlt
    have hsub := after_reading_sublist hasked hlt
    rw [← hroom, hreading] at hsub
    refine ⟨hsub, ?_⟩
    intro action
    have hstep := reading_sublist h (hbusy hlt) action
    refine ⟨hstep, ?_⟩
    rw [h.readers_eq, (h.act action).readers_eq]
    exact hstep.length_le
  · intro action hmore
    rw [h.readers_eq, (h.act action).readers_eq] at hmore
    rcases act_reading room action with hsub | ⟨hw, hwait, hin⟩
    · exact absurd hsub.length_le (Nat.not_le.mpr hmore)
    · have hnil : room.writers = [] := h.writers_eq_nil.mpr ⟨hw, hwait⟩
      have hout : room.writing = [] := (List.append_eq_nil_iff.mp hnil).1
      have hvalue : Recorded start accesses room :=
        Recorded.accesses hstart ⟨rfl, fun _ hmem => by cases hmem⟩ actions
      have hnone : (([] : List (WriteAccess ν V)).map WriteAccess.name).Perm
          ([] ++ (around start : LockRoom ν V).writing) := .nil
      have hnames : (accesses.map WriteAccess.name).Perm
          ([] ++ (around start).leaving actions ++ room.writing) := accesses_names hstart hnone actions
      have hleft : ((around start).leaving actions ++ room.writers).Perm (askedIn actions ++ []) :=
        after_writers hstart actions
      rw [hout, List.append_nil, List.nil_append] at hnames
      rw [hnil, List.append_nil, List.append_nil] at hleft
      refine ⟨?_, hnil, hin, hvalue.value_eq, hnames.trans hleft⟩
      by_contra hlt
      exact hbusy (Nat.not_le.mp hlt) hnil

/-- A reader is inside, a writer asks, another reader comes: it has to wait, and sees what the
writer has made of the value. -/
theorem run_writers_preferred_reader_behind :
    let before : List (LockAction Nat Nat) := [.read 1]
    let later : List (LockAction Nat Nat) :=
      [.read 3, .endRead 1 .inOrder 0, .retryWrite 0, .update 2 (· + 5), .endWrite 2 .inOrder 0]
    let room := (around 0).after (before ++ .write 2 :: later)
    (room.act (.retryRead 0)).reading = [(3, 5)] ∧ room.writers = [] ∧
      ∃ accesses, room.value = replay 0 accesses ∧ (accesses.map WriteAccess.name).Perm [2] := by
  intro before later room
  obtain ⟨-, -, -, hmore⟩ := run_writers_preferred 0 2 before later
  obtain ⟨-, hnil, -, hvalue, hnames⟩ := hmore (.retryRead 0) (by decide)
  exact ⟨by decide, hnil, _, hvalue, hnames⟩

end LockRoom

end PooledHttp
