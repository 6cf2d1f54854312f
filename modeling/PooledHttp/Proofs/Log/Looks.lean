import PooledHttp.Proofs.Lock.Preference
import PooledHttp.Proofs.Lock.WakeUps
import PooledHttp.Proofs.Log.Order

/-! How long a look has to wait. It waits for every append that has been called and has not returned,
and those that are called while it waits go first as well. So its wait is bounded by what was under
way when it was called only as long as no append is called after it. -/

namespace PooledHttp

variable {ν V : Type}

namespace LockRoom

theorem write_busy {r : LockRoom ν V} (h : 0 < r.counters.writers) (name : ν) :
    r.write name =
      { r with
        counters := r.counters.announceWrite
        writersAsleep := r.writersAsleep ++ [name] } := by
  rcases enterWrite_cases { r with counters := r.counters.announceWrite } name with
    ⟨-, hw, -⟩ | ⟨-, he⟩
  · change r.counters.writers = 0 at hw
    omega
  · exact he

theorem retryWrite_readersAsleep (r : LockRoom ν V) (index : Nat) :
    (r.retryWrite index).readersAsleep = r.readersAsleep := by
  rcases retryWrite_cases r index with he | ⟨name, -, he⟩
  · rw [he]
  · rw [he]
    rcases enterWrite_cases { r with writersAwake := r.writersAwake.eraseIdx index } name with
      ⟨-, -, hin⟩ | ⟨-, hin⟩ <;> rw [hin]

/-- The signal of a writer that leaves may reach the one that has slept least. -/
theorem endWrite_last [DecidableEq ν] {r : LockRoom ν V} {name other : ν} {front : List ν}
    (hw : r.writing = [name]) (hwait : 0 < r.counters.waiting)
    (hasleep : r.writersAsleep = front ++ [other]) :
    r.endWrite name front.length =
      { r with
        counters := { r.counters with writers := 0 }
        writing := []
        writersAsleep := front
        writersAwake := r.writersAwake ++ [other] } := by
  have hmem : name ∈ r.writing := hw ▸ List.mem_singleton_self name
  have hpick : front.length % (front ++ [other]).length = front.length := by
    rw [List.length_append, List.length_singleton]
    exact Nat.mod_eq_of_lt (Nat.lt_succ_self _)
  have hgone : (front ++ [other]).eraseIdx front.length = front := by
    rw [List.eraseIdx_append_of_length_le (Nat.le_refl _), Nat.sub_self]
    exact List.append_nil front
  have hlast : (front ++ [other])[front.length]? = some other := List.getElem?_concat_length
  rw [endWrite, if_pos hmem]
  simp only [LockCounters.leaveWrite, if_pos hwait, signal, hasleep, hpick, stirWriter, hlast, hgone,
    hw, List.erase_cons_head]

/-- A newcomer finds a writer inside, is awakened when that one leaves, and comes in. -/
theorem Accounted.succession [DecidableEq ν] {r : LockRoom ν V} (h : r.Accounted 0) {name : ν}
    (hw : r.writing = [name]) (other : ν) (value : V) :
    let asked := r.write other
    let left := { asked with value }.endWrite name r.writersAsleep.length
    let next := left.retryWrite r.writersAwake.length
    asked.writing = [name] ∧ left.writing = [] ∧ next.writing = [other] ∧
      next.readersAsleep = r.readersAsleep := by
  intro asked left next
  have hbusy : 0 < r.counters.writers := by
    rw [h.writers_eq, hw]
    exact Nat.zero_lt_one
  have hread : r.counters.readers = 0 := by
    rw [h.readers_eq, h.apart.resolve_left (by simp [hw])]
    rfl
  have hasked : asked = _ := write_busy hbusy other
  have hleft : left =
      { r with
        value
        counters := { r.counters.announceWrite with writers := 0 }
        writing := []
        writersAwake := r.writersAwake ++ [other] } := by
    simp only [left, hasked]
    exact endWrite_last hw (Nat.succ_pos r.counters.waiting) rfl
  have hi : left.writersAwake[r.writersAwake.length]? = some other := by
    rw [hleft]
    exact List.getElem?_concat_length
  have henter := retryWrite_enters hi (by rw [hleft]; exact hread) (by rw [hleft])
  refine ⟨by rw [hasked]; exact hw, by rw [hleft], ?_, ?_⟩
  · exact henter.trans (by rw [hleft]; rfl)
  · exact (retryWrite_readersAsleep left _).trans (by rw [hleft])

end LockRoom

/-- Who calls, to append or to look. -/
def LogAction.caller? : LogAction ν → Option ν
  | .append name _ => some name
  | .look name => some name
  | _ => none

def callersIn (actions : List (LogAction ν)) : List ν := actions.filterMap LogAction.caller?

theorem callersIn_append (before later : List (LogAction ν)) :
    callersIn (before ++ later) = callersIn before ++ callersIn later := List.filterMap_append

namespace LogRoom

open LogMark

variable [DecidableEq ν] {r : LogRoom ν}

theorem act_attended (ha : r.lock.Accounted 0) (h : r.lock.Attended) (action : LogAction ν) :
    (r.act action).1.lock.Attended := by
  rcases act_lock r action with he | ⟨step, he⟩ <;> rw [he]
  · exact h
  · exact h.act ha step

theorem after_attended (ha : r.lock.Accounted 0) (h : r.lock.Attended)
    (actions : List (LogAction ν)) : (r.after actions).lock.Attended := by
  induction actions generalizing r with
  | nil => exact h
  | cons action actions ih => exact ih (act_accounted ha action) (act_attended ha h action)

theorem act_reading (ha : r.lock.Accounted 0) (hne : r.lock.writers ≠ []) (action : LogAction ν) :
    (r.act action).1.lock.reading.Sublist r.lock.reading := by
  rcases act_lock r action with he | ⟨step, he⟩ <;> rw [he]
  · exact LockRoom.reading_sublist ha hne step

variable {start : Bytes} {past : List (LogMark ν)}

theorem Told.data_eq_nil (h : Told start past r) : r.data = [] ↔ r.lock.writers = [] := by
  rw [← List.map_eq_nil_iff (f := Prod.fst)]
  constructor
  · intro hnil
    exact (hnil ▸ h.names).nil_eq.symm
  · intro hnil
    exact (hnil ▸ h.names).eq_nil

/-- What a run is to the appends that were under way when it began, and to those called in it. -/
theorem Told.since (h : Told start past r) (actions : List (LogAction ν)) :
    r.inside ++ enteredIn (r.history actions) =
      (returnedIn (r.history actions)).map Appended.call ++ (r.after actions).inside ∧
    (r.data ++ calledIn (r.history actions)).Perm
      ((returnedIn (r.history actions)).map Appended.call ++ (r.after actions).data) := by
  have hafter := h.after actions
  have horder := hafter.order
  have hcalls := hafter.calls
  rw [enteredIn_append, returnedIn_append, List.map_append, h.order, List.append_assoc,
    List.append_assoc, List.append_cancel_left_eq] at horder
  rw [calledIn_append, returnedIn_append, List.map_append, List.append_assoc] at hcalls
  refine ⟨horder, ?_⟩
  have hboth := (h.calls.append_right (calledIn (r.history actions))).symm.trans hcalls
  rwa [List.append_assoc, List.perm_append_left_iff] at hboth

theorem Told.inside_subperm (h : Told start past r) : r.inside.Subperm r.data := by
  cases hw : r.lock.writing with
  | nil =>
    rw [inside_none hw]
    exact List.nil_subperm
  | cons name others =>
    have hone : r.lock.writing = [name] := h.accounted.writing_eq (hw ▸ List.mem_cons_self)
    have hperm := data_perm (h.mem_data (hone ▸ List.mem_singleton_self name))
    rw [inside_one hone, List.singleton_subperm_iff, hperm.mem_iff]
    exact List.mem_cons_self

theorem Told.since_subperm (h : Told start past r) (actions : List (LogAction ν)) :
    (r.inside ++ enteredIn (r.history actions)).Subperm (r.data ++ calledIn (r.history actions)) := by
  obtain ⟨horder, hcalls⟩ := h.since actions
  rw [horder, hcalls.subperm_left]
  exact (List.subperm_append_left _).mpr (h.after actions).inside_subperm

theorem Told.look_cases (h : Told start past r) (name : ν) :
    (r.data = [] ∧ (r.lock.read name).reading = r.lock.reading ++ [(name, r.lock.value)]) ∨
    (r.data ≠ [] ∧ (r.lock.read name).reading = r.lock.reading ∧
      (r.lock.read name).readersAsleep = r.lock.readersAsleep ++ [name]) := by
  rw [ne_eq, h.data_eq_nil, h.accounted.writers_eq_nil]
  rcases LockRoom.read_cases r.lock name with ⟨hw, hwait, he⟩ | ⟨hbusy, he⟩
  · exact .inl ⟨⟨hw, hwait⟩, by rw [he]⟩
  · exact .inr ⟨by omega, by rw [he], by rw [he]⟩

/-! A chain of appends, each called while the one before it is inside. -/

theorem history_advance {allocate : Allocator} {pick : Nat} {next : LogRoom ν}
    (h : r.advance allocate pick = (next, none)) (actions : List (LogAction ν)) :
    r.history (.advance allocate pick :: actions) = next.history actions ∧
      r.after (.advance allocate pick :: actions) = next.after actions := by
  have hact : (r.act (.advance allocate pick)).1 = next := congrArg Prod.fst h
  have hmarks : r.marks (.advance allocate pick) = [] := by simp only [marks, h]
  rw [history, after, hact, hmarks]
  exact ⟨rfl, rfl⟩

/-- Whatever memory there is, the append inside gets to its end. -/
theorem exists_done {name : ν} (hw : r.lock.writing = [name]) (allocate : Allocator) :
    ∃ steps value result, r.history steps = [] ∧ callersIn steps = [] ∧
      r.after steps = { r with lock := { r.lock with value }, stage := .done result } := by
  have hadd : ∀ room : LogRoom ν, room.lock.writing = [name] → room.stage = .roomMade →
      room.advance allocate 0 =
        ({ room with
          lock := { room.lock with value := room.lock.value.add (room.dataOf name) }
          stage := .done (.ok ()) }, none) := by
    intro room hin hs
    simp only [advance, hin, List.head?_cons, hs, update_inside hin]
    rfl
  cases hs : r.stage with
  | done result => exact ⟨[], r.lock.value, result, rfl, rfl, by rw [after, ← hs]⟩
  | roomMade =>
    obtain ⟨hhistory, hafter⟩ := history_advance (hadd r hw hs) []
    exact ⟨[.advance allocate 0], _, _, hhistory, rfl, hafter⟩
  | entered =>
    cases hm : r.lock.value.makeRoom allocate (r.dataOf name) with
    | error e =>
      have hstep : r.advance allocate 0 = ({ r with stage := .done (.error e) }, none) := by
        simp only [advance, hw, List.head?_cons, hs]
        rw [dataOf] at hm
        rw [hm]
      obtain ⟨hhistory, hafter⟩ := history_advance hstep []
      exact ⟨[.advance allocate 0], r.lock.value, _, hhistory, rfl, hafter⟩
    | ok buffer =>
      let made : LogRoom ν := { r with lock := { r.lock with value := buffer }, stage := .roomMade }
      have hstep : r.advance allocate 0 = (made, none) := by
        simp only [advance, hw, List.head?_cons, hs]
        rw [dataOf] at hm
        simp only [hm, update_inside hw]
        rfl
      obtain ⟨hfirst, hnext⟩ := history_advance hstep [.advance allocate 0]
      obtain ⟨hhistory, hafter⟩ := history_advance (hadd made hw rfl) []
      exact ⟨[.advance allocate 0, .advance allocate 0], _, _, hfirst.trans hhistory, rfl,
        hnext.trans hafter⟩

theorem advance_done {name : ν} {result : Except AllocationError Unit} (hw : r.lock.writing = [name])
    (hs : r.stage = .done result) (allocate : Allocator) (pick : Nat) :
    (r.act (.advance allocate pick)).1.lock = r.lock.endWrite name pick ∧
      calledIn (r.marks (.advance allocate pick)) = [] ∧
      enteredIn (r.marks (.advance allocate pick)) = [] := by
  have hstep : (r.advance allocate pick).2 = some (.appended name result) := by
    simp only [advance, hw, List.head?_cons, hs]
  refine ⟨?_, ?_, ?_⟩
  · simp only [act, advance, hw, List.head?_cons, hs]
  · simp only [marks, hstep]
    rfl
  · simp only [marks, hstep]
    rfl

/-- An append that is called while another is inside may be the next to enter, whoever else waits. -/
theorem exists_successor (h : r.lock.Accounted 0) {name : ν} (hw : r.lock.writing = [name])
    {call : ν × Bytes} (hne : call.2 ≠ []) (allocate : Allocator) :
    ∃ steps, callersIn steps = [call.1] ∧ calledIn (r.history steps) = [call] ∧
      (enteredIn (r.history steps)).map Prod.fst = [call.1] ∧
      (r.after steps).lock.writing = [call.1] ∧
      (r.after steps).lock.readersAsleep = r.lock.readersAsleep := by
  have hempty : ¬ call.2.isEmpty = true := fun he => hne (List.isEmpty_iff.mp he)
  let asked : LogRoom ν := (r.act (.append call.1 call.2)).1
  have hasked : asked.lock = r.lock.write call.1 := by simp only [asked, act, append, if_neg hempty]
  have hin : asked.lock.writing = [name] := hasked ▸ (h.succession hw call.1 r.lock.value).1
  have hcalled : r.marks (.append call.1 call.2) = [.called call.1 call.2] := by
    have hnone : r.entering asked = [] := entering_none (hin.trans hw.symm)
    change r.entering (r.append call.1 call.2).1 = [] at hnone
    rw [marks, if_neg hempty, hnone]
  -- the append inside ends, and its signal reaches the one that came last
  obtain ⟨steps, value, result, hquiet, hcallers, hdone⟩ := exists_done hin allocate
  let finish : LogAction ν := .advance allocate r.lock.writersAsleep.length
  let retry : LogAction ν := .retryWrite r.lock.writersAwake.length
  let left : LogRoom ν := ((asked.after steps).act finish).1
  let next : LogRoom ν := (left.act retry).1
  obtain ⟨hend, hcalls, henters⟩ := advance_done (r := asked.after steps)
    (by rw [hdone]; exact hin) (by rw [hdone]) allocate r.lock.writersAsleep.length
  have hleft : left.lock =
      { r.lock.write call.1 with value }.endWrite name r.lock.writersAsleep.length := by
    refine hend.trans ?_
    rw [hdone, hasked]
  obtain ⟨-, hout, hwriting, hasleep⟩ := h.succession hw call.1 value
  rw [← hleft] at hout hwriting hasleep
  have hentered : left.marks retry = [.entered call.1 (next.dataOf call.1)] :=
    entering_one hout hwriting
  have hafter : r.after (.append call.1 call.2 :: (steps ++ [finish, retry])) = next :=
    after_append asked steps _
  have hhistory : r.history (.append call.1 call.2 :: (steps ++ [finish, retry])) =
      [.called call.1 call.2] ++
        ((asked.after steps).marks finish ++ [.entered call.1 (next.dataOf call.1)]) := by
    rw [history, hcalled, history_append, hquiet, ← hentered]
    simp only [history, List.nil_append, List.append_nil]
    rfl
  refine ⟨_, ?_, ?_, ?_, by rw [hafter]; exact hwriting, by rw [hafter]; exact hasleep⟩
  · change [call.1] ++ callersIn (steps ++ [finish, retry]) = [call.1]
    rw [callersIn_append, hcallers]
    rfl
  · rw [hhistory, calledIn_append, calledIn_append, hcalls]
    rfl
  · rw [hhistory, enteredIn_append, enteredIn_append, henters]
    rfl

/-- So any number of them may go first. -/
theorem exists_succession (h : r.lock.Accounted 0) {name : ν} (hw : r.lock.writing = [name])
    (calls : List (ν × Bytes)) (hne : ∀ call ∈ calls, call.2 ≠ []) (allocate : Allocator) :
    ∃ steps, callersIn steps = calls.map Prod.fst ∧ calledIn (r.history steps) = calls ∧
      (enteredIn (r.history steps)).map Prod.fst = calls.map Prod.fst ∧
      (r.after steps).lock.readersAsleep = r.lock.readersAsleep := by
  induction calls generalizing r name with
  | nil => exact ⟨[], rfl, rfl, rfl, rfl⟩
  | cons call calls ih =>
    obtain ⟨hcall, hcalls⟩ := List.forall_mem_cons.mp hne
    obtain ⟨steps, hcallers, hcalled, hentered, hin, hasleep⟩ :=
      exists_successor h hw hcall allocate
    obtain ⟨more, hcallers', hcalled', hentered', hasleep'⟩ :=
      ih (after_accounted h steps) hin hcalls
    refine ⟨steps ++ more, ?_, ?_, ?_, ?_⟩
    · rw [callersIn_append, hcallers, hcallers']
      rfl
    · rw [history_append, calledIn_append, hcalled, hcalled']
      rfl
    · rw [history_append, enteredIn_append, List.map_append, hentered, hentered']
      rfl
    · rw [after_append, hasleep', hasleep]

/-- A look still waits although an append is inside that was called after it. Each name stands for one
call. -/
def Passed (buffer : LogBuffer) (before : List (LogAction ν)) (name : ν)
    (later : List (LogAction ν)) : Prop :=
  let last := (around buffer : LogRoom ν).after before
  let room := (last.act (.look name)).1.after later
  (callersIn (before ++ .look name :: later)).Nodup ∧
    name ∈ room.lock.readersAsleep ++ room.lock.readersAwake ∧
    ∃ call ∈ room.inside, call ∉ last.data

/-- An append lets a look wait for longer when it comes while the look sleeps, and also when it comes
between the signal that awakens the look and the look itself. -/
theorem look_passed_by_latecomer :
    let plenty : Allocator := fun _ => none
    Passed ⟨[], 16⟩ [.append 1 [65]] 2
      [.append 3 [66], .advance plenty 0, .advance plenty 0, .advance plenty 0, .retryWrite 0] ∧
    Passed ⟨[], 16⟩ [.append 1 [65]] 2
      [.advance plenty 0, .advance plenty 0, .advance plenty 0, .append 3 [66], .retryRead 0] := by
  refine ⟨⟨?_, ?_, (3, [66]), ?_, ?_⟩, ⟨?_, ?_, (3, [66]), ?_, ?_⟩⟩ <;> decide

/-- In every run: a look enters at once where no append is under way, and sleeps otherwise. None enters
as long as one is; when none is left, no look sleeps any more, and each that runs enters. By then all
appends have been inside that were under way when the look was called or were called since, and no
others. While a look sleeps, any number of newcomers may be inside one after the other, so nothing
bounds its wait. If none is called after it, only those that were under way come before it. -/
theorem run_looks (buffer : LogBuffer) (name : ν) (before later : List (LogAction ν)) :
    let last := (around buffer : LogRoom ν).after before
    let asked := (last.act (.look name)).1
    let room := asked.after later
    let since := asked.history later
    ((last.data = [] ∧ asked.lock.reading = last.lock.reading ++ [(name, last.lock.value)]) ∨
      (last.data ≠ [] ∧ asked.lock.reading = last.lock.reading ∧
        asked.lock.readersAsleep = last.lock.readersAsleep ++ [name])) ∧
    (room.data ≠ [] → ∀ action, (room.act action).1.lock.reading.Sublist room.lock.reading) ∧
    (room.data = [] → room.lock.readersAsleep = [] ∧
      (∀ index reader, room.lock.readersAwake[index]? = some reader →
        (room.act (.retryRead index)).1.lock.reading =
          room.lock.reading ++ [(reader, room.lock.value)]) ∧
      (last.inside ++ enteredIn since).Perm (last.data ++ calledIn since)) ∧
    (last.inside ++ enteredIn since).Subperm (last.data ++ calledIn since) ∧
    (∀ call ∈ room.inside, call ∈ last.data ∨ call ∈ calledIn since) ∧
    (calledIn since = [] → ¬ Passed buffer before name later) ∧
    (room.inside ≠ [] → ∀ calls, (∀ call ∈ calls, call.2 ≠ []) →
      ∃ steps, callersIn steps = calls.map Prod.fst ∧ calledIn (room.history steps) = calls ∧
        (enteredIn (room.history steps)).map Prod.fst = calls.map Prod.fst ∧
        (room.after steps).lock.readersAsleep = room.lock.readersAsleep) := by
  intro last asked room since
  have hlast : Told buffer.bytes _ last := (told_around buffer).after before
  have hasked : Told buffer.bytes _ asked :=
    hlast.step (act_deed hlast.accounted (.look name)) (act_accounted hlast.accounted (.look name))
  have hroom : Told buffer.bytes _ room := hasked.after later
  have hatt : room.lock.Attended := by
    have hattended : last.lock.Attended :=
      after_attended (LockRoom.accounted_around buffer) (LockRoom.attended_around buffer) before
    exact after_attended hasked.accounted (act_attended hlast.accounted hattended (.look name)) later
  have hinside : asked.inside = last.inside :=
    inside_eq (last.lock.read_unchanged name).writing_eq fun _ _ => rfl
  obtain ⟨horder, hcalls⟩ := hasked.since later
  have hsub := hasked.since_subperm later
  rw [hinside] at horder hsub
  have hknown : ∀ call ∈ room.inside, call ∈ last.data ∨ call ∈ calledIn since := by
    intro call hcall
    have hmem : call ∈ last.inside ++ enteredIn since :=
      horder ▸ List.mem_append_right _ hcall
    exact List.mem_append.mp (hsub.subset hmem)
  refine ⟨hlast.look_cases name, ?_, ?_, hsub, hknown, ?_, ?_⟩
  · intro hne
    exact act_reading hroom.accounted fun hnil => hne (hroom.data_eq_nil.mpr hnil)
  · intro hnil
    obtain ⟨hw, hwait⟩ := hroom.accounted.writers_eq_nil.mp (hroom.data_eq_nil.mp hnil)
    have hout : room.inside = [] := List.subperm_nil.mp (hnil ▸ hroom.inside_subperm)
    refine ⟨?_, fun index reader hi => LockRoom.retryRead_enters hi hw hwait, ?_⟩
    · by_contra hne
      have hbusy := hatt.reader hne
      omega
    · change (asked.after later).inside = [] at hout
      change (asked.after later).data = [] at hnil
      rw [hout] at horder
      rw [hnil] at hcalls
      exact (List.Perm.of_eq horder).trans hcalls.symm
  · rintro hnone ⟨-, -, call, hcall, hlate⟩
    rcases hknown call hcall with hearly | hsince
    · exact hlate hearly
    · rw [hnone] at hsince
      cases hsince
  · intro hne calls
    cases hw : room.lock.writing with
    | nil => exact absurd (inside_none hw) hne
    | cons other others =>
      have hone : room.lock.writing = [other] :=
        hroom.accounted.writing_eq (hw ▸ List.mem_cons_self)
      intro hdata
      exact exists_succession hroom.accounted hone calls hdata fun _ => none

/-- One append is inside when the look is called, and another one comes after it. The look waits for
both, and tells of both. -/
theorem run_looks_behind_both :
    let plenty : Allocator := fun _ => none
    let later : List (LogAction Nat) :=
      [.append 3 [66], .advance plenty 0, .advance plenty 0, .advance plenty 0, .retryWrite 0,
        .advance plenty 0, .advance plenty 0, .advance plenty 0]
    let last := (around ⟨[], 16⟩).after [.append 1 [65]]
    let asked := (last.act (.look 2)).1
    let room := asked.after later
    asked.lock.readersAsleep = [2] ∧ room.lock.readersAsleep = [] ∧
      (room.act (.retryRead 0)).1.lock.reading = [(2, ⟨[65, 66], 16⟩)] ∧
      (last.inside ++ enteredIn (asked.history later)).Perm [(1, [65]), (3, [66])] := by
  intro plenty later
  obtain ⟨hlook, -, hnone, -⟩ := run_looks ⟨[], 16⟩ 2 [.append 1 [65]] later
  obtain ⟨-, -, hasleep⟩ := hlook.resolve_left fun h => absurd h.1 (by decide)
  obtain ⟨hawake, henters, hboth⟩ := hnone (by decide)
  have hin := henters 0 2 (by decide)
  refine ⟨hasleep.trans ?_, hawake, hin.trans ?_, hboth.trans (.of_eq ?_)⟩
  · decide
  · decide
  · decide

end LogRoom

end PooledHttp
