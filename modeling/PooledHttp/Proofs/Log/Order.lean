import Mathlib
import PooledHttp.Proofs.Log.Steps

/-! The log is one sequence of appends, in the order in which they entered. Outside an append it
holds what those that returned in good order have added, and nothing else, and a look sees just
that. -/

namespace PooledHttp

variable {ν : Type}

structure Appended (ν : Type) where
  name : ν
  data : Bytes
  result : Except AllocationError Unit

namespace Appended

def call (a : Appended ν) : ν × Bytes := (a.name, a.data)

def succeeded (a : Appended ν) : Bool :=
  match a.result with
  | .ok _ => true
  | .error _ => false

end Appended

namespace LogMark

def called? : LogMark ν → Option (ν × Bytes)
  | called name data => some (name, data)
  | _ => none

def entered? : LogMark ν → Option (ν × Bytes)
  | entered name data => some (name, data)
  | _ => none

def returned? : LogMark ν → Option (Appended ν)
  | returned name data result => some ⟨name, data, result⟩
  | _ => none

def calledIn (past : List (LogMark ν)) : List (ν × Bytes) := past.filterMap called?

def enteredIn (past : List (LogMark ν)) : List (ν × Bytes) := past.filterMap entered?

def returnedIn (past : List (LogMark ν)) : List (Appended ν) := past.filterMap returned?

@[simp] theorem calledIn_append (past later : List (LogMark ν)) :
    calledIn (past ++ later) = calledIn past ++ calledIn later := List.filterMap_append

@[simp] theorem enteredIn_append (past later : List (LogMark ν)) :
    enteredIn (past ++ later) = enteredIn past ++ enteredIn later := List.filterMap_append

@[simp] theorem returnedIn_append (past later : List (LogMark ν)) :
    returnedIn (past ++ later) = returnedIn past ++ returnedIn later := List.filterMap_append

end LogMark

/-- What appends leave in a log: the data of those that succeeded, one after the other. -/
def written (appends : List (Appended ν)) : Bytes :=
  (appends.filter Appended.succeeded).flatMap Appended.data

theorem written_concat (appends : List (Appended ν)) (a : Appended ν) :
    written (appends ++ [a]) = written appends ++ if a.succeeded then a.data else [] := by
  rw [written, List.filter_append, List.flatMap_append]
  cases ha : a.succeeded <;> simp [written, ha]

namespace LogRoom

open LogMark

variable [DecidableEq ν] {r next : LogRoom ν}

def inside (r : LogRoom ν) : List (ν × Bytes) :=
  r.lock.writing.map fun name => (name, r.dataOf name)

/-- What the append inside has already added. -/
def underWay (r : LogRoom ν) : Bytes :=
  match r.stage with
  | .done (.ok _) => r.inside.flatMap Prod.snd
  | _ => []

theorem inside_eq (hw : next.lock.writing = r.lock.writing)
    (hdata : ∀ name ∈ r.lock.writing, next.dataOf name = r.dataOf name) :
    next.inside = r.inside := by
  rw [inside, inside, hw]
  exact List.map_congr_left fun name hname => by rw [hdata name hname]

theorem inside_none (hw : r.lock.writing = []) : r.inside = [] := by
  rw [inside, hw]
  rfl

theorem inside_one {name : ν} (hw : r.lock.writing = [name]) :
    r.inside = [(name, r.dataOf name)] := by
  rw [inside, hw]
  rfl

theorem underWay_eq (hs : next.stage = r.stage) (hi : next.inside = r.inside) :
    next.underWay = r.underWay := by
  rw [underWay, underWay, hs, hi]

theorem underWay_entered (hs : r.stage = .entered) : r.underWay = [] := by
  rw [underWay, hs]

theorem exists_lookup {name : ν} (h : name ∈ r.data.map Prod.fst) :
    ∃ data, r.data.lookup name = some data ∧ r.dataOf name = data := by
  cases hl : r.data.lookup name with
  | some data => exact ⟨data, rfl, by rw [dataOf, hl]; rfl⟩
  | none =>
    obtain ⟨p, hp, rfl⟩ := List.mem_map.mp h
    have hne := List.lookup_eq_none_iff.mp hl p hp
    simp at hne

theorem dataOf_append {name : ν} {more : List (ν × Bytes)} (h : name ∈ r.data.map Prod.fst)
    (hd : next.data = r.data ++ more) : next.dataOf name = r.dataOf name := by
  obtain ⟨data, hl, hdata⟩ := exists_lookup h
  rw [hdata, dataOf, hd, List.lookup_append, hl]
  rfl

/-- What leaves the list of data is what its writer was to add. -/
theorem data_perm {name : ν} (h : name ∈ r.data.map Prod.fst) :
    r.data.Perm ((name, r.dataOf name) :: r.data.eraseP (·.1 = name)) := by
  obtain ⟨data, hl, hdata⟩ := exists_lookup h
  obtain ⟨front, back, hsplit, hfront⟩ := List.lookup_eq_some_iff.mp hl
  have hskip : ∀ p ∈ front, ¬ decide (p.1 = name) = true := by
    intro p hp he
    have hne := hfront p hp
    simp at hne he
    exact hne he.symm
  rw [hdata, hsplit, List.eraseP_append_right _ hskip, List.eraseP_cons_of_pos (by simp)]
  exact List.perm_middle

/-- What the log and the threads around it hold after what has happened so far. -/
structure Told (start : Bytes) (past : List (LogMark ν)) (r : LogRoom ν) : Prop where
  accounted : r.lock.Accounted 0
  names : (r.data.map Prod.fst).Perm r.lock.writers
  calls : (calledIn past).Perm ((returnedIn past).map Appended.call ++ r.data)
  order : enteredIn past = (returnedIn past).map Appended.call ++ r.inside
  bytes : r.lock.value.bytes = start ++ (written (returnedIn past) ++ r.underWay)
  fresh : r.lock.writing = [] → r.stage = .entered

theorem Told.mem_data {start : Bytes} {past : List (LogMark ν)} (h : Told start past r) {name : ν}
    (hw : name ∈ r.lock.writing) : name ∈ r.data.map Prod.fst :=
  h.names.mem_iff.mpr (List.mem_append_left _ hw)

theorem dataOf_eq (hd : next.data = r.data) (name : ν) : next.dataOf name = r.dataOf name := by
  rw [dataOf, dataOf, hd]

variable {start : Bytes} {past : List (LogMark ν)}

theorem Told.calls_asked (h : Told start past r) {name : ν} {data : Bytes}
    (hd : next.data = r.data ++ [(name, data)]) :
    (calledIn past ++ [(name, data)]).Perm
      ((returnedIn past ++ []).map Appended.call ++ next.data) := by
  rw [List.append_nil, hd, ← List.append_assoc]
  exact h.calls.append_right _

theorem Told.names_asked (h : Told start past r) {name : ν} {data : Bytes}
    (hd : next.data = r.data ++ [(name, data)])
    (hnames : next.lock.writers.Perm (name :: r.lock.writers)) :
    (next.data.map Prod.fst).Perm next.lock.writers := by
  rw [hd, List.map_append]
  exact (List.perm_append_singleton name _).trans ((h.names.cons name).trans hnames.symm)

/-- A writer that comes in finds nothing under way and takes its place in the order. -/
theorem Told.order_entered (h : Told start past r) {name : ν} (hnil : r.lock.writing = [])
    (hw : next.lock.writing = [name]) :
    enteredIn past ++ [(name, next.dataOf name)] =
      (returnedIn past ++ []).map Appended.call ++ next.inside := by
  have horder := h.order
  rw [inside_none hnil, List.append_nil] at horder
  rw [horder, inside_one hw, List.append_nil]

theorem Told.bytes_entered (h : Told start past r) (hv : next.lock.value = r.lock.value)
    (hnil : r.lock.writing = []) (hs : next.stage = r.stage) :
    next.lock.value.bytes = start ++ (written (returnedIn past ++ []) ++ next.underWay) := by
  have hfresh := h.fresh hnil
  have hbytes := h.bytes
  rw [underWay_entered hfresh] at hbytes
  rw [hv, underWay_entered (hs.trans hfresh), List.append_nil (returnedIn past), hbytes]

theorem Told.step {marks : List (LogMark ν)} (h : Told start past r) (hd : Deed r marks next)
    (hacc : next.lock.Accounted 0) : Told start (past ++ marks) next := by
  cases hd with
  | aside hv hw hnames hd hs =>
    have hi : next.inside = r.inside := inside_eq hw fun name _ => dataOf_eq hd name
    rw [List.append_nil]
    refine ⟨hacc, ?_, ?_, ?_, ?_, ?_⟩
    · rw [hd]
      exact h.names.trans hnames.symm
    · rw [hd]
      exact h.calls
    · rw [hi]
      exact h.order
    · rw [hv, underWay_eq hs hi]
      exact h.bytes
    · rw [hw, hs]
      exact h.fresh
  | asked name data hv hw hnames hd hs =>
    have hi : next.inside = r.inside :=
      inside_eq hw fun other ho => dataOf_append (h.mem_data ho) hd
    refine ⟨hacc, h.names_asked hd hnames, ?_, ?_, ?_, ?_⟩
    · rw [calledIn_append, returnedIn_append]
      exact h.calls_asked hd
    · rw [enteredIn_append, returnedIn_append, hi]
      change enteredIn past ++ [] = (returnedIn past ++ []).map Appended.call ++ r.inside
      rw [List.append_nil, List.append_nil]
      exact h.order
    · rw [returnedIn_append, hv, underWay_eq hs hi]
      change _ = start ++ (written (returnedIn past ++ []) ++ r.underWay)
      rw [List.append_nil]
      exact h.bytes
    · rw [hw, hs]
      exact h.fresh
  | askedAndEntered name data hv hnil hw hnames hd hs =>
    refine ⟨hacc, h.names_asked hd hnames, ?_, ?_, ?_, ?_⟩
    · rw [calledIn_append, returnedIn_append]
      exact h.calls_asked hd
    · rw [enteredIn_append, returnedIn_append]
      exact h.order_entered hnil hw
    · rw [returnedIn_append]
      exact h.bytes_entered hv hnil hs
    · intro _
      exact hs.trans (h.fresh hnil)
  | entered name hv hnil hw hnames hd hs =>
    refine ⟨hacc, ?_, ?_, ?_, ?_, ?_⟩
    · rw [hd]
      exact h.names.trans hnames.symm
    · rw [calledIn_append, returnedIn_append, hd]
      change (calledIn past ++ []).Perm ((returnedIn past ++ []).map Appended.call ++ r.data)
      rw [List.append_nil, List.append_nil]
      exact h.calls
    · rw [enteredIn_append, returnedIn_append]
      exact h.order_entered hnil hw
    · rw [returnedIn_append]
      exact h.bytes_entered hv hnil hs
    · intro _
      exact hs.trans (h.fresh hnil)
  | @refused name hw hs e =>
    have hbytes := h.bytes
    rw [underWay_entered hs] at hbytes
    rw [List.append_nil]
    exact ⟨hacc, h.names, h.calls, h.order, hbytes, fun hnil => absurd hnil (by simp [hw])⟩
  | @madeRoom name hw hs buffer hb =>
    have hbytes := h.bytes
    rw [underWay_entered hs, ← hb] at hbytes
    rw [List.append_nil]
    exact ⟨hacc, h.names, h.calls, h.order, hbytes, fun hnil => absurd hnil (by simp [hw])⟩
  | @added name hw hs =>
    have hinside := inside_one hw
    have hbytes := h.bytes
    simp only [underWay, hs, List.append_nil] at hbytes
    rw [List.append_nil]
    refine ⟨hacc, h.names, h.calls, h.order, ?_, ?_⟩
    · change r.lock.value.bytes ++ r.dataOf name =
        start ++ (written (returnedIn past) ++ r.inside.flatMap Prod.snd)
      rw [hinside, hbytes, List.flatMap_singleton, List.append_assoc]
    · intro hnil
      exact absurd hnil (by simp [hw])
  | @returned name result next hold hdone hv hw hnames hd hs =>
    have hmem : name ∈ r.data.map Prod.fst := h.mem_data (hold ▸ List.mem_singleton_self name)
    have hperm := data_perm hmem
    have hinside := inside_one hold
    have hempty : next.inside = [] := inside_none hw
    refine ⟨hacc, ?_, ?_, ?_, ?_, fun _ => hs⟩
    · rw [hd]
      have hfst := (hperm.map Prod.fst).symm.trans (h.names.trans hnames)
      exact hfst.cons_inv
    · rw [calledIn_append, returnedIn_append, List.map_append, hd]
      change (calledIn past ++ []).Perm
        ((returnedIn past).map Appended.call ++ [(name, r.dataOf name)] ++ _)
      rw [List.append_nil, List.append_assoc]
      exact h.calls.trans (hperm.append_left _)
    · rw [enteredIn_append, returnedIn_append, List.map_append, hempty, h.order, hinside]
      rfl
    · have hbytes := h.bytes
      have hunder : r.underWay =
          if Appended.succeeded ⟨name, r.dataOf name, result⟩ then r.dataOf name else [] := by
        rw [underWay, hdone]
        cases result with
        | error e => rfl
        | ok u => exact (congrArg (List.flatMap Prod.snd) hinside).trans (List.append_nil _)
      rw [returnedIn_append]
      change _ = start ++ (written (returnedIn past ++ [⟨name, r.dataOf name, result⟩]) ++ _)
      rw [written_concat, underWay_entered hs, List.append_nil, hv, hbytes, hunder]

theorem Told.after (h : Told start past r) (actions : List (LogAction ν)) :
    Told start (past ++ r.history actions) (r.after actions) := by
  induction actions generalizing r past with
  | nil => rwa [history, List.append_nil]
  | cons action actions ih =>
    have hstep := h.step (act_deed h.accounted action) (act_accounted h.accounted action)
    rw [history, ← List.append_assoc]
    exact ih hstep

theorem told_around (buffer : LogBuffer) :
    Told buffer.bytes [] (around buffer : LogRoom ν) := by
  refine ⟨LockRoom.accounted_around buffer, .nil, .nil, rfl, ?_, fun _ => rfl⟩
  exact (List.append_nil buffer.bytes).symm

theorem create_bytes {allocate : Allocator} {capacity : Nat} {buffer : LogBuffer}
    (h : LogBuffer.create allocate capacity = .ok buffer) : buffer.bytes = [] := by
  cases hr : LogBuffer.reserve allocate (max capacity 1) with
  | error e => simp [LogBuffer.create, hr, Except.map] at h
  | ok u =>
    simp only [LogBuffer.create, hr, Except.map] at h
    cases h
    rfl

/-- While a reader is inside, nobody who appends is. -/
theorem Told.looked (h : Told start past r) {action : LogAction ν} {name : ν} {bytes : Bytes}
    {length : Nat} (hl : (r.act action).2 = some (.looked name bytes length)) :
    r.lock.writing = [] ∧ bytes = r.lock.value.bytes ∧ length = bytes.length := by
  obtain ⟨buffer, hmem, rfl, hlength⟩ := looked_cases hl
  have hfound : buffer = r.lock.value := h.accounted.found _ hmem
  exact ⟨h.accounted.apart.resolve_right (List.ne_nil_of_mem hmem), by rw [hfound], hlength⟩

theorem Told.settled (h : Told start past r) (hnil : r.lock.writing = []) :
    enteredIn past = (returnedIn past).map Appended.call ∧
      r.lock.value.bytes = start ++ written (returnedIn past) := by
  have horder := h.order
  have hbytes := h.bytes
  rw [inside_none hnil, List.append_nil] at horder
  rw [underWay_entered (h.fresh hnil), List.append_nil] at hbytes
  exact ⟨horder, hbytes⟩

/-- The log holds what was added before, and of the append inside either nothing or all. -/
theorem Told.whole (h : Told start past r) :
    r.lock.value.bytes = start ++ written (returnedIn past) ∨
      ∃ name data, r.inside = [(name, data)] ∧
        r.lock.value.bytes = start ++ (written (returnedIn past) ++ data) := by
  have hbytes := h.bytes
  cases hw : r.lock.writing with
  | nil => exact .inl (h.settled hw).2
  | cons name others =>
    have hone : r.lock.writing = [name] := h.accounted.writing_eq (hw ▸ List.mem_cons_self)
    have hinside := inside_one hone
    cases hs : r.stage with
    | entered | roomMade =>
      simp only [underWay, hs, List.append_nil] at hbytes
      exact .inl hbytes
    | done result =>
      cases result with
      | error e =>
        simp only [underWay, hs, List.append_nil] at hbytes
        exact .inl hbytes
      | ok u =>
        simp only [underWay, hs, hinside, List.flatMap_singleton] at hbytes
        exact .inr ⟨name, r.dataOf name, hinside, hbytes⟩

/-- In every run of a new log, whatever its threads do and whatever memory is refused, appends
return in the order in which they entered, each with the data of its call. While none is inside, the
log is the data of those that succeeded, one after the other; while one is inside, it may have its
data besides, as a whole. A look tells of the log as it is when all that entered have returned, and
so of all that had returned before it was called. What has once entered or returned stays in its
place. -/
theorem run_linearizable {allocate : Allocator} {capacity : Nat} {buffer : LogBuffer}
    (hcreate : LogBuffer.create allocate capacity = .ok buffer) (actions : List (LogAction ν)) :
    let room := (around buffer : LogRoom ν).after actions
    let past := (around buffer : LogRoom ν).history actions
    enteredIn past = (returnedIn past).map Appended.call ++ room.inside ∧
    (calledIn past).Perm ((returnedIn past).map Appended.call ++ room.data) ∧
    (room.lock.writing = [] →
      enteredIn past = (returnedIn past).map Appended.call ∧
      room.lock.value.bytes = written (returnedIn past)) ∧
    (room.lock.value.bytes = written (returnedIn past) ∨
      ∃ name data, room.inside = [(name, data)] ∧
        room.lock.value.bytes = written (returnedIn past) ++ data) ∧
    (∀ action name bytes length, (room.act action).2 = some (.looked name bytes length) →
      enteredIn past = (returnedIn past).map Appended.call ∧
      bytes = written (returnedIn past) ∧ length = bytes.length) ∧
    (∀ action name result, (room.act action).2 = some (.appended name result) →
      (action = .append name [] ∧ result = .ok ()) ∨
      room.marks action = [.returned name (room.dataOf name) result]) ∧
    ∀ before later, actions = before ++ later →
      enteredIn ((around buffer : LogRoom ν).history before) <+: enteredIn past ∧
      returnedIn ((around buffer : LogRoom ν).history before) <+: returnedIn past := by
  intro room past
  have h : Told [] past room := by
    have hrun := (told_around buffer).after actions
    rwa [create_bytes hcreate] at hrun
  refine ⟨h.order, h.calls, h.settled, h.whole, ?_, fun _ _ _ => appended_cases, ?_⟩
  · intro action name bytes length hl
    obtain ⟨hnil, hbytes, hlength⟩ := h.looked hl
    obtain ⟨horder, hwritten⟩ := h.settled hnil
    exact ⟨horder, hbytes.trans hwritten, hlength⟩
  · rintro before later rfl
    have hsplit : past = _ := history_append (around buffer) before later
    rw [hsplit, enteredIn_append, returnedIn_append]
    exact ⟨List.prefix_append _ _, List.prefix_append _ _⟩

/-- Two threads append while a third one looks. The second append is refused, and the look, which
came last, tells of the first one alone. -/
theorem run_linearizable_one_refused :
    let plenty : Allocator := fun _ => none
    let scarce : Allocator := fun _ => some .exhausted
    let actions : List (LogAction Nat) :=
      [.append 1 [65, 66], .append 2 [67, 68, 69], .look 3, .advance plenty 0, .advance plenty 0,
        .advance plenty 0, .retryWrite 0, .advance scarce 0, .advance scarce 0, .retryRead 0]
    ∃ buffer, LogBuffer.create plenty 4 = .ok buffer ∧
      let room := (around buffer).after actions
      (room.act (.finishLook 3 0)).2 = some (.looked 3 [65, 66] 2) ∧
      written (returnedIn ((around buffer).history actions)) = [65, 66] := by
  intro plenty scarce actions
  refine ⟨⟨[], 4⟩, rfl, ?_⟩
  intro room
  obtain ⟨-, -, -, -, hlooked, -⟩ :=
    run_linearizable (show LogBuffer.create plenty 4 = .ok ⟨[], 4⟩ from rfl) actions
  have hlook : (room.act (.finishLook 3 0)).2 = some (.looked 3 [65, 66] 2) := by cbv
  obtain ⟨-, hbytes, -⟩ := hlooked _ _ _ _ hlook
  exact ⟨hlook, hbytes.symm⟩

end LogRoom

end PooledHttp
