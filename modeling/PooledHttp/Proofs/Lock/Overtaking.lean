import PooledHttp.Proofs.Lock.Preference
import PooledHttp.Proofs.Lock.WakeUps

/-! The order among the writers. While a writer waits no reader enters, but a writer that asks later
may: one that comes between a signal and the entry of the writer that it has awakened, or one that
a signal reaches first. Where neither happens, and no writer wakes up unasked, the writers enter in
the order in which they have asked. -/

namespace PooledHttp

variable {ν V : Type}

namespace LockRoom

/-- Those who wait for write access, the awakened before the sleeping ones. -/
def line (r : LockRoom ν V) : List ν := r.writersAwake ++ r.writersAsleep

/-- A writer that has been awakened is the only one, and the lock is still free for it. -/
structure InLine (r : LockRoom ν V) : Prop where
  awake_le : r.writersAwake.length ≤ 1
  free : r.writersAwake ≠ [] → r.reading = [] ∧ r.writing = []

/-- Who enters comes from the front of the line, and who asks and has to wait goes to its end. -/
structure Queues (r : LockRoom ν V) (asked : List ν) (next : LockRoom ν V) : Prop where
  inLine : next.InLine
  line_eq : next.writing.drop r.writing.length ++ next.line = r.line ++ asked

variable {r next : LockRoom ν V}

theorem inLine_around (value : V) : (around value : LockRoom ν V).InLine :=
  ⟨Nat.zero_le 1, fun hne => absurd rfl hne⟩

theorem inLine_of_nil (hnone : r.writersAwake = []) : r.InLine := by
  refine ⟨?_, fun hne => absurd hnone hne⟩
  rw [hnone]
  exact Nat.zero_le 1

theorem Accounted.nobody_inside (h : r.Accounted 0) (hread : r.reading = [])
    (hwrite : r.writing = []) : r.counters.readers = 0 ∧ r.counters.writers = 0 := by
  rw [h.readers_eq, h.writers_eq, hread, hwrite]
  exact ⟨rfl, rfl⟩

theorem InLine.awake_nil (h : r.InLine) (hbusy : r.reading ≠ [] ∨ r.writing ≠ []) :
    r.writersAwake = [] := by
  by_contra hne
  obtain ⟨hread, hwrite⟩ := h.free hne
  exact hbusy.elim (· hread) (· hwrite)

theorem Queues.aside (hin : next.InLine) (hw : next.writing.length ≤ r.writing.length)
    (hline : next.line = r.line) : Queues r [] next := by
  refine ⟨hin, ?_⟩
  rw [List.drop_eq_nil_of_le hw, hline, List.nil_append, List.append_nil]

theorem InLine.unmoved (h : r.InLine) : Queues r [] r := .aside h (Nat.le_refl _) rfl

theorem InLine.read (ha : r.Accounted 0) (h : r.InLine) (name : ν) :
    Queues r [] (r.read name) := by
  rcases read_cases r name with ⟨-, hwait, he⟩ | ⟨-, he⟩
  -- an awakened writer is still announced, and would keep the reader out
  · have hnone : r.writersAwake = [] := by
      have hsum := ha.waiting_eq
      exact List.length_eq_zero_iff.mp (by omega)
    rw [he]
    exact .aside (inLine_of_nil hnone) (Nat.le_refl _) rfl
  · rw [he]
    exact .aside ⟨h.awake_le, h.free⟩ (Nat.le_refl _) rfl

theorem InLine.retryRead (ha : r.Accounted 0) (h : r.InLine) (index : Nat) :
    Queues r [] (r.retryRead index) := by
  rcases retryRead_cases r index with he | ⟨name, -, he⟩
  · rw [he]
    exact h.unmoved
  · have hcount : Accounted { r with readersAwake := r.readersAwake.eraseIdx index } 0 :=
      ⟨ha.readers_eq, ha.writers_eq, ha.waiting_eq, ha.writing_le, ha.apart, ha.found⟩
    have hin : InLine { r with readersAwake := r.readersAwake.eraseIdx index } :=
      ⟨h.awake_le, h.free⟩
    have hread := hin.read hcount name
    rw [he]
    exact ⟨hread.inLine, hread.line_eq⟩

theorem InLine.stirReader (h : r.InLine) (index : Nat) : Queues r [] (r.stirReader index) := by
  rcases stirReader_cases r index with he | ⟨name, -, he⟩ <;> rw [he]
  · exact h.unmoved
  · exact .aside ⟨h.awake_le, h.free⟩ (Nat.le_refl _) rfl

theorem queues_write (hatt : r.Attended) (hnone : r.writersAwake = []) (name : ν) :
    Queues r [name] (r.write name) := by
  rcases enterWrite_cases { r with counters := r.counters.announceWrite } name with
    ⟨hr, hw, he⟩ | ⟨-, he⟩
  -- a newcomer that finds nobody inside finds nobody in line either
  · have hasleep : r.writersAsleep = [] := by
      by_contra hne
      exact hatt.writer hne hr hw hnone
    rw [write, he]
    refine ⟨inLine_of_nil hnone, ?_⟩
    rw [List.drop_left, line, line, hnone, hasleep]
    rfl
  · rw [write, he]
    refine ⟨inLine_of_nil hnone, ?_⟩
    rw [List.drop_length, line, line, hnone]
    rfl

theorem InLine.retryWrite (ha : r.Accounted 0) (h : r.InLine) (index : Nat) :
    Queues r [] (r.retryWrite index) := by
  rcases retryWrite_cases r index with he | ⟨name, hi, he⟩
  · rw [he]
    exact h.unmoved
  · have hmem : name ∈ r.writersAwake := List.mem_of_getElem? hi
    have hone : r.writersAwake = [name] := by
      have hpos := List.length_pos_of_mem hmem
      have hle := h.awake_le
      obtain ⟨other, hother⟩ := List.length_eq_one_iff.mp (by omega : r.writersAwake.length = 1)
      rw [hother, List.mem_singleton] at hmem
      rw [hother, hmem]
    have hgone : r.writersAwake.eraseIdx index = [] := by
      obtain ⟨hlt, -⟩ := List.getElem?_eq_some_iff.mp hi
      rw [← List.length_eq_zero_iff, List.length_eraseIdx_of_lt hlt, hone]
      rfl
    -- the lock is still free, so the first in line goes in
    obtain ⟨hread, hwrite⟩ := h.free (List.ne_nil_of_mem hmem)
    obtain ⟨hr, hw⟩ := ha.nobody_inside hread hwrite
    rw [hgone] at he
    rcases enterWrite_cases { r with writersAwake := [] } name with ⟨-, -, hin⟩ | ⟨hbusy, -⟩
    · rw [he, hin]
      refine ⟨inLine_of_nil rfl, ?_⟩
      rw [List.drop_left, line, line, hone, List.append_nil]
      rfl
    · change 0 < r.counters.readers ∨ 0 < r.counters.writers at hbusy
      omega

/-- The signal that reaches the longest asleep leaves the line as it is. -/
theorem signal_line (hnone : r.writersAwake = []) (hread : r.reading = [])
    (hwrite : r.writing = []) (wake : Wake) :
    (r.signal 0 wake).InLine ∧ (r.signal 0 wake).line = r.line := by
  have hin : r.InLine := inLine_of_nil hnone
  cases wake with
  | nobody => exact ⟨hin, rfl⟩
  | allReaders => exact ⟨inLine_of_nil hnone, rfl⟩
  | oneWriter =>
    rw [signal, Nat.zero_mod]
    rcases stirWriter_cases r 0 with ⟨-, he⟩ | ⟨name, hi, he⟩
    · rw [he]
      exact ⟨hin, rfl⟩
    · have hasleep : r.writersAsleep = name :: r.writersAsleep.eraseIdx 0 := by
        cases hs : r.writersAsleep with
        | nil =>
          rw [hs] at hi
          cases hi
        | cons first behind =>
          rw [hs] at hi
          cases hi
          rfl
      rw [he]
      refine ⟨⟨?_, fun _ => ⟨hread, hwrite⟩⟩, ?_⟩
      · rw [hnone]
        exact Nat.le_refl 1
      · rw [line, line, hnone, List.nil_append, List.nil_append]
        exact hasleep.symm

variable [DecidableEq ν]

theorem InLine.update (h : r.InLine) (name : ν) (change : V → V) :
    Queues r [] (r.update name change) := by
  rcases update_cases r name change with ⟨-, he⟩ | ⟨-, he⟩ <;> rw [he]
  · exact h.unmoved
  · exact .aside ⟨h.awake_le, h.free⟩ (Nat.le_refl _) rfl

theorem InLine.endRead (ha : r.Accounted 0) (h : r.InLine) (name : ν) :
    Queues r [] (r.endRead name 0) := by
  rcases endRead_cases r name 0 with he | ⟨value, hmem, he⟩
  · rw [he]
    exact h.unmoved
  · have hread : r.reading ≠ [] := List.ne_nil_of_mem hmem
    have hnone : r.writersAwake = [] := h.awake_nil (.inl hread)
    rw [he]
    by_cases hlast : r.counters.readers - 1 = 0
    · have hout : r.reading.eraseP (·.1 = name) = [] := by
        have hlen : (r.reading.eraseP (·.1 = name)).length = r.reading.length - 1 :=
          List.length_eraseP_of_mem hmem (by simp)
        rw [← List.length_eq_zero_iff, hlen, ← ha.readers_eq, hlast]
      rw [if_pos hlast]
      obtain ⟨hin, hline⟩ := @signal_line _ _
        { r with
          counters := { r.counters with readers := r.counters.readers - 1 }
          reading := r.reading.eraseP (·.1 = name) }
        hnone hout (ha.apart.resolve_right hread) .oneWriter
      refine .aside hin (Nat.le_of_eq ?_) hline
      rw [signal_writing]
    · rw [if_neg hlast]
      exact .aside (inLine_of_nil hnone) (Nat.le_refl _) rfl

theorem InLine.endWrite (ha : r.Accounted 0) (h : r.InLine) (name : ν) :
    Queues r [] (r.endWrite name 0) := by
  rcases endWrite_cases r name 0 with he | ⟨hmem, he⟩
  · rw [he]
    exact h.unmoved
  · have hwrite : r.writing ≠ [] := List.ne_nil_of_mem hmem
    have hout : r.writing.erase name = [] := by
      rw [ha.writing_eq hmem, List.erase_cons_head]
    rw [he]
    obtain ⟨hin, hline⟩ := @signal_line _ _
      { r with counters := { r.counters with writers := 0 }, writing := r.writing.erase name }
      (h.awake_nil (.inr hwrite)) (ha.apart.resolve_left hwrite) hout
      (if 0 < r.counters.waiting then .oneWriter else .allReaders)
    refine .aside hin ?_ hline
    rw [signal_writing, hout]
    exact Nat.zero_le _

/-- A step that keeps to the line: no newcomer comes between a signal and the entry of the writer
that it has awakened, a signal reaches the longest asleep, and no writer wakes up unasked. -/
def Orderly (r : LockRoom ν V) : LockAction ν V → Prop
  | .write _ => r.writersAwake = []
  | .endRead _ _ pick => pick = 0
  | .endWrite _ _ pick => pick = 0
  | .stirWriter _ => False
  | _ => True

def OrderlyRun (r : LockRoom ν V) : List (LockAction ν V) → Prop
  | [] => True
  | action :: actions => r.Orderly action ∧ (r.act action).OrderlyRun actions

theorem InLine.act (ha : r.Accounted 0) (hatt : r.Attended) (h : r.InLine)
    {action : LockAction ν V} (ho : r.Orderly action) :
    Queues r action.asked?.toList (r.act action) := by
  cases action with
  | read name => exact h.read ha name
  | write name => exact queues_write hatt ho name
  | retryRead index => exact h.retryRead ha index
  | retryWrite index => exact h.retryWrite ha index
  | update name change => exact h.update name change
  | endRead name ending pick =>
    cases (ho : pick = 0)
    exact h.endRead ha name
  | endWrite name ending pick =>
    cases (ho : pick = 0)
    exact h.endWrite ha name
  | stirReader index => exact h.stirReader index
  | stirWriter index => exact ho.elim

/-- The writers in the order in which they enter. -/
def entering (r : LockRoom ν V) : List (LockAction ν V) → List ν
  | [] => []
  | action :: actions => r.entrants action ++ (r.act action).entering actions

theorem OrderlyRun.of_append {before later : List (LockAction ν V)}
    (ho : r.OrderlyRun (before ++ later)) :
    r.OrderlyRun before ∧ (r.after before).OrderlyRun later := by
  induction before generalizing r with
  | nil => exact ⟨trivial, ho⟩
  | cons action before ih =>
    obtain ⟨hfirst, hrest⟩ := ho
    obtain ⟨hbefore, hlater⟩ := ih hrest
    exact ⟨⟨hfirst, hbefore⟩, hlater⟩

theorem InLine.after (ha : r.Accounted 0) (hatt : r.Attended) (h : r.InLine)
    {actions : List (LockAction ν V)} (ho : r.OrderlyRun actions) :
    (r.after actions).InLine := by
  induction actions generalizing r with
  | nil => exact h
  | cons action actions ih =>
    exact ih (ha.act action) (hatt.act ha action) (h.act ha hatt ho.1).inLine ho.2

/-- First come, first served: over an orderly run those who enter, and after them those who still
wait, are those who waited at its start and after them those who have asked in it. -/
theorem InLine.entering_line (ha : r.Accounted 0) (hatt : r.Attended) (h : r.InLine)
    {actions : List (LockAction ν V)} (ho : r.OrderlyRun actions) :
    r.entering actions ++ (r.after actions).line = r.line ++ askedIn actions := by
  induction actions generalizing r with
  | nil => exact (List.append_nil _).symm
  | cons action actions ih =>
    have hq := h.act ha hatt ho.1
    have hrest := ih (ha.act action) (hatt.act ha action) hq.inLine ho.2
    have hstep : r.entrants action ++ (r.act action).line = r.line ++ action.asked?.toList :=
      hq.line_eq
    calc r.entrants action ++ (r.act action).entering actions ++ ((r.act action).after actions).line
        = r.entrants action ++ ((r.act action).line ++ askedIn actions) := by
          rw [List.append_assoc, hrest]
      _ = r.line ++ askedIn (action :: actions) := by
          rw [← List.append_assoc, hstep, askedIn_cons, List.append_assoc]

theorem Accounted.write_enters (h : r.Accounted 0) (hread : r.reading = [])
    (hwrite : r.writing = []) (other : ν) : (r.write other).writing = [other] := by
  obtain ⟨hr, hw⟩ := h.nobody_inside hread hwrite
  rcases enterWrite_cases { r with counters := r.counters.announceWrite } other with
    ⟨-, -, he⟩ | ⟨hbusy, -⟩
  · rw [LockRoom.write, he, hwrite, List.nil_append]
  · change 0 < r.counters.readers ∨ 0 < r.counters.writers at hbusy
    omega

theorem Accounted.mem_entrants (h : r.Accounted 0) {action : LockAction ν V} {other : ν} :
    other ∈ r.entrants action ↔ r.reading = [] ∧ r.writing = [] ∧
      (action = .write other ∨
        ∃ index, action = .retryWrite index ∧ r.writersAwake[index]? = some other) := by
  constructor
  · intro hmem
    have hturn := h.turn action
    have hlater := h.act action
    have hnone : (r.act action).writing.length ≤ r.writing.length → False := by
      intro hle
      rw [entrants, List.drop_eq_nil_of_le hle] at hmem
      cases hmem
    generalize hnext : r.act action = next at hturn hlater hnone
    cases hturn with
    | aside ha hn hu => exact (hnone (Nat.le_of_eq (congrArg List.length hu.writing_eq))).elim
    | asked hv hw hwait => exact (hnone (Nat.le_of_eq (congrArg List.length hw))).elim
    | changed hin => exact (hnone (Nat.le_refl _)).elim
    | left hv hw hwait => exact (hnone (hw ▸ Nat.zero_le _)).elim
    | entered name ha hv hnil hw hwait =>
      have hname : other = name := by
        rw [entrants, hnext, hw, hnil] at hmem
        exact List.mem_singleton.mp hmem
      have hread : next.reading = r.reading := by
        rcases ha with rfl | ⟨index, rfl, -⟩
        · exact hnext ▸ enterWrite_reading _ name
        · exact hnext ▸ retryWrite_reading r index
      have hapart := hlater.apart.resolve_left (hw ▸ List.cons_ne_nil name [])
      exact ⟨hread ▸ hapart, hnil, hname ▸ ha⟩
  · rintro ⟨hread, hwrite, ha⟩
    have hin : (r.act action).writing = [other] := by
      rcases ha with rfl | ⟨index, rfl, hi⟩
      · exact h.write_enters hread hwrite other
      · obtain ⟨hr, hw⟩ := h.nobody_inside hread hwrite
        have henter := retryWrite_enters hi hr hw
        rwa [hwrite, List.nil_append] at henter
    rw [entrants, hin, hwrite]
    exact List.mem_singleton_self other

/-- Newcomers that ask one after the other, each when the one before has left. -/
def passing (others : List ν) : List (LockAction ν V) :=
  others.flatMap fun other => [.write other, .endWrite other .inOrder 0]

omit [DecidableEq ν] in
theorem writers_line (hwrite : r.writing = []) : r.writers.Perm r.line := by
  rw [writers, line, hwrite, List.nil_append]
  exact List.perm_append_comm

theorem Accounted.passing_line (h : r.Accounted 0) (hread : r.reading = [])
    (hwrite : r.writing = []) (others : List ν) :
    r.entering (passing others) = others ∧ (r.after (passing others)).line.Perm r.line := by
  induction others generalizing r with
  | nil => exact ⟨rfl, .rfl⟩
  | cons other others ih =>
    have hin : (r.write other).writing = [other] := h.write_enters hread hwrite other
    obtain ⟨-, hout, hleft⟩ := endWrite_left hin 0
    have hnone : ((r.write other).endWrite other 0).reading = [] := by
      rw [endWrite_reading]
      exact (enterWrite_reading _ other).trans hread
    have hsame : ((r.write other).endWrite other 0).line.Perm r.line := by
      have hwriters : ((r.write other).endWrite other 0).writers.Perm r.writers :=
        List.Perm.cons_inv (hleft.symm.trans (write_writers r other))
      exact (writers_line hout).symm.trans (hwriters.trans (writers_line hwrite))
    obtain ⟨henter, hline⟩ := ih ((h.write other).endWrite other 0) hnone hout
    refine ⟨?_, hline.trans hsame⟩
    change (r.write other).writing.drop r.writing.length ++
      (((r.write other).endWrite other 0).writing.drop (r.write other).writing.length ++
        ((r.write other).endWrite other 0).entering (passing others)) = other :: others
    rw [hin, hout, henter, hwrite]
    rfl

theorem Accounted.entrants_waiting (h : r.Accounted 0) (action : LockAction ν V) :
    (r.entrants action).length + (r.act action).counters.waiting =
      r.counters.waiting + if action.asksWrite then 1 else 0 := by
  have hlen : (r.entrants action).length = (r.act action).writing.length - r.writing.length :=
    List.length_drop
  have hturn := h.turn action
  rw [hlen]
  generalize r.act action = next at hturn
  cases hturn with
  | aside ha hn hu =>
    rw [hu.writing_eq, hu.waiting_eq, ha, Nat.sub_self, Nat.zero_add]
    rfl
  | asked hv hw hwait =>
    rw [hw, hwait, Nat.sub_self, Nat.zero_add]
    rfl
  | entered name ha hv hnil hw hwait =>
    rw [hw, hnil, ← hwait]
    exact Nat.add_comm 1 _
  | changed hin => rw [Nat.sub_self, Nat.zero_add]; rfl
  | left hv hw hwait =>
    rw [hw, hwait, List.length_nil, Nat.zero_sub, Nat.zero_add]
    rfl

/-- As long as one of those who waited at the start has not entered, no reader has. -/
theorem Accounted.entering_reading (h : r.Accounted 0) {actions : List (LockAction ν V)}
    (hlt : (r.entering actions).length < r.counters.waiting) :
    (r.after actions).reading.Sublist r.reading := by
  induction actions generalizing r with
  | nil => exact List.Sublist.refl _
  | cons action actions ih =>
    have hne : r.writers ≠ [] := by
      intro hnil
      have hwait := (h.writers_eq_nil.mp hnil).2
      omega
    have hstep := h.entrants_waiting action
    rw [entering, List.length_append] at hlt
    have hrest : ((r.act action).entering actions).length < (r.act action).counters.waiting := by
      omega
    exact (ih (h.act action) hrest).trans (reading_sublist h hne action)

theorem Accounted.entering_lt (h : r.Accounted 0) {name : ν} {later : List (LockAction ν V)}
    (hle : (r.entering (.write name :: later)).length ≤ r.line.length) :
    ((r.act (.write name)).entering later).length < (r.act (.write name)).counters.waiting := by
  have hstep : _ = r.counters.waiting + 1 := h.entrants_waiting (.write name)
  have hwait := h.waiting_eq
  rw [entering, List.length_append, line, List.length_append] at hle
  omega

theorem Accounted.writing_or_entrants (h : r.Accounted 0) (action : LockAction ν V) {other : ν}
    (hmem : other ∈ (r.act action).writing) : other ∈ r.writing ∨ other ∈ r.entrants action := by
  have hturn := h.turn action
  generalize hnext : r.act action = next at hmem hturn
  cases hturn with
  | aside ha hn hu => exact .inl (hu.writing_eq ▸ hmem)
  | asked hv hw hwait => exact .inl (hw ▸ hmem)
  | changed hin => exact .inl hmem
  | entered name ha hv hnil hw hwait =>
    rw [entrants, hnext, hnil]
    exact .inr hmem
  | left hv hw hwait =>
    rw [hw] at hmem
    cases hmem

theorem Accounted.writing_or_entering (h : r.Accounted 0) {actions : List (LockAction ν V)}
    {other : ν} (hmem : other ∈ (r.after actions).writing) :
    other ∈ r.writing ∨ other ∈ r.entering actions := by
  induction actions generalizing r with
  | nil => exact .inl hmem
  | cons action actions ih =>
    rw [entering, List.mem_append]
    rcases ih (h.act action) hmem with hin | hin
    · exact (h.writing_or_entrants action hin).imp_right .inl
    · exact .inr (.inr hin)

/-- A writer still waits although one has entered that asked after it. Each name stands for one
call. -/
def Overtaken (start : V) (before : List (LockAction ν V)) (name : ν)
    (later : List (LockAction ν V)) : Prop :=
  let asked := ((around start).after before).act (.write name)
  (askedIn (before ++ .write name :: later)).Nodup ∧ name ∈ (asked.after later).line ∧
    ∃ other ∈ asked.entering later, other ∉ askedIn before

/-- What an orderly run leaves out lets a writer be overtaken: a newcomer asks before the awakened
writer runs, a signal reaches one that has slept less long, or a writer wakes up unasked and goes
back to sleep behind another. -/
theorem overtaken_by_latecomer :
    Overtaken 0 [.write 1] 2 [.endWrite 1 .inOrder 0, .write 3] ∧
    Overtaken 0 [.write 1] 2 [.write 3, .endWrite 1 .inOrder 1, .retryWrite 0] ∧
    Overtaken 0 [.write 1] 2
      [.write 3, .stirWriter 0, .retryWrite 0, .endWrite 1 .inOrder 0, .retryWrite 0] := by
  refine ⟨⟨?_, ?_, 3, ?_, ?_⟩, ⟨?_, ?_, 3, ?_, ?_⟩, ⟨?_, ?_, 3, ?_, ?_⟩⟩ <;> decide

theorem line_asked (start : V) {before : List (LockAction ν V)} {other : ν}
    (hmem : other ∈ ((around start).after before).line) : other ∈ askedIn before := by
  have hperm := after_writers (accounted_around start) before
  have hin : other ∈ (around start).leaving before ++ ((around start).after before).writers := by
    rw [line, List.mem_append] at hmem
    simp only [writers, List.mem_append]
    exact .inr (.inr hmem.symm)
  simpa [writers, around] using hperm.mem_iff.mp hin

theorem entered_le {ahead entered behind rest : List ν} {name : ν}
    (hline : entered ++ rest = ahead ++ name :: behind) (hahead : name ∉ ahead)
    (hbehind : name ∉ behind) (hrest : name ∈ rest) : entered.length ≤ ahead.length := by
  by_contra hgt
  have hfront : ahead ++ [name] <+: ahead ++ name :: behind := ⟨behind, by simp⟩
  have hpast : ahead ++ [name] <+: entered :=
    List.prefix_of_prefix_length_le hfront (hline ▸ List.prefix_append entered rest)
      (by rw [List.length_append, List.length_singleton]; omega)
  have hin : name ∈ entered := hpast.subset (List.mem_append_right _ (List.mem_singleton_self name))
  have hcount := congrArg (List.count name) hline
  rw [List.count_append, List.count_append, List.count_cons_self, List.count_eq_zero.mpr hahead,
    List.count_eq_zero.mpr hbehind] at hcount
  have hone := List.count_pos_iff.mpr hin
  have htwo := List.count_pos_iff.mpr hrest
  omega

/-- In every run: whether a writer enters depends on nothing but that nobody is inside. Whoever asks
just then goes in, and so does any of the awakened, no matter who has waited longer. So any number
of newcomers may pass those in line, who still wait afterwards. In an orderly run no writer is
overtaken: they enter in the order of their calls. As long as a writer waits, those have entered
only that were in line when it asked, those inside were inside or in line then, and no reader has
come in. -/
theorem run_overtaking (start : V) (name : ν) (before later : List (LockAction ν V)) :
    let last := (around start).after before
    let room := (last.act (.write name)).after later
    let entered := last.entering (.write name :: later)
    (∀ action other, other ∈ room.entrants action ↔ room.reading = [] ∧ room.writing = [] ∧
      (action = .write other ∨
        ∃ index, action = .retryWrite index ∧ room.writersAwake[index]? = some other)) ∧
    (room.reading = [] → room.writing = [] → ∀ others,
      room.entering (passing others) = others ∧
      (room.after (passing others)).line.Perm room.line) ∧
    ((around start).OrderlyRun (before ++ .write name :: later) →
      entered ++ room.line = last.line ++ name :: askedIn later ∧
      (entered.length ≤ last.line.length →
        (∀ other ∈ entered, other ∈ last.line ∧ other ∈ askedIn before) ∧
        (∀ other ∈ room.writing, other ∈ last.writing ++ last.line) ∧
        room.reading.Sublist last.reading) ∧
      ¬ Overtaken start before name later) := by
  intro last room entered
  have hstart : (around start : LockRoom ν V).Accounted 0 := accounted_around start
  have hlast : last.Accounted 0 := hstart.after before
  have hasked : (last.act (.write name)).Accounted 0 := hlast.act (.write name)
  have hroom : room.Accounted 0 := hasked.after later
  refine ⟨fun action other => hroom.mem_entrants, hroom.passing_line, ?_⟩
  intro ho
  obtain ⟨hbefore, hlater⟩ := ho.of_append
  have hatt : last.Attended := (attended_around start).after hstart before
  have hin : last.InLine := (inLine_around start).after hstart (attended_around start) hbefore
  have hline : entered ++ room.line = last.line ++ name :: askedIn later :=
    hin.entering_line hlast hatt hlater
  have hahead : entered.length ≤ last.line.length → ∀ other ∈ entered, other ∈ last.line := by
    intro hle other hmem
    have hfront : entered <+: last.line :=
      List.prefix_of_prefix_length_le (hline ▸ List.prefix_append entered room.line)
        (List.prefix_append last.line _) hle
    exact hfront.subset hmem
  refine ⟨hline, ?_, ?_⟩
  · intro hle
    refine ⟨?_, ?_, ?_⟩
    · intro other hmem
      exact ⟨hahead hle other hmem, line_asked start (hahead hle other hmem)⟩
    · intro other hmem
      have hor : other ∈ last.writing ∨ other ∈ entered := hlast.writing_or_entering hmem
      exact List.mem_append.mpr (hor.imp_right (hahead hle other))
    · have hread : (last.act (.write name)).reading = last.reading := enterWrite_reading _ name
      exact hread ▸ hasked.entering_reading (hlast.entering_lt hle)
  · rintro ⟨hcalls, hstill, other, hother, hlate⟩
    rw [askedIn_append, askedIn_cons] at hcalls
    obtain ⟨-, hrest, hapart⟩ := List.nodup_append.mp hcalls
    have hbehind : name ∉ askedIn later := (List.nodup_cons.mp hrest).1
    have hfirst : name ∉ last.line := by
      intro hmem
      exact hapart _ (line_asked start hmem) _ List.mem_cons_self rfl
    have hle := entered_le hline hfirst hbehind hstill
    have hmem : other ∈ entered := List.mem_append_right _ hother
    exact hlate (line_asked start (hahead hle other hmem))

/-- Two writers are in line behind a third, and a fourth comes when the first in line is inside. It
stands behind the other; newcomers that come when nobody is inside do not. -/
theorem run_overtaking_in_turn :
    let before : List (LockAction Nat Nat) := [.write 1, .write 2]
    let later : List (LockAction Nat Nat) :=
      [.endWrite 1 .inOrder 0, .retryWrite 0, .write 4, .endWrite 2 .inOrder 0]
    let last := (around 0).after before
    let room := (last.act (.write 3)).after later
    (around 0).OrderlyRun (before ++ .write 3 :: later) ∧ room.line = [3, 4] ∧
      (∀ other ∈ last.entering (.write 3 :: later), other ∈ askedIn before) ∧
      room.entering (passing [5, 6]) = [5, 6] ∧ 3 ∈ (room.after (passing [5, 6])).line := by
  intro before later last room
  obtain ⟨-, hpass, horder⟩ := run_overtaking 0 3 before later
  obtain ⟨hpassed, hstill⟩ := hpass (by decide) (by decide) [5, 6]
  have ho : (around 0).OrderlyRun (before ++ .write 3 :: later) := by
    refine ⟨rfl, rfl, rfl, rfl, trivial, rfl, rfl, trivial⟩
  obtain ⟨hline, hahead, -⟩ := horder ho
  have hroom : room.line = [3, 4] := by decide
  refine ⟨ho, hroom, ?_, hpassed, hstill.mem_iff.mpr ?_⟩
  · intro other hmem
    exact ((hahead (by decide)).1 other hmem).2
  · change 3 ∈ room.line
    rw [hroom]
    exact List.mem_cons_self

end LockRoom

end PooledHttp
