import PooledHttp.Proofs.Log.Callers
import PooledHttp.Proofs.Office.Courses

/-! The office and its log fit together. Whoever the log is to answer waits for just that answer, so
the appends that have returned are those that requests were told of, in the same order, and what is
copied from the log is what these have added. -/

namespace PooledHttp

open LogMark

namespace Note

variable {ν : Type}

/-- An append that a request was told of. One of no data never comes to the log. -/
def append? (note : Note ν) : Option (Appended (Errand ν)) :=
  match note.reply with
  | ⟨.appendLog entry, result⟩ => if entry = [] then none else some ⟨note.errand, entry, result⟩
  | _ => none

def appendsIn (notes : List (Note ν)) : List (Appended (Errand ν)) := notes.filterMap append?

theorem appendsIn_append (notes later : List (Note ν)) :
    appendsIn (notes ++ later) = appendsIn notes ++ appendsIn later := List.filterMap_append

/-- What is copied from the log is what was added to it. -/
def ShowsLog (before : List (Note ν)) (note : Note ν) : Prop :=
  ∀ bytes, note.reply = ⟨.copyLog, bytes⟩ → bytes = written (appendsIn before)

end Note

namespace Desk

/-- Only a count changes the counters, and it shows what they have become. -/
theorem perform_tally {machine : Machine} {desk next : Desk} {call : DeskCall}
    {answer : call.Answer} (h : desk.perform machine call = .ok (answer, next)) :
    (∃ kind tally, (⟨call, answer⟩ : (call : DeskCall) × call.Answer) = ⟨.count kind, tally⟩ ∧
        desk.tally.count kind = .ok tally ∧ next.tally = tally) ∨
      (∀ kind, call ≠ .count kind) ∧ next.tally = desk.tally := by
  cases call with
  | receive | file | send =>
    cases h
    exact .inr ⟨nofun, rfl⟩
  | count kind =>
    cases hc : desk.tally.count kind with
    | error e => simp [perform, hc, Except.map] at h
    | ok tally =>
      simp only [perform, hc, Except.map] at h
      cases h
      exact .inl ⟨kind, _, rfl, hc, rfl⟩

end Desk

namespace Office

open Note

variable {ν : Type} [DecidableEq ν]

/-- The log and those who wait for it, with the marks of its own history. -/
structure Logged (marks : List (LogMark (Errand ν))) (notes : List (Note ν)) (o : Office ν) :
    Prop where
  told : LogRoom.Told [] marks o.log
  apart : (o.log.data.map Prod.fst).Nodup
  awaited : ∀ errand data, (errand, data) ∈ o.log.data → data ≠ [] ∧
    (o.station errand.1).begun = errand.2 ∧
      ∃ next, (o.station errand.1).activity = .logging data next
  appends : appendsIn notes = returnedIn marks
  shown : Each ShowsLog notes

variable {start : ν → Tally} {marks : List (LogMark (Errand ν))} {notes : List (Note ν)}
  {o : Office ν} {worker : ν}

theorem Logged.put (h : Logged marks notes o)
    (hnot : ∀ errand data, (errand, data) ∈ o.log.data → errand.1 ≠ worker) (s : Station) :
    Logged marks notes (o.put worker s) := by
  refine ⟨h.told, h.apart, ?_, h.appends, h.shown⟩
  intro errand data hmem
  rw [put_station_ne o s (hnot errand data hmem)]
  exact h.awaited errand data hmem

theorem Logged.not_awaited (h : Logged marks notes o) (worker : ν)
    (hnot : ∀ entry next, (o.station worker).activity ≠ .logging entry next) :
    ∀ errand data, (errand, data) ∈ o.log.data → errand.1 ≠ worker := by
  rintro errand data hmem rfl
  obtain ⟨-, -, next, hactivity⟩ := h.awaited errand data hmem
  exact hnot data next hactivity

theorem Logged.note (h : Logged marks notes o) {note : Note ν} (hnone : note.append? = none)
    (hshown : ShowsLog notes note) : Logged marks (notes ++ [note]) o := by
  refine ⟨h.told, h.apart, h.awaited, ?_, h.shown.concat hshown⟩
  rw [appendsIn_append, h.appends]
  exact (congrArg _ (List.filterMap_cons_none hnone)).trans (List.append_nil _)

theorem Logged.withLog (h : Logged marks notes o) {more : List (LogMark (Errand ν))}
    {log : LogRoom (Errand ν)} (htold : LogRoom.Told [] (marks ++ more) log)
    (hd : log.data = o.log.data) (hm : returnedIn more = []) :
    Logged (marks ++ more) notes { o with log } := by
  refine ⟨htold, ?_, ?_, ?_, h.shown⟩
  · rw [hd]
    exact h.apart
  · rw [hd]
    exact h.awaited
  · rw [returnedIn_append, hm, List.append_nil]
    exact h.appends

theorem Logged.asked (h : Logged marks notes o) {more : List (LogMark (Errand ν))}
    {log : LogRoom (Errand ν)} (htold : LogRoom.Told [] (marks ++ more) log) {errand : Errand ν}
    {data : Bytes} (hd : log.data = o.log.data ++ [(errand, data)]) (hm : returnedIn more = [])
    (hne : data ≠ []) (hfresh : errand ∉ o.log.data.map Prod.fst)
    (hbegun : (o.station errand.1).begun = errand.2)
    (hactivity : ∃ next, (o.station errand.1).activity = .logging data next) :
    Logged (marks ++ more) notes { o with log } := by
  refine ⟨htold, ?_, ?_, ?_, h.shown⟩
  · rw [hd, List.map_append]
    exact (List.perm_append_singleton errand _).nodup_iff.mpr (List.nodup_cons.mpr ⟨hfresh, h.apart⟩)
  · rw [hd]
    intro other bytes hmem
    rcases List.mem_append.mp hmem with hmem | hmem
    · exact h.awaited other bytes hmem
    · cases List.mem_singleton.mp hmem
      exact ⟨hne, hbegun, hactivity⟩
  · rw [returnedIn_append, hm, List.append_nil]
    exact h.appends

/-- Who comes with no data has not come to the log. -/
theorem Logged.not_awaited_empty (h : Logged marks notes o)
    {next : Except AllocationError Unit → Handling}
    (hactivity : (o.station worker).activity = .logging [] next) :
    ∀ errand data, (errand, data) ∈ o.log.data → errand.1 ≠ worker := by
  rintro errand data hmem rfl
  obtain ⟨hne, -, next', hother⟩ := h.awaited errand data hmem
  rw [hactivity] at hother
  cases hother
  exact hne rfl

/-- Whose append returns has waited for it, and nobody else of that worker does. -/
theorem Logged.returned (h : Logged marks notes o) {more : List (LogMark (Errand ν))}
    {log : LogRoom (Errand ν)} (htold : LogRoom.Told [] (marks ++ more) log) {errand : Errand ν}
    {result : Except AllocationError Unit} (hmem : errand ∈ o.log.data.map Prod.fst)
    (hd : log.data = o.log.data.eraseP (·.1 = errand))
    (hm : returnedIn more = [⟨errand, o.log.dataOf errand, result⟩]) :
    (o.station errand.1).begun = errand.2 ∧
      (∃ next, (o.station errand.1).activity = .logging (o.log.dataOf errand) next) ∧
      ∀ s, Logged (marks ++ more)
        (notes ++ [⟨errand, ⟨.appendLog (o.log.dataOf errand), result⟩⟩])
        (({ o with log } : Office ν).put errand.1 s) := by
  have hperm := LogRoom.data_perm hmem
  have hapart := (hperm.map Prod.fst).nodup_iff.mp h.apart
  obtain ⟨hne, hbegun, hactivity⟩ := h.awaited _ _ (hperm.mem_iff.mpr List.mem_cons_self)
  rw [List.map_cons, List.nodup_cons, ← hd] at hapart
  have hold : ∀ other data, (other, data) ∈ log.data → (other, data) ∈ o.log.data := by
    intro other data hin
    rw [hd] at hin
    exact List.mem_of_mem_eraseP hin
  -- a worker waits for one request at a time, so another entry of its own would be this one
  have hnot : ∀ other data, (other, data) ∈ log.data → other.1 ≠ errand.1 := by
    intro other data hin he
    obtain ⟨-, hother, -⟩ := h.awaited _ _ (hold other data hin)
    have hsame : other = errand := Prod.ext he (by rw [← hother, he, hbegun])
    rw [hsame] at hin
    exact hapart.1 (List.mem_map.mpr ⟨_, hin, rfl⟩)
  have hnote : appendsIn (notes ++ [⟨errand, ⟨.appendLog (o.log.dataOf errand), result⟩⟩]) =
      returnedIn (marks ++ more) := by
    rw [appendsIn_append, returnedIn_append, h.appends, hm]
    exact congrArg _ (List.filterMap_cons_some (if_neg hne))
  have hbase : Logged (marks ++ more)
      (notes ++ [⟨errand, ⟨.appendLog (o.log.dataOf errand), result⟩⟩]) { o with log } :=
    ⟨htold, hapart.2, fun other data hin => h.awaited other data (hold other data hin), hnote,
      h.shown.concat fun _ he => by cases he⟩
  exact ⟨hbegun, hactivity, hbase.put hnot⟩

structure Coherent (start : ν → Tally) (marks : List (LogMark (Errand ν))) (notes : List (Note ν))
    (o : Office ν) : Prop where
  courses : Courses start notes o
  logged : Logged marks notes o

theorem hear_appended {errand : Errand ν} {entry : Bytes}
    {next : Except AllocationError Unit → Handling}
    (hbegun : (o.station errand.1).begun = errand.2)
    (hactivity : (o.station errand.1).activity = .logging entry next)
    (result : Except AllocationError Unit) :
    o.hear (.appended errand result) =
      (o.put errand.1 { o.station errand.1 with activity := .busy (next result) },
        some ⟨errand, ⟨.appendLog entry, result⟩⟩) := by
  simp only [hear, hactivity, if_pos hbegun]

theorem hear_looked (o : Office ν) (errand : Errand ν) (bytes : Bytes) (length : Nat) :
    o.hear (.looked errand bytes length) = (o, none) ∨
      ∃ next, (o.station errand.1).begun = errand.2 ∧
        (o.station errand.1).activity = .copying next ∧
        o.hear (.looked errand bytes length) =
          (o.put errand.1 { o.station errand.1 with activity := .busy (next bytes) },
            some ⟨errand, ⟨.copyLog, bytes⟩⟩) := by
  cases hactivity : (o.station errand.1).activity with
  | copying next =>
    by_cases hbegun : (o.station errand.1).begun = errand.2
    · exact .inr ⟨next, hbegun, rfl, by simp only [hear, hactivity, if_pos hbegun]⟩
    · exact .inl (by simp only [hear, hactivity, if_neg hbegun])
  | idle | busy | logging | lost => exact .inl (by simp only [hear, hactivity])

theorem Courses.appended (h : Courses start notes o) {errand : Errand ν} {entry : Bytes}
    {next : Except AllocationError Unit → Handling}
    (hbegun : (o.station errand.1).begun = errand.2)
    (hactivity : (o.station errand.1).activity = .logging entry next)
    (result : Except AllocationError Unit) :
    Courses start (notes ++ [⟨errand, ⟨.appendLog entry, result⟩⟩])
      (o.put errand.1 { o.station errand.1 with activity := .busy (next result) }) := by
  obtain ⟨worker, number⟩ := errand
  dsimp only at hbegun hactivity ⊢
  subst hbegun
  exact h.reply (s := { o.station worker with activity := .busy (next result) }) result
    (by rw [hactivity]; rfl) rfl rfl rfl fun _ _ he => by cases he

theorem Courses.copied (h : Courses start notes o) {errand : Errand ν} {next : Bytes → Handling}
    (hbegun : (o.station errand.1).begun = errand.2)
    (hactivity : (o.station errand.1).activity = .copying next) (bytes : Bytes) :
    Courses start (notes ++ [⟨errand, ⟨.copyLog, bytes⟩⟩])
      (o.put errand.1 { o.station errand.1 with activity := .busy (next bytes) }) := by
  obtain ⟨worker, number⟩ := errand
  dsimp only at hbegun hactivity ⊢
  subst hbegun
  exact h.reply (s := { o.station worker with activity := .busy (next bytes) }) bytes
    (by rw [hactivity]; rfl) rfl rfl rfl fun _ _ he => by cases he

/-- Whoever asks the log to append waits for that. -/
def Calls (o : Office ν) (action : LogAction (Errand ν)) : Prop :=
  ∀ errand data, action = .append errand data → (o.station errand.1).begun = errand.2 ∧
    errand ∉ o.log.data.map Prod.fst ∧
      ∃ next, (o.station errand.1).activity = .logging data next

theorem Coherent.consult (h : Coherent start marks notes o) {action : LogAction (Errand ν)}
    (hcalls : o.Calls action) :
    Coherent start (marks ++ o.log.marks action) (notes ++ (o.consult action).2.toList)
      (o.consult action).1 := by
  obtain ⟨hcourses, hlogged⟩ := h
  have hprogress := LogRoom.act_progress hlogged.told.accounted action
  have htold := hlogged.told.step (LogRoom.act_deed hlogged.told.accounted action)
    (LogRoom.act_accounted hlogged.told.accounted action)
  have hlooked : ∀ name bytes length, (o.log.act action).2 = some (.looked name bytes length) →
      bytes = written (appendsIn notes) := by
    intro name bytes length hl
    obtain ⟨hnil, hbytes, -⟩ := hlogged.told.looked hl
    rw [hbytes, (hlogged.told.settled hnil).2, hlogged.appends]
    rfl
  rcases hact : o.log.act action with ⟨log, event⟩
  rw [hact] at hprogress htold hlooked
  dsimp only at hprogress htold hlooked
  -- the log's step decides who, if anybody, hears of it
  cases hprogress with
  | aside hd hm =>
    simp only [Office.consult, hact, Option.toList_none, List.append_nil]
    exact ⟨hcourses.withLog log, hlogged.withLog htold hd hm⟩
  | asked ha hne hd hm =>
    obtain ⟨hbegun, hfresh, hactivity⟩ := hcalls _ _ ha
    simp only [Office.consult, hact, Option.toList_none, List.append_nil]
    exact ⟨hcourses.withLog log, hlogged.asked htold hd hm hne hfresh hbegun hactivity⟩
  | passed ha hm =>
    obtain ⟨hbegun, -, next, hactivity⟩ := hcalls _ _ ha
    have hbase := hlogged.withLog htold rfl hm
    simp only [Office.consult, hact, hear_appended hbegun hactivity]
    exact ⟨(hcourses.withLog o.log).appended hbegun hactivity _,
      (hbase.note rfl fun _ he => by cases he).put (hlogged.not_awaited_empty hactivity) _⟩
  -- a look that nobody waits for any more gives no note
  | @looked errand bytes length _ hd hm =>
    have hbase := hlogged.withLog htold hd hm
    simp only [Office.consult, hact]
    rcases hear_looked { o with log } errand bytes length with
      hmissed | ⟨next, hbegun, hactivity, hheard⟩
    · rw [hmissed, Option.toList_none, List.append_nil]
      exact ⟨hcourses.withLog log, hbase⟩
    · have hnot := hbase.not_awaited errand.1 (by rw [hactivity]; nofun)
      have hshown : ShowsLog notes ⟨errand, ⟨.copyLog, bytes⟩⟩ := by
        intro shown he
        cases he
        exact hlooked errand bytes length rfl
      rw [hheard]
      exact ⟨(hcourses.withLog log).copied hbegun hactivity bytes,
        (hbase.note rfl hshown).put hnot _⟩
  | @returned errand result _ hw hd hm =>
    have hmem : errand ∈ o.log.data.map Prod.fst :=
      hlogged.told.mem_data (hw ▸ List.mem_singleton_self errand)
    obtain ⟨hbegun, ⟨next, hactivity⟩, hafter⟩ := hlogged.returned htold hmem hd hm
    have hheard := hear_appended (o := { o with log }) hbegun hactivity result
    simp only [Office.consult, hact]
    rw [hheard]
    exact ⟨(hcourses.withLog log).appended hbegun hactivity result, hafter _⟩

/-- A step that neither the log nor a request takes note of. -/
theorem Coherent.quiet (h : Coherent start marks notes o) :
    ∃ more, Coherent start (marks ++ more) (notes ++ none.toList) o :=
  ⟨[], by rwa [List.append_nil, Option.toList_none, List.append_nil]⟩

theorem Coherent.turn (h : Coherent start marks notes o) (s : Station)
    (hnot : ∀ entry next, (o.station worker).activity ≠ .logging entry next)
    (hbegun : s.begun = (o.station worker).begun)
    (htally : s.desk.tally = (o.station worker).desk.tally)
    (hleft : ∀ left ∈ s.activity.left?, left ∈ (o.station worker).activity.left?) :
    Coherent start marks notes (o.put worker s) :=
  ⟨h.courses.turn hbegun htally hleft, h.logged.put (h.logged.not_awaited worker hnot) s⟩

theorem Coherent.takeUp (h : Coherent start marks notes o) (worker : ν) (timing : Timing)
    (incoming : List ReadEvent) : Coherent start marks notes (o.takeUp worker timing incoming) := by
  cases ha : (o.station worker).activity with
  | idle =>
    have hnot := h.logged.not_awaited worker (by rw [ha]; nofun)
    simp only [Office.takeUp, ha]
    exact ⟨h.courses.takeUp timing rfl rfl rfl, h.logged.put hnot _⟩
  | busy | copying | logging | lost =>
    simp only [Office.takeUp, ha]
    exact h

theorem Coherent.atDesk (h : Coherent start marks notes o) {call : DeskCall}
    {next : call.Answer → Handling}
    (hactivity : (o.station worker).activity = .busy (.ask (.desk call) next)) {machine : Machine}
    {answer : call.Answer} {desk : Desk}
    (hperform : (o.station worker).desk.perform machine call = .ok (answer, desk)) :
    Coherent start marks
      (notes ++ [⟨(worker, (o.station worker).begun), ⟨.desk call, answer⟩⟩])
      (o.put worker { o.station worker with desk, activity := .busy (next answer) }) := by
  have hnot := h.logged.not_awaited worker (by rw [hactivity]; nofun)
  refine ⟨?_, (h.logged.note rfl fun _ he => by cases he).put hnot _⟩
  have hasks : .ask (.desk call) next ∈ (o.station worker).activity.left? := by
    rw [hactivity]
    rfl
  refine h.courses.reply (s := { o.station worker with desk, activity := .busy (next answer) })
    answer hasks rfl rfl ?_ ?_
  · rcases Desk.perform_tally hperform with ⟨kind, tally, he, hcount, htally⟩ | ⟨hne, htally⟩
    · cases he
      have hkinds := kindsOf_count (worker, (o.station worker).begun) kind tally
      rw [hkinds, List.foldlM_cons, hcount, htally]
      rfl
    · have hkinds : kindsOf worker
          [⟨(worker, (o.station worker).begun), ⟨.desk call, answer⟩⟩] = [] := by
        cases call with
        | count kind => exact absurd rfl (hne kind)
        | receive | file | send => rfl
      rw [hkinds, htally]
      rfl
  · intro kind tally he
    rcases Desk.perform_tally hperform with ⟨kind, tally, hcall, hcount, htally⟩ | ⟨hne, -⟩
    · cases hcall
      cases he
      exact htally
    · cases he
      exact absurd rfl (hne kind)

theorem Coherent.proceed (h : Coherent start marks notes o) (worker : ν) (machine : Machine) :
    ∃ more, Coherent start (marks ++ more) (notes ++ (o.proceed worker machine).2.toList)
      (o.proceed worker machine).1 := by
  rcases ha : (o.station worker).activity with _ | left | _ | _ | _
  · simp only [Office.proceed, ha]
    exact h.quiet
  · have hnot : ∀ entry next, (o.station worker).activity ≠ .logging entry next := by
      rw [ha]
      nofun
    cases left with
    | done status =>
      simp only [Office.proceed, ha]
      exact (h.turn { o.station worker with activity := .idle } hnot rfl rfl nofun).quiet
    | ask call next =>
      cases call with
      | desk call =>
        rcases hp : (o.station worker).desk.perform machine call with e | ⟨answer, desk⟩
        · simp only [Office.proceed, ha, hp]
          exact (h.turn { o.station worker with activity := .lost } hnot rfl rfl nofun).quiet
        · simp only [Office.proceed, ha, hp]
          exact ⟨[], by rw [List.append_nil]; exact h.atDesk ha hp⟩
      | copyLog =>
        simp only [Office.proceed, ha]
        have hwaits := h.turn { o.station worker with activity := .copying next } hnot rfl rfl
          (by rw [ha]; exact fun _ he => he)
        refine ⟨_, hwaits.consult ?_⟩
        intro errand data he
        cases he
      | appendLog entry =>
        simp only [Office.proceed, ha]
        have hwaits := h.turn { o.station worker with activity := .logging entry next } hnot rfl rfl
          (by rw [ha]; exact fun _ he => he)
        refine ⟨_, hwaits.consult ?_⟩
        intro errand data he
        cases he
        rw [put_station_self]
        refine ⟨rfl, fun hmem => ?_, next, rfl⟩
        obtain ⟨⟨errand, data⟩, hdata, he⟩ := List.mem_map.mp hmem
        exact h.logged.not_awaited worker hnot errand data hdata (congrArg Prod.fst he)
  · simp only [Office.proceed, ha]
    exact h.quiet
  · simp only [Office.proceed, ha]
    exact h.quiet
  · simp only [Office.proceed, ha]
    exact h.quiet

theorem Coherent.act (h : Coherent start marks notes o) (action : OfficeAction ν) :
    ∃ more, Coherent start (marks ++ more) (notes ++ (o.act action).2.toList) (o.act action).1 := by
  cases action with
  | takeUp worker timing incoming => exact (h.takeUp worker timing incoming).quiet
  | proceed worker machine => exact h.proceed worker machine
  | inLog action =>
    cases hc : action.isCall with
    | true =>
      simp only [Office.act, hc, if_true]
      exact h.quiet
    | false =>
      simp only [Office.act, hc, Bool.false_eq_true, if_false]
      refine ⟨_, h.consult ?_⟩
      rintro errand data rfl
      cases hc

/-- The office after a run, in which any of its parts may take any steps in any order. -/
def after (o : Office ν) : List (OfficeAction ν) → Office ν
  | [] => o
  | action :: actions => (o.act action).1.after actions

/-- The calls that got their answers in a run, in the order of the answers. -/
def history (o : Office ν) : List (OfficeAction ν) → List (Note ν)
  | [] => []
  | action :: actions => (o.act action).2.toList ++ (o.act action).1.history actions

theorem history_append (o : Office ν) (before later : List (OfficeAction ν)) :
    o.history (before ++ later) = o.history before ++ (o.after before).history later := by
  induction before generalizing o with
  | nil => rfl
  | cons action before ih =>
    rw [List.cons_append, history, history, ih, List.append_assoc]
    rfl

theorem Coherent.after (h : Coherent start marks notes o) (actions : List (OfficeAction ν)) :
    ∃ more, Coherent start (marks ++ more) (notes ++ o.history actions) (o.after actions) := by
  induction actions generalizing o marks notes with
  | nil => exact ⟨[], by rwa [history, List.append_nil, List.append_nil]⟩
  | cons action actions ih =>
    obtain ⟨more, hstep⟩ := h.act action
    obtain ⟨rest, hrun⟩ := ih hstep
    rw [List.append_assoc] at hrun
    rw [history, ← List.append_assoc]
    exact ⟨more ++ rest, hrun⟩

theorem coherent_start {allocate : Allocator} {capacity : Nat} {buffer : LogBuffer}
    (hcreate : LogBuffer.create allocate capacity = .ok buffer) (root : String)
    (start : ν → Tally) : Coherent start [] [] (Office.start root start buffer) := by
  have htold : LogRoom.Told [] [] (.around buffer : LogRoom (Errand ν)) := by
    have htold := LogRoom.told_around (ν := Errand ν) buffer
    rwa [LogRoom.create_bytes hcreate] at htold
  exact ⟨courses_start root start buffer, htold, .nil, nofun, rfl, each_nil _⟩

end Office

end PooledHttp
