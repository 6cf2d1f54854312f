import PooledHttp.Proofs.Office.Coherence

/-! What reports show. A report is the log as it was when it was copied: the entries, whole and in
their order, of GETs that their workers had counted by then. A GET that succeeds is in the log before
the first byte of its answer is written, so every report from there on has its entry. -/

namespace PooledHttp

namespace Appended

variable {ν : Type}

theorem written_append (older newer : List (Appended ν)) :
    written (older ++ newer) = written older ++ written newer := by
  rw [written, List.filter_append, List.flatMap_append]
  rfl

theorem written_cons_ok (name : ν) (data : Bytes) (newer : List (Appended ν)) :
    written (⟨name, data, .ok ()⟩ :: newer) = data ++ written newer := rfl

end Appended

namespace Note

variable {ν : Type}

/-- What a request asks for, as it was received. -/
def Asked (notes : List (Note ν)) (errand : Errand ν) (request : Request) : Prop :=
  ∃ raw, ⟨errand, ⟨.desk .receive, .ok raw⟩⟩ ∈ notes ∧ Request.parse raw = .ok request

variable {notes : List (Note ν)} {errand : Errand ν}

theorem Asked.mono {request : Request} (h : Asked notes errand request) (more : List (Note ν)) :
    Asked (notes ++ more) errand request := by
  obtain ⟨raw, hmem, hparse⟩ := h
  exact ⟨raw, List.mem_append_left _ hmem, hparse⟩

theorem append?_eq_some {note : Note ν} {a : Appended (Errand ν)} (h : note.append? = some a) :
    note = ⟨a.name, ⟨.appendLog a.data, a.result⟩⟩ ∧ a.data ≠ [] := by
  obtain ⟨errand, call, answer⟩ := note
  cases call with
  | appendLog entry =>
    simp only [append?] at h
    by_cases hempty : entry = []
    · rw [if_pos hempty] at h
      cases h
    · rw [if_neg hempty] at h
      cases h
      exact ⟨rfl, hempty⟩
  | desk | copyLog => cases h

theorem mem_appendsIn {entry : Bytes} {result : Except AllocationError Unit}
    (h : ⟨errand, ⟨.appendLog entry, result⟩⟩ ∈ notes) (hne : entry ≠ []) :
    ⟨errand, entry, result⟩ ∈ appendsIn notes :=
  List.mem_filterMap.mpr ⟨_, h, if_neg hne⟩

variable [DecidableEq ν]

/-- The seven lines of a GET that its worker has counted, with the counters as they were then. -/
def IsEntry (start : ν → Tally) (notes : List (Note ν)) (a : Appended (Errand ν)) : Prop :=
  ∃ request timing kind tally before since,
    Asked notes a.name request ∧ request.method = .get ∧
    notes = before ++ ⟨a.name, ⟨.desk (.count (some kind)), tally⟩⟩ :: since ∧
    (kindsOf a.name.1 before ++ [some kind]).foldlM Tally.count (start a.name.1) = .ok tally ∧
    a.data = (LogEntry.mk timing tally).shown.bytes

variable {start : ν → Tally}

theorem IsEntry.mono {a : Appended (Errand ν)} (h : IsEntry start notes a)
    (more : List (Note ν)) : IsEntry start (notes ++ more) a := by
  obtain ⟨request, timing, kind, tally, before, since, hasked, hget, hsplit, hcount, hdata⟩ := h
  refine ⟨request, timing, kind, tally, before, since ++ more, hasked.mono more, hget, ?_, hcount,
    hdata⟩
  rw [hsplit, List.append_assoc]
  rfl

end Note

namespace Office

open Note

variable {ν : Type} [DecidableEq ν]

/-- A request has come to sending its answer: nothing of it was written before, and from here on some
of it may be. -/
def Sends (o : Office ν) (notes : List (Note ν)) (errand : Errand ν) (response : Response) : Prop :=
  ⟨errand, ⟨.desk (.send response), ()⟩⟩ ∈ notes ∨
    (o.station errand.1).begun = errand.2 ∧
      ∃ next, (o.station errand.1).activity = .busy (.ask (.desk (.send response)) next)

variable {start : ν → Tally} {notes : List (Note ν)} {o : Office ν} {errand : Errand ν}

theorem Courses.begun (h : Courses start notes o) {note : Note ν} (hmem : note ∈ notes) :
    note.errand.2 ≤ (o.station note.errand.1).begun := by
  by_contra hlt
  have hreply : note.reply ∈ repliesTo note.errand notes := mem_repliesTo hmem
  rw [h.unbegun note.errand (Nat.lt_of_not_le hlt)] at hreply
  cases hreply

theorem Courses.asking (h : Courses start notes o) {front back : List (Note ν)} {note : Note ν}
    (hsplit : notes = front ++ note :: back) :
    ∃ timing next, (Handling.answer o.root timing).Leads (repliesTo note.errand front)
      (.ask note.reply.1 next) := by
  have hmem : note ∈ notes := by
    rw [hsplit]
    exact List.mem_append_right _ List.mem_cons_self
  obtain ⟨timing, last, hleads, -⟩ := h.leads note.errand (h.begun hmem)
  have hreplies : repliesTo note.errand notes =
      repliesTo note.errand front ++ note.reply :: repliesTo note.errand back := by
    rw [hsplit, repliesTo_append, ← List.singleton_append, repliesTo_append, repliesTo_own,
      List.singleton_append]
  rw [hreplies] at hleads
  obtain ⟨next, hfront, -⟩ := hleads.split
  exact ⟨timing, next, hfront⟩

/-- What was received is the first answer that a request got. -/
theorem Courses.received (h : Courses start notes o) {received : Except SystemError Bytes}
    (hmem : ⟨errand, ⟨.desk .receive, received⟩⟩ ∈ notes) :
    ∃ later, repliesTo errand notes = ⟨.desk .receive, received⟩ :: later := by
  obtain ⟨timing, last, hleads, -⟩ := h.leads errand (h.begun hmem)
  exact Handling.answer_received hleads (mem_repliesTo hmem)

theorem Courses.isEntry (h : Courses start notes o) {front back : List (Note ν)} {entry : Bytes}
    {result : Except AllocationError Unit}
    (hsplit : notes = front ++ ⟨errand, ⟨.appendLog entry, result⟩⟩ :: back) :
    IsEntry start front ⟨errand, entry, result⟩ := by
  obtain ⟨timing, next, hleads⟩ := h.asking hsplit
  dsimp only at hleads
  obtain ⟨raw, asked, draft, later, hreplies, hdrafts, hfinish⟩ := Handling.answer_late hleads rfl
  obtain ⟨tally, ⟨hlater, hlogged, hcall⟩ | ⟨hcall, -⟩⟩ := Handling.finish_late hfinish rfl
  · rw [hlater] at hreplies
    obtain ⟨request, kind, hparse, hget, hkind⟩ := hdrafts.get_of_logged hlogged
    have hreceived : (⟨errand, ⟨.desk .receive, .ok raw⟩⟩ : Note ν) ∈ front := by
      refine mem_of_mem_repliesTo ?_
      rw [hreplies]
      exact List.mem_cons_self
    have hcounted : (⟨errand, ⟨.desk (.count (some kind)), tally⟩⟩ : Note ν) ∈ front := by
      refine mem_of_mem_repliesTo ?_
      rw [hreplies, ← hkind]
      exact List.mem_cons_of_mem _ (List.mem_append_right _ List.mem_cons_self)
    obtain ⟨before, since, rfl⟩ := List.append_of_mem hcounted
    refine ⟨request, timing, kind, tally, before, since, ⟨raw, hreceived, hparse⟩, hget, rfl, ?_, ?_⟩
    · exact h.shown before _ _ (by rw [hsplit, List.append_assoc]; rfl) _ _ rfl
    · exact (HandlerCall.appendLog.inj hcall).trans (LogEntry.bytes_shown ⟨timing, tally⟩)
  · cases hcall

theorem Courses.sending (h : Courses start notes o) {response : Response}
    (hs : o.Sends notes errand response) :
    ∃ front back timing next, notes = front ++ back ∧
      (Handling.answer o.root timing).Leads (repliesTo errand front)
        (.ask (.desk (.send response)) next) := by
  rcases hs with hsent | ⟨hbegun, next, hactivity⟩
  · obtain ⟨front, back, hsplit⟩ := List.append_of_mem hsent
    obtain ⟨timing, next, hleads⟩ := h.asking hsplit
    exact ⟨front, _, timing, next, hsplit, hleads⟩
  · obtain ⟨timing, last, hleads, hlast⟩ := h.leads errand (Nat.le_of_eq hbegun.symm)
    rw [hlast hbegun.symm _ (by rw [hactivity]; rfl)] at hleads
    exact ⟨notes, [], timing, next, (List.append_nil notes).symm, hleads⟩

/-- What is sent was drafted for what was received, and logged before if it was to be. -/
theorem Courses.sent (h : Courses start notes o) {request : Request} {response : Response}
    (hs : o.Sends notes errand response) (hasked : Asked notes errand request) :
    ∃ raw asked draft tally timing, Request.parse raw = .ok request ∧
      Handling.Drafts o.root raw asked draft ∧ (∀ reply ∈ asked, ⟨errand, reply⟩ ∈ notes) ∧
      response = draft.answer timing tally ∧
      (draft.isLogged = true → ∃ result, ⟨errand,
        ⟨.appendLog (Utf8.ofString (StatBlock.build timing tally).entry), result⟩⟩ ∈ notes) := by
  obtain ⟨raw', hreceived, hparse⟩ := hasked
  obtain ⟨front, back, timing, next, hsplit, hleads⟩ := h.sending hs
  obtain ⟨raw, asked, draft, later, hreplies, hdrafts, hfinish⟩ := Handling.answer_late hleads rfl
  obtain ⟨rest, hfirst⟩ := h.received hreceived
  have hraw : raw = raw' := by
    rw [hsplit, repliesTo_append, hreplies] at hfirst
    have hhead := congrArg List.head? hfirst
    simpa using hhead
  have hnotes : ∀ reply ∈ repliesTo errand front, ⟨errand, reply⟩ ∈ notes := by
    intro reply hmem
    rw [hsplit]
    exact List.mem_append_left _ (mem_of_mem_repliesTo hmem)
  rw [hreplies] at hnotes
  have hbehind : ∀ reply ∈ asked ++ later, ⟨errand, reply⟩ ∈ notes :=
    fun reply hmem => hnotes reply (List.mem_cons_of_mem _ hmem)
  obtain ⟨tally, ⟨-, -, hcall⟩ | ⟨hcall, hlater⟩⟩ := Handling.finish_late hfinish rfl
  · cases hcall
  · refine ⟨raw, asked, draft, tally, timing, by rw [hraw, hparse], hdrafts,
      fun reply hmem => hbehind reply (List.mem_append_left _ hmem),
      DeskCall.send.inj (HandlerCall.desk.inj hcall), fun hlogged => ?_⟩
    rcases hlater with ⟨-, result, rfl⟩ | ⟨hnot, -⟩
    · refine ⟨result, hbehind _ (List.mem_append_right _ ?_)⟩
      exact List.mem_cons_of_mem _ List.mem_cons_self
    · rw [hnot] at hlogged
      cases hlogged

/-- Whoever has come to sending a page to a GET has logged what the page shows, as the entry that it is. -/
theorem Courses.logged_of_sends (h : Courses start notes o) {request : Request}
    {response : Response} (hs : o.Sends notes errand response)
    (hasked : Asked notes errand request) (hget : request.method = .get)
    (hok : response.status = .ok) :
    ∃ e : LogEntry, response.statistics = e.shown.fields ∧ ∃ result,
      ⟨errand, ⟨.appendLog e.shown.bytes, result⟩⟩ ∈ notes ∧
        IsEntry start notes ⟨errand, e.shown.bytes, result⟩ := by
  obtain ⟨raw, asked, draft, tally, timing, hparse, hdrafts, -, rfl, hlogged⟩ := h.sent hs hasked
  have hstatus : draft.response.status = .ok :=
    (Response.setHeaders_status _ _).symm.trans hok
  obtain ⟨result, hmem⟩ := hlogged (hdrafts.logged_of_get hparse hget hstatus)
  obtain ⟨front, back, hsplit⟩ := List.append_of_mem hmem
  have hentry := (h.isEntry hsplit).mono (⟨errand, ⟨.appendLog _, result⟩⟩ :: back)
  rw [← hsplit] at hentry
  refine ⟨⟨timing, tally⟩, hdrafts.made.statistics timing tally, result, ?_⟩
  rw [← LogEntry.bytes_shown]
  exact ⟨hmem, hentry⟩

theorem Courses.report_of_sends (h : Courses start notes o) {request : Request}
    {response : Response} (hs : o.Sends notes errand response)
    (hasked : Asked notes errand request) (hpost : request.method = .post)
    (hok : response.status = .ok) : ⟨errand, ⟨.copyLog, response.body⟩⟩ ∈ notes := by
  obtain ⟨raw, asked, draft, tally, timing, hparse, hdrafts, hnotes, rfl, -⟩ := h.sent hs hasked
  have hstatus : draft.response.status = .ok :=
    (Response.setHeaders_status _ _).symm.trans hok
  have hbody : (draft.answer timing tally).body = draft.response.body :=
    Response.setHeaders_body _ _
  rw [hbody]
  exact hnotes _ (hdrafts.report hparse hpost hstatus)

/-- What a request was given as the log is the body of what it sends. -/
theorem Courses.body_of_copied (h : Courses start notes o) {response : Response}
    (hs : o.Sends notes errand response) {bytes : Bytes}
    (hcopied : ⟨errand, ⟨.copyLog, bytes⟩⟩ ∈ notes) : response.body = bytes := by
  obtain ⟨timing, last, hleads, hlast⟩ := h.leads errand (h.begun hcopied)
  obtain ⟨front, back, hreplies, hearly, hfinish⟩ :=
    Handling.answer_copied hleads (mem_repliesTo hcopied)
  have hbody : ∀ {replies : List (Reply HandlerCall.Answer)} {next},
      (Handling.finish timing (.ofContent .post (.ok (.content "text/plain" bytes)))).Leads replies
        (.ask (.desk (.send response)) next) → response.body = bytes := by
    intro replies next hsend
    obtain ⟨tally, ⟨-, -, hcall⟩ | ⟨hcall, -⟩⟩ := Handling.finish_late hsend rfl
    · cases hcall
    · cases hcall
      exact Response.setHeaders_body _ _
  rcases hs with hsent | ⟨hbegun, next, hactivity⟩
  -- sending is late, so it comes behind the copy
  · have hmem := mem_repliesTo hsent
    rw [hreplies] at hmem
    rcases List.mem_append.mp hmem with hmem | hmem
    · cases hearly _ hmem
    · rcases List.mem_cons.mp hmem with he | hmem
      · cases he
      · obtain ⟨before, since, rfl⟩ := List.append_of_mem hmem
        obtain ⟨next, hsend, -⟩ := hfinish.split
        exact hbody hsend
  · rw [hlast hbegun.symm _ (by rw [hactivity]; rfl)] at hfinish
    exact hbody hfinish

variable {marks : List (LogMark (Errand ν))}

/-- A report shows what had been added by then, and these are entries. -/
theorem Coherent.report (h : Coherent start marks notes o) {front back : List (Note ν)}
    {bytes : Bytes} (hsplit : notes = front ++ ⟨errand, ⟨.copyLog, bytes⟩⟩ :: back) :
    bytes = written (appendsIn front) ∧ ∀ a ∈ appendsIn front, IsEntry start front a := by
  refine ⟨h.logged.shown front _ back hsplit bytes rfl, fun a hmem => ?_⟩
  obtain ⟨note, hnote, hsome⟩ := List.mem_filterMap.mp hmem
  obtain ⟨rfl, -⟩ := append?_eq_some hsome
  obtain ⟨before, since, rfl⟩ := List.append_of_mem hnote
  have hbefore : IsEntry start before a :=
    h.courses.isEntry (by rw [hsplit, List.append_assoc]; rfl)
  exact hbefore.mono _

/-- An entry that was logged is in every later report, between what was logged before and what was
logged since. -/
theorem Coherent.report_of_logged (h : Coherent start marks notes o) {past later : List (Note ν)}
    (hnotes : notes = past ++ later) {entry : Bytes}
    (hlogged : ⟨errand, ⟨.appendLog entry, .ok ()⟩⟩ ∈ past) {other : Errand ν} {bytes : Bytes}
    (hreport : ⟨other, ⟨.copyLog, bytes⟩⟩ ∈ later) :
    ∃ older newer : List (Appended (Errand ν)),
      bytes = written older ++ entry ++ written newer ∧ ∀ a ∈ older ++ newer, IsEntry start notes a := by
  obtain ⟨front, back, rfl⟩ := List.append_of_mem hreport
  rw [← List.append_assoc] at hnotes
  obtain ⟨hbytes, hentries⟩ := h.report hnotes
  have hmono : ∀ a ∈ appendsIn (past ++ front), IsEntry start notes a := by
    intro a hmem
    rw [hnotes]
    exact (hentries a hmem).mono _
  -- an empty entry never comes to the log, but is in every report
  by_cases hempty : entry = []
  · refine ⟨appendsIn (past ++ front), [], ?_, ?_⟩
    · rw [hbytes, hempty, List.append_nil]
      exact (List.append_nil _).symm
    · rwa [List.append_nil]
  · obtain ⟨older, newer, hsplit⟩ := List.append_of_mem (mem_appendsIn hlogged hempty)
    have happends : appendsIn (past ++ front) =
        older ++ ⟨errand, entry, .ok ()⟩ :: (newer ++ appendsIn front) := by
      rw [appendsIn_append, hsplit, List.append_assoc]
      rfl
    refine ⟨older, newer ++ appendsIn front, ?_, fun a hmem => hmono a ?_⟩
    · rw [hbytes, happends, Appended.written_append, Appended.written_cons_ok, List.append_assoc]
    · rw [happends]
      rcases List.mem_append.mp hmem with hmem | hmem
      · exact List.mem_append_left _ hmem
      · exact List.mem_append_right _ (List.mem_cons_of_mem _ hmem)

/-- In every run of workers over a new log, whatever they serve and however their steps and those of
the log fall: a report is what had been added to the log by then, which is entries, each of a GET that
its worker had counted, with the statistics that it had then; of two reports the earlier one is a
prefix of the later; what an answer to a POST has as its body is the one report that its request was
given; the counters of a worker are what it has counted. And once a GET that succeeds has come to
sending its answer, and was not told that the log could not grow, all reports that follow have its
entry, which is the seven statistics in that answer line by line, as a whole between others. -/
theorem run_reports {allocate : Allocator} {capacity : Nat} {buffer : LogBuffer}
    (hcreate : LogBuffer.create allocate capacity = .ok buffer) (root : String)
    (start : ν → Tally) (actions : List (OfficeAction ν)) :
    let first := Office.start root start buffer
    let notes := first.history actions
    (∀ front errand bytes back, notes = front ++ ⟨errand, ⟨.copyLog, bytes⟩⟩ :: back →
      bytes = written (appendsIn front) ∧ ∀ a ∈ appendsIn front, IsEntry start front a) ∧
    (∀ front errand bytes between other bytes' back,
      notes = front ++ ⟨errand, ⟨.copyLog, bytes⟩⟩ ::
        (between ++ ⟨other, ⟨.copyLog, bytes'⟩⟩ :: back) → bytes <+: bytes') ∧
    (∀ errand request response, Asked notes errand request → request.method = .post →
      response.status = .ok → (first.after actions).Sends notes errand response →
      ∀ bytes, ⟨errand, ⟨.copyLog, bytes⟩⟩ ∈ notes ↔ bytes = response.body) ∧
    (∀ worker, (kindsOf worker notes).foldlM Tally.count (start worker) =
      .ok ((first.after actions).station worker).desk.tally) ∧
    ∀ before later, actions = before ++ later → ∀ errand request response,
      let past := first.history before
      Asked past errand request → request.method = .get → response.status = .ok →
      (first.after before).Sends past errand response →
      (∀ entry cause, ⟨errand, ⟨.appendLog entry, .error cause⟩⟩ ∉ past) →
      ∃ e : LogEntry, response.statistics = e.shown.fields ∧
        IsEntry start past ⟨errand, e.shown.bytes, .ok ()⟩ ∧
        ∀ other bytes, ⟨other, ⟨.copyLog, bytes⟩⟩ ∈ (first.after before).history later →
          ∃ older newer : List (Appended (Errand ν)),
            bytes = written older ++ e.shown.bytes ++ written newer ∧
              ∀ a ∈ older ++ newer, IsEntry start notes a := by
  intro first notes
  obtain ⟨marks, h⟩ := (coherent_start hcreate root start).after actions
  change Coherent start ([] ++ marks) notes (first.after actions) at h
  refine ⟨fun front errand bytes back hsplit => h.report hsplit, ?_, ?_, h.courses.tallies, ?_⟩
  · intro front errand bytes between other bytes' back hsplit
    obtain ⟨hbytes, -⟩ := h.report hsplit
    rw [← List.cons_append, ← List.append_assoc] at hsplit
    obtain ⟨hbytes', -⟩ := h.report hsplit
    rw [hbytes, hbytes', appendsIn_append, Appended.written_append]
    exact List.prefix_append _ _
  · intro errand request response hasked hpost hok hs bytes
    refine ⟨fun hcopied => (h.courses.body_of_copied hs hcopied).symm, ?_⟩
    rintro rfl
    exact h.courses.report_of_sends hs hasked hpost hok
  · intro before later hactions errand request response past hasked hget hok hs hno
    obtain ⟨sofar, hpast⟩ := (coherent_start hcreate root start).after before
    change Coherent start ([] ++ sofar) past (first.after before) at hpast
    obtain ⟨e, hstatistics, result, hlogged, hentry⟩ :=
      hpast.courses.logged_of_sends hs hasked hget hok
    have hsplit : notes = past ++ (first.after before).history later := by
      rw [show notes = first.history (before ++ later) by rw [← hactions], history_append]
    cases result with
    | error cause => exact absurd hlogged (hno _ cause)
    | ok u =>
      exact ⟨e, hstatistics, hentry, fun other bytes hreport =>
        h.report_of_logged hsplit hlogged hreport⟩

set_option maxRecDepth 2000 in
/-- A report that is copied when a page has been sent. -/
theorem run_reports_after_get :
    let page : Entry := .file [104, 105] false
    let machine : Machine :=
      ⟨FileTree.empty.putBelow ["site".toList, "home.html".toList] page, []⟩
    let first : Office Nat := .start "/site" Tally.start ⟨[], 4⟩
    let get : OfficeAction Nat := .proceed 0 machine
    let post : OfficeAction Nat := .proceed 1 machine
    let write : OfficeAction Nat := .inLog (.advance (fun _ => none) 0)
    let before : List (OfficeAction Nat) :=
      [.takeUp 0 ⟨.epoch, .zero⟩ [.data (Utf8.ofString "GET / HTTP/1.0\n\n")], get, get, get, get,
        .takeUp 1 ⟨.epoch, .zero⟩ [.data (Utf8.ofString "POST / HTTP/1.0\n\n")], get, post, write,
        write, post, write, get]
    let later : List (OfficeAction Nat) := [post, .inLog (.finishLook (1, 1) 0)]
    let shown := (LogEntry.mk ⟨.epoch, .zero⟩ ⟨0, 1, 1, 0, 0⟩).shown
    LogBuffer.create (fun _ => none) 4 = .ok ⟨[], 4⟩ ∧
      ∃ bytes, ⟨(1, 1), ⟨.copyLog, bytes⟩⟩ ∈ (first.after before).history later ∧
        ∃ e : LogEntry, e.shown.fields = shown.fields ∧
          IsEntry Tally.start (first.history before) ⟨(0, 1), e.shown.bytes, .ok ()⟩ ∧
          ∃ older newer : List (Appended (Errand Nat)),
            bytes = written older ++ e.shown.bytes ++ written newer ∧
              ∀ a ∈ older ++ newer, IsEntry Tally.start (first.history (before ++ later)) a := by
  intro page machine first get post write before later shown
  let block := StatBlock.build ⟨.epoch, .zero⟩ ⟨0, 1, 1, 0, 0⟩
  have hcreate : LogBuffer.create (fun _ => none) 4 = .ok ⟨[], 4⟩ := rfl
  refine ⟨hcreate, ?_⟩
  have hparse : Request.parse (Utf8.ofString "GET / HTTP/1.0\n\n") =
      .ok ⟨.get, "/", "/", "", .http10, []⟩ := by cbv
  have hpast : first.history before =
      [⟨(0, 1), ⟨.desk .receive, .ok (Utf8.ofString "GET / HTTP/1.0\n\n")⟩⟩,
        ⟨(0, 1), ⟨.desk (.file (.look "/site/home.html")), .ok (.regular false)⟩⟩,
        ⟨(0, 1), ⟨.desk (.file (.read "/site/home.html")), .ok [104, 105]⟩⟩,
        ⟨(0, 1), ⟨.desk (.count (some .static)), ⟨0, 1, 1, 0, 0⟩⟩⟩,
        ⟨(1, 1), ⟨.desk .receive, .ok (Utf8.ofString "POST / HTTP/1.0\n\n")⟩⟩,
        ⟨(1, 1), ⟨.desk (.file (.look "/site/home.html")), .ok (.regular false)⟩⟩,
        ⟨(0, 1), ⟨.appendLog (Utf8.ofString block.entry), .ok ()⟩⟩,
        ⟨(0, 1), ⟨.desk (.send ((Response.content "text/html" [104, 105]).setHeaders block)), ()⟩⟩] := by
    simp only [first, before, get, post, write, machine, page, block]
    cbv
  have hrest : (first.after before).history later =
      [⟨(1, 1), ⟨.copyLog, Utf8.ofString block.entry⟩⟩] := by
    simp only [first, before, get, post, write, later, machine, page, block]
    cbv
  have hasked : Asked (first.history before) (0, 1) ⟨.get, "/", "/", "", .http10, []⟩ := by
    rw [Asked, hpast]
    exact ⟨_, List.mem_cons_self, hparse⟩
  have hsends : (first.after before).Sends (first.history before) (0, 1)
      ((Response.content "text/html" [104, 105]).setHeaders block) := by
    rw [Sends, hpast]
    exact .inl (List.mem_of_getElem? (i := 7) rfl)
  have hlogged : ∀ entry cause,
      ⟨(0, 1), ⟨.appendLog entry, .error cause⟩⟩ ∉ first.history before := by
    rw [hpast]
    simp
  have hcopied : ⟨(1, 1), ⟨.copyLog, Utf8.ofString block.entry⟩⟩ ∈
      (first.after before).history later := by
    rw [hrest]
    exact List.mem_singleton_self _
  obtain ⟨-, -, -, -, hfresh⟩ := run_reports hcreate "/site" Tally.start (before ++ later)
  obtain ⟨e, hstatistics, hentry, hreports⟩ :=
    hfresh before later rfl (0, 1) _ _ hasked rfl rfl hsends hlogged
  have hfields : shown.fields = block := (LogEntry.block_eq _).symm
  have hplain : (Response.content "text/html" [104, 105]).IsPlain :=
    Response.withBody_isPlain .ok "text/html" [104, 105]
  have hblock : e.shown.fields = block := hstatistics.symm.trans (hplain.statistics _ _)
  exact ⟨_, hcopied, e, hblock.trans hfields.symm, hentry, hreports _ _ hcopied⟩

end Office

end PooledHttp
