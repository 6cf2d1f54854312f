import PooledHttp.Proofs.Log.Decoding
import PooledHttp.Proofs.Office.Moves
import PooledHttp.Proofs.Office.Reports

/-! The log of an office is a sequence of entries. Those of one worker are numbered by the files and
programs that it has served, without a gap, however they are mixed with those of others. -/

namespace PooledHttp

namespace Tally

/-- Files and programs, of which each is logged. -/
def files (t : Tally) : Nat := t.static + t.dynamic

def countsFile (kind : Option Served) : Bool := kind == some .static || kind == some .dynamic

theorem count_files {t next : Tally} {kind : Option Served} (h : t.count kind = .ok next) :
    next.files = t.files + if countsFile kind then 1 else 0 := by
  cases kind with
  | none =>
    rw [recordError_cases h]
    rfl
  | some kind =>
    rw [record_cases h]
    cases kind <;> simp only [files, increment, countsFile] <;> simp <;> omega

theorem count_worker {t next : Tally} {kind : Option Served} (h : t.count kind = .ok next) :
    next.worker = t.worker := by
  cases kind with
  | none => rw [recordError_cases h]
  | some kind =>
    rw [record_cases h]
    cases kind <;> rfl

/-- From one tally a worker can come to the other by counting. -/
def LeadsTo (t next : Tally) : Prop := ∃ kinds : List (Option Served), kinds.foldlM count t = .ok next

theorem LeadsTo.refl (t : Tally) : LeadsTo t t := ⟨[], rfl⟩

theorem LeadsTo.count {t mid next : Tally} {kind : Option Served} (h : LeadsTo t mid)
    (hcount : mid.count kind = .ok next) : LeadsTo t next := by
  obtain ⟨kinds, hkinds⟩ := h
  refine ⟨kinds ++ [kind], ?_⟩
  rw [List.foldlM_append, hkinds]
  change Except.bind (mid.count kind) pure = _
  rw [hcount]
  rfl

/-- What is counted and logged no file adds to the total alone. -/
theorem LeadsTo.files_le {t next : Tally} (h : LeadsTo t next) :
    t.total + next.files ≤ next.total + t.files := by
  obtain ⟨kinds, hkinds⟩ := h
  induction kinds generalizing t with
  | nil =>
    cases hkinds
    exact Nat.le_refl _
  | cons kind kinds ih =>
    rw [List.foldlM_cons] at hkinds
    cases hc : t.count kind with
    | error e =>
      rw [hc] at hkinds
      cases hkinds
    | ok mid =>
      rw [hc] at hkinds
      have hrest := ih hkinds
      have hfiles := count_files hc
      have htotal := count_total hc
      split at hfiles <;> omega

end Tally

theorem Counted.worker_eq {reply : Reply HandlerCall.Answer} {t next : Tally}
    (h : Counted reply t next) : next.worker = t.worker := by
  cases h with
  | count h => exact Tally.count_worker h
  | other => rfl

namespace Handling

def entriesIn : HandlerCall → Nat
  | .appendLog _ => 1
  | _ => 0

/-- From here on a request keeps the number of entries in step with the counters. -/
def Keeps : Handling → Nat → Tally → Prop
  | .done _, logged, t => t.files = logged
  | .ask call next, logged, t =>
    (∀ entry, call = .appendLog entry →
      t.files = logged + 1 ∧ ∃ timing, entry = (LogEntry.mk timing t).bytes) ∧
    ∀ answer t', Counted ⟨call, answer⟩ t t' → Keeps (next answer) (logged + entriesIn call) t'

variable {logged : Nat} {t : Tally}

theorem silent_keeps (h : t.files = logged) : Keeps silent logged t := by
  refine ⟨nofun, fun answer t' hcounted => ?_⟩
  have hfiles := Tally.count_files hcounted.of_count
  change t'.files = logged
  rw [hfiles, h]
  rfl

theorem write_keeps (response : Response) (h : t.files = logged) :
    Keeps (write response) logged t := by
  refine ⟨nofun, fun answer t' hcounted => ?_⟩
  rw [hcounted.eq_of_other nofun]
  exact h

theorem finish_keeps (timing : Timing) (draft : Draft) (h : t.files = logged) :
    Keeps (finish timing draft) logged t := by
  refine ⟨nofun, fun shown t' hcounted => ?_⟩
  have hfiles : t'.files = t.files + if draft.isLogged = true then 1 else 0 :=
    Tally.count_files hcounted.of_count
  have hshown : shown = t' := by
    cases hcounted with
    | count => rfl
    | other _ _ hne => exact absurd rfl (hne draft.kind)
  rw [hshown]
  dsimp only
  by_cases hl : draft.isLogged = true
  · have hone : t'.files = logged + 1 := by
      rw [hfiles, h, if_pos hl]
    rw [if_pos hl]
    refine ⟨?_, fun result t'' hlogged => ?_⟩
    · intro entry he
      refine ⟨hone, timing, ?_⟩
      rw [LogEntry.bytes, LogEntry.block]
      exact (HandlerCall.appendLog.inj he).symm
    · rw [hlogged.eq_of_other (HandlerCall.appendLog_ne_count _)]
      exact write_keeps _ hone
  · have hsame : t'.files = logged := by
      rw [hfiles, h, if_neg hl, Nat.add_zero]
    rw [if_neg hl]
    exact write_keeps _ hsame

theorem drafting_keeps (drafting : Drafting) {go : Draft → Handling}
    (hgo : ∀ draft, Keeps (go draft) logged t) :
    Keeps ((drafting.relay source heard).bind go) logged t := by
  induction drafting with
  | done draft => exact hgo draft
  | ask question next ih =>
    cases question with
    | file call =>
      refine ⟨nofun, fun answer t' hcounted => ?_⟩
      rw [hcounted.eq_of_other nofun]
      exact ih answer
    | log =>
      refine ⟨nofun, fun answer t' hcounted => ?_⟩
      rw [hcounted.eq_of_other nofun]
      exact ih answer

theorem answer_keeps (root : String) (timing : Timing) (h : t.files = logged) :
    Keeps (answer root timing) logged t := by
  refine ⟨nofun, fun received t' hcounted => ?_⟩
  rw [hcounted.eq_of_other nofun]
  cases received with
  | error cause => exact silent_keeps h
  | ok raw =>
    dsimp only
    split
    · exact silent_keeps h
    · exact drafting_keeps _ fun draft => finish_keeps timing draft h

end Handling

/-- The entries of one worker count its files one by one, and each shows more requests than the one
before. -/
structure InSequence (own : List Tally) : Prop where
  numbered : own.map Tally.files = List.range' 1 own.length
  rising : own.Pairwise fun t next => t.total < next.total
  covered : ∀ t ∈ own, t.successes ≤ t.total

theorem InSequence.files_le {own : List Tally} (h : InSequence own) {t : Tally} (ht : t ∈ own) :
    t.files ≤ own.length := by
  have hmem : t.files ∈ List.range' 1 own.length := by
    rw [← h.numbered]
    exact List.mem_map_of_mem ht
  rw [List.mem_range'_1] at hmem
  omega

/-- What a worker has logged, and where it stands. -/
structure Account (own : List Tally) (s : Station) : Prop where
  sequence : InSequence own
  earlier : ∀ t ∈ own, t.LeadsTo s.desk.tally
  covered : s.desk.tally.successes ≤ s.desk.tally.total
  idle : s.activity = .idle → s.desk.tally.files = own.length
  left : ∀ left ∈ s.activity.left?, Handling.Keeps left own.length s.desk.tally

namespace Account

variable {own : List Tally} {s next : Station}

theorem start (worker : Nat) : Account [] ⟨⟨[], [], Tally.start worker⟩, 0, .idle⟩ :=
  ⟨⟨rfl, .nil, nofun⟩, nofun, Nat.le_refl 0, fun _ => rfl, nofun⟩

theorem turn (h : Account own s) (htally : next.desk.tally = s.desk.tally)
    (hleft : ∀ left ∈ next.activity.left?, left ∈ s.activity.left?)
    (hidle : next.activity = .idle → ∃ status, .done status ∈ s.activity.left?) :
    Account own next := by
  refine ⟨h.sequence, ?_, ?_, ?_, ?_⟩
  · rw [htally]
    exact h.earlier
  · rw [htally]
    exact h.covered
  · intro he
    obtain ⟨status, hdone⟩ := hidle he
    rw [htally]
    exact h.left _ hdone
  · rw [htally]
    exact fun left hmem => h.left left (hleft left hmem)

theorem takeUp (h : Account own s) (root : String) (timing : Timing) (hidle : s.activity = .idle)
    (htally : next.desk.tally = s.desk.tally)
    (hactivity : next.activity = .busy (Handling.answer root timing)) : Account own next := by
  refine ⟨h.sequence, ?_, ?_, ?_, ?_⟩
  · rw [htally]
    exact h.earlier
  · rw [htally]
    exact h.covered
  · rw [hactivity]
    nofun
  · rw [hactivity, htally]
    rintro left he
    cases he
    exact Handling.answer_keeps root timing (h.idle hidle)

theorem earlier_counted (h : Account own s) {reply : Reply HandlerCall.Answer} {t : Tally}
    (hcounted : Counted reply s.desk.tally t) :
    (∀ earlier ∈ own, earlier.LeadsTo t) ∧ t.successes ≤ t.total := by
  cases hcounted with
  | other => exact ⟨h.earlier, h.covered⟩
  | count hcount =>
    have hsuccesses := Tally.count_successes hcount
    have htotal := Tally.count_total hcount
    have hcovered := h.covered
    refine ⟨fun earlier hmem => (h.earlier earlier hmem).count hcount, ?_⟩
    split at hsuccesses <;> omega

variable {question : HandlerCall} {go : question.Answer → Handling} {answer : question.Answer}

theorem reply (h : Account own s) (hasks : .ask question go ∈ s.activity.left?)
    (hactivity : next.activity = .busy (go answer))
    (hcounted : Counted ⟨question, answer⟩ s.desk.tally next.desk.tally)
    (hquestion : ∀ entry, question ≠ .appendLog entry) : Account own next := by
  obtain ⟨hearlier, hcovered⟩ := h.earlier_counted hcounted
  obtain ⟨-, hgo⟩ := h.left _ hasks
  have hsame : Handling.entriesIn question = 0 := by
    cases question with
    | appendLog entry => exact absurd rfl (hquestion entry)
    | desk | copyLog => rfl
  refine ⟨h.sequence, hearlier, hcovered, ?_, ?_⟩
  · rw [hactivity]
    nofun
  · rw [hactivity]
    intro left he
    cases he
    have hkeeps := hgo answer _ hcounted
    rwa [hsame] at hkeeps

/-- An entry is the next one of its worker. -/
theorem logged (h : Account own s) {entry : Bytes}
    {go : Except AllocationError Unit → Handling} {result : Except AllocationError Unit}
    (hasks : .ask (.appendLog entry) go ∈ s.activity.left?)
    (hactivity : next.activity = .busy (go result)) (htally : next.desk.tally = s.desk.tally) :
    (∃ timing, entry = (LogEntry.mk timing s.desk.tally).bytes) ∧
      Account (own ++ [s.desk.tally]) next := by
  obtain ⟨hallows, hgo⟩ := h.left _ hasks
  obtain ⟨hfiles, hentry⟩ := hallows entry rfl
  have hlength : (own ++ [s.desk.tally]).length = own.length + 1 := by
    rw [List.length_append, List.length_singleton]
  refine ⟨hentry, ⟨?_, ?_, ?_⟩, ?_, ?_, ?_, ?_⟩
  · rw [hlength, List.map_append, h.sequence.numbered, List.range'_1_concat, List.map_singleton,
      hfiles, Nat.add_comm]
  -- the worker has counted a file since, and so a request
  · refine List.pairwise_append.mpr ⟨h.sequence.rising, List.pairwise_singleton _ _, ?_⟩
    intro t ht now hnow
    have hbefore := h.sequence.files_le ht
    have hsince := (h.earlier t ht).files_le
    rw [List.mem_singleton.mp hnow]
    omega
  · exact List.forall_mem_append.mpr ⟨h.sequence.covered, List.forall_mem_singleton.mpr h.covered⟩
  · rw [htally]
    exact List.forall_mem_append.mpr
      ⟨h.earlier, List.forall_mem_singleton.mpr (Tally.LeadsTo.refl _)⟩
  · rw [htally]
    exact h.covered
  · rw [hactivity]
    nofun
  · rw [hactivity, hlength, htally]
    intro left he
    cases he
    exact hgo result _
      (@Counted.other (.appendLog entry) result _ (HandlerCall.appendLog_ne_count entry))

end Account

/-- What the entries of one worker show. -/
def ownTallies (number : Nat) (entries : List LogEntry) : List Tally :=
  (entries.map LogEntry.tally).filter (·.worker = number)

theorem ownTallies_append (number : Nat) (entries more : List LogEntry) :
    ownTallies number (entries ++ more) = ownTallies number entries ++ ownTallies number more := by
  rw [ownTallies, List.map_append, List.filter_append]
  rfl

namespace Office

open Note

variable {ν : Type}

theorem appendsIn_logged (errand : Errand ν) {entry : Bytes}
    (result : Except AllocationError Unit) (h : entry ≠ []) :
    appendsIn [⟨errand, ⟨.appendLog entry, result⟩⟩] = [⟨errand, entry, result⟩] :=
  List.filterMap_cons_some (if_neg h)

/-- Without a failed append the log holds all that was to be logged. -/
theorem written_of_no_error {notes : List (Note ν)}
    (hno : ∀ errand entry cause, ⟨errand, ⟨.appendLog entry, .error cause⟩⟩ ∉ notes) :
    written (appendsIn notes) = ((appendsIn notes).map Appended.data).flatten := by
  have hall : (appendsIn notes).filter Appended.succeeded = appendsIn notes := by
    refine List.filter_eq_self.mpr fun a hmem => ?_
    obtain ⟨note, hnote, hsome⟩ := List.mem_filterMap.mp hmem
    obtain ⟨rfl, -⟩ := append?_eq_some hsome
    obtain ⟨name, data, cause | u⟩ := a
    · exact absurd hnote (hno name data cause)
    · rfl
  rw [written, hall, List.flatMap_def]

/-- The appends of a run are entries, and each worker's account is kept in them. -/
structure Ledger (number : ν → Nat) (notes : List (Note ν)) (entries : List LogEntry)
    (o : Office ν) : Prop where
  appends : (appendsIn notes).map Appended.data = entries.map LogEntry.bytes
  workers : ∀ e ∈ entries, ∃ worker, e.tally.worker = number worker
  numbers : ∀ worker, (o.station worker).desk.tally.worker = number worker
  accounts : ∀ worker, Account (ownTallies (number worker) entries) (o.station worker)

theorem ledger_start (root : String) (number : ν → Nat) (log : LogBuffer) :
    Ledger number [] [] (Office.start root (fun worker => Tally.start (number worker)) log) :=
  ⟨rfl, nofun, fun _ => rfl, fun worker => .start (number worker)⟩

variable [DecidableEq ν] {number : ν → Nat} {notes later : List (Note ν)}
  {entries more : List LogEntry} {o next : Office ν} {worker : ν} {s : Station}

theorem Ledger.put (h : Ledger number notes entries o) (hnumber : Function.Injective number)
    (hlater : (appendsIn later).map Appended.data = more.map LogEntry.bytes)
    (hmore : ∀ e ∈ more, e.tally.worker = number worker)
    (hworker : s.desk.tally.worker = number worker)
    (hs : Account (ownTallies (number worker) (entries ++ more)) s) :
    Ledger number (notes ++ later) (entries ++ more) (o.put worker s) := by
  refine ⟨?_, ?_, ?_, ?_⟩
  · rw [appendsIn_append, List.map_append, List.map_append, h.appends, hlater]
  · exact List.forall_mem_append.mpr ⟨h.workers, fun e hmem => ⟨worker, hmore e hmem⟩⟩
  · intro other
    by_cases he : other = worker
    · rw [he, put_station_self]
      exact hworker
    · rw [put_station_ne o s he]
      exact h.numbers other
  · intro other
    by_cases he : other = worker
    · rw [he, put_station_self]
      exact hs
    -- what is added carries the number of this worker alone
    · have hnone : ownTallies (number other) more = [] := by
        refine List.filter_eq_nil_iff.mpr fun t ht => ?_
        obtain ⟨e, hmem, rfl⟩ := List.mem_map.mp ht
        rw [decide_eq_true_eq, hmore e hmem]
        exact fun hsame => he (hnumber hsame).symm
      rw [put_station_ne o s he, ownTallies_append, hnone, List.append_nil]
      exact h.accounts other

theorem Ledger.put_same (h : Ledger number notes entries o) (hnumber : Function.Injective number)
    (hlater : appendsIn later = []) (hworker : s.desk.tally.worker = number worker)
    (hs : Account (ownTallies (number worker) entries) s) :
    ∃ more, Ledger number (notes ++ later) (entries ++ more) (o.put worker s) := by
  refine ⟨[], h.put hnumber ?_ nofun hworker ?_⟩
  · rw [hlater]
    rfl
  · rwa [List.append_nil]

theorem Ledger.moves (hmoves : Moves o later next) (hnumber : Function.Injective number)
    (h : Ledger number notes entries o) :
    ∃ more, Ledger number (notes ++ later) (entries ++ more) next := by
  induction hmoves generalizing notes entries with
  | aside o log =>
    refine ⟨[], ?_⟩
    rw [List.append_nil, List.append_nil]
    exact ⟨h.appends, h.workers, h.numbers, h.accounts⟩
  | @turn o worker s htally hleft hidle =>
    refine h.put_same hnumber rfl ?_ ((h.accounts worker).turn htally hleft hidle)
    rw [htally]
    exact h.numbers worker
  | @takeUp o worker s timing hidle htally hactivity =>
    refine h.put_same hnumber rfl ?_
      ((h.accounts worker).takeUp o.root timing hidle htally hactivity)
    rw [htally]
    exact h.numbers worker
  | @reply o worker s question go answer hasks hactivity hcounted =>
    have hworker : s.desk.tally.worker = number worker :=
      hcounted.worker_eq.trans (h.numbers worker)
    by_cases hlogs : ∃ entry, question = .appendLog entry
    · obtain ⟨entry, rfl⟩ := hlogs
      have htally := hcounted.eq_of_other nofun
      obtain ⟨⟨timing, hentry⟩, hs⟩ := (h.accounts worker).logged hasks hactivity htally
      let e : LogEntry := ⟨timing, (o.station worker).desk.tally⟩
      have hown : ownTallies (number worker) [e] = [e.tally] :=
        List.filter_cons_of_pos (decide_eq_true (h.numbers worker))
      refine ⟨[e], h.put hnumber ?_ ?_ hworker ?_⟩
      · rw [appendsIn_logged _ answer (hentry ▸ e.bytes_ne_nil), List.map_singleton,
          List.map_singleton, hentry]
      · exact List.forall_mem_singleton.mpr (h.numbers worker)
      · rwa [ownTallies_append, hown]
    · have hother : ∀ entry, question ≠ .appendLog entry := fun entry he => hlogs ⟨entry, he⟩
      refine h.put_same hnumber ?_ hworker
        ((h.accounts worker).reply hasks hactivity hcounted hother)
      cases question with
      | appendLog entry => exact absurd rfl (hother entry)
      | desk | copyLog => rfl
  | trans _ _ ihfirst ihlater =>
    obtain ⟨more, hmid⟩ := ihfirst h
    obtain ⟨rest, hlast⟩ := ihlater hmid
    refine ⟨more ++ rest, ?_⟩
    rwa [List.append_assoc, List.append_assoc] at hlast

/-- While nobody writes, the log is what has been added to it. -/
theorem log_eq_written {allocate : Allocator} {capacity : Nat} {buffer : LogBuffer}
    (hcreate : LogBuffer.create allocate capacity = .ok buffer) (root : String)
    (start : ν → Tally) (actions : List (OfficeAction ν)) :
    let first := Office.start root start buffer
    (first.after actions).log.lock.writing = [] →
    (first.after actions).log.lock.value.bytes = written (appendsIn (first.history actions)) := by
  intro first hnobody
  obtain ⟨marks, h⟩ := (coherent_start hcreate root start).after actions
  change Coherent start ([] ++ marks) (first.history actions) (first.after actions) at h
  rw [(h.logged.told.settled hnobody).2, ← h.logged.appends, List.nil_append]

/-- In every run of workers with numbers of their own over a new log, whatever they serve and however
their steps fall, and if no append has failed: whenever nobody writes, the log is entries of seven
whole lines, one behind the other, each of some worker. However it is read as entries, those of one
worker count its files and programs from one on, without a gap; each shows a higher total than the
one before, and a total that covers all that it shows as served. -/
theorem run_entries {allocate : Allocator} {capacity : Nat} {buffer : LogBuffer}
    (hcreate : LogBuffer.create allocate capacity = .ok buffer) (root : String) {number : ν → Nat}
    (hnumber : Function.Injective number) (actions : List (OfficeAction ν)) :
    let first := Office.start root (fun worker => Tally.start (number worker)) buffer
    let log := (first.after actions).log.lock
    (∀ errand entry cause,
      ⟨errand, ⟨.appendLog entry, .error cause⟩⟩ ∉ first.history actions) →
    log.writing = [] →
    (∃ entries : List LogEntry, log.value.bytes = entries.flatMap LogEntry.bytes ∧
      log.value.bytes.splitOn 10 = entries.flatMap LogEntry.lines ++ [[]] ∧
      (∀ e ∈ entries, e.lines.length = 7) ∧
      ∀ e ∈ entries, ∃ worker, e.tally.worker = number worker) ∧
    ∀ entries : List LogEntry, log.value.bytes = entries.flatMap LogEntry.bytes → ∀ worker,
      InSequence (ownTallies (number worker) entries) := by
  intro first log hno hnobody
  obtain ⟨entries, hledger⟩ :=
    (ledger_start root number buffer).moves (after_moves first actions) hnumber
  rw [List.nil_append, List.nil_append] at hledger
  have hbytes : log.value.bytes = entries.flatMap LogEntry.bytes := by
    have hwritten := log_eq_written hcreate root _ actions hnobody
    rw [hwritten, written_of_no_error hno, hledger.appends, List.flatMap_def]
  refine ⟨⟨entries, hbytes, ?_, fun e _ => e.lines_length, hledger.workers⟩, ?_⟩
  · rw [hbytes]
    exact LogEntry.splitOn_log entries
  · intro others hothers worker
    have hsame := LogEntry.tallies_eq (hothers.symm.trans hbytes)
    rw [ownTallies, hsame]
    exact (hledger.accounts worker).sequence

set_option maxRecDepth 2000 in
/-- A page that was logged. -/
theorem run_entries_after_get :
    let page : Entry := .file [104, 105] false
    let machine : Machine :=
      ⟨FileTree.empty.putBelow ["site".toList, "home.html".toList] page, []⟩
    let first : Office Nat := .start "/site" (fun worker => Tally.start worker) ⟨[], 4096⟩
    let get : OfficeAction Nat := .proceed 0 machine
    let write : OfficeAction Nat := .inLog (.advance (fun _ => none) 0)
    let actions : List (OfficeAction Nat) :=
      [.takeUp 0 ⟨.epoch, .zero⟩ [.data (Utf8.ofString "GET / HTTP/1.0\n\n")], get, get, get, get,
        get, write, write, write]
    let e : LogEntry := ⟨⟨.epoch, .zero⟩, ⟨0, 1, 1, 0, 0⟩⟩
    LogBuffer.create (fun _ => none) 4096 = .ok ⟨[], 4096⟩ ∧
      Function.Injective (fun worker : Nat => worker) ∧
      (∀ errand entry cause,
        ⟨errand, ⟨.appendLog entry, .error cause⟩⟩ ∉ first.history actions) ∧
      (first.after actions).log.lock.writing = [] ∧
      (first.after actions).log.lock.value.bytes = [e].flatMap LogEntry.bytes ∧
      InSequence (ownTallies 0 [e]) := by
  intro page machine first get write actions e
  have hcreate : LogBuffer.create (fun _ => none) 4096 = .ok ⟨[], 4096⟩ := rfl
  have hnumber : Function.Injective (fun worker : Nat => worker) := fun _ _ h => h
  have hhistory : first.history actions =
      [⟨(0, 1), ⟨.desk .receive, .ok (Utf8.ofString "GET / HTTP/1.0\n\n")⟩⟩,
        ⟨(0, 1), ⟨.desk (.file (.look "/site/home.html")), .ok (.regular false)⟩⟩,
        ⟨(0, 1), ⟨.desk (.file (.read "/site/home.html")), .ok [104, 105]⟩⟩,
        ⟨(0, 1), ⟨.desk (.count (some .static)), ⟨0, 1, 1, 0, 0⟩⟩⟩,
        ⟨(0, 1), ⟨.appendLog e.bytes, .ok ()⟩⟩] := by
    simp only [first, actions, get, write, machine, page, e]
    cbv
  have hno : ∀ errand entry cause,
      ⟨errand, ⟨.appendLog entry, .error cause⟩⟩ ∉ first.history actions := by
    rw [hhistory]
    simp
  have hnobody : (first.after actions).log.lock.writing = [] := by
    simp only [first, actions, get, write, machine, page]
    cbv
  have hbytes : (first.after actions).log.lock.value.bytes = [e].flatMap LogEntry.bytes := by
    have hwritten := log_eq_written hcreate "/site" (fun worker => Tally.start worker) actions hnobody
    have hadded : appendsIn (first.history actions) = [⟨(0, 1), e.bytes, .ok ()⟩] := by
      have hne := e.bytes_ne_nil
      rw [hhistory]
      generalize e.bytes = entry at hne ⊢
      exact appendsIn_logged (0, 1) (.ok ()) hne
    rw [hwritten, hadded]
    exact Appended.written_cons_ok _ _ _
  obtain ⟨-, hown⟩ := run_entries hcreate "/site" hnumber actions hno hnobody
  exact ⟨hcreate, hnumber, hno, hnobody, hbytes, hown [e] hbytes 0⟩

end Office

end PooledHttp
