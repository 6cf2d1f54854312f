import PooledHttp.Proofs.Checked.Parsing
import PooledHttp.Proofs.Handler.Account

/-! Answering a request the way it is computed, with every index, slice, sum and difference on the way
checked. Whatever a client sends and in whatever pieces, whatever the files hold, and however large the
log has grown, no check fails: nobody outside can end a worker's thread. -/

namespace PooledHttp

/-- The draft for what was understood of a request. -/
def Draft.ofParsed (root : String) : Except RequestError Request → Drafting
  | .ok request => ofRequest root request
  | .error e => .done (ofError e)

theorem Draft.ofParsed_parse (root : String) (raw : Bytes) :
    ofParsed root (Request.parse raw) = ofRaw root raw := by
  rw [ofRaw]
  cases Request.parse raw <;> rfl

namespace Checked

def count (tally : Tally) (kind : Option Served) : Checked Tally :=
  match tally.count kind with
  | .error _ => .error .overflow
  | .ok next => .ok next

def append (allocate : Allocator) (b : LogBuffer) (data : Bytes) :
    Checked (Except AllocationError LogBuffer) := do
  if data.isEmpty then return .ok b
  let length ← add b.bytes.length data.length
  let required ← add length 1
  if required ≤ b.capacity then return .ok (b.add data)
  let capacity := LogBuffer.grown required b.capacity
  match LogBuffer.reserve allocate capacity with
  | .error e => return .error e
  | .ok _ => return .ok ({ b with capacity }.add data)

/-- The answer as it is sent. The room for it is computed first. -/
def render (r : Response) : Checked Bytes := do
  let _ ← add 128 r.body.length
  return r.render

/-- A request that was not read still counts. -/
def silent (tally : Tally) (log : LogBuffer) : Checked Exchange := do
  let next ← count tally none
  return ⟨none, [], next, log⟩

/-- A log that cannot grow stays as it is. -/
def logDraft (allocate : Allocator) (timing : Timing) (tally : Tally) (log : LogBuffer)
    (draft : Draft) : Checked LogBuffer :=
  if draft.isLogged then
    (append allocate log (Utf8.ofString (StatBlock.build timing tally).entry)).map
      fun logged => logged.toOption.getD log
  else .ok log

def finish (allocate : Allocator) (timing : Timing) (tally : Tally) (log : LogBuffer)
    (draft : Draft) : Checked Exchange := do
  let next ← count tally draft.kind
  let answer := draft.answer timing next
  let logged ← logDraft allocate timing next log draft
  let output ← render answer
  return ⟨some answer.status, output, next, logged⟩

def respond (site : Site) (allocate : Allocator) (timing : Timing) (tally : Tally)
    (log : LogBuffer) (events : List ReadEvent) : Checked (Exchange × List ReadEvent) := do
  let (received, rest) ← readFrom [] events
  match received with
  | .error _ =>
    let exchange ← silent tally log
    return (exchange, rest)
  | .ok raw =>
    if raw.isEmpty then
      let exchange ← silent tally log
      return (exchange, rest)
    let parsed ← parse raw
    let draft := (Draft.ofParsed site.root parsed).result (site.source log.bytes)
    let exchange ← finish allocate timing tally log draft
    return (exchange, rest)

/-- Two slices and one byte more are within the largest number. -/
theorem append_eq (allocate : Allocator) {b : LogBuffer} {data : Bytes}
    (hb : b.bytes.length ≤ Allocator.largest) (hdata : data.length ≤ Allocator.largest) :
    append allocate b data = .ok (b.append allocate data) := by
  have hroom : Allocator.largest + Allocator.largest + 1 ≤ Decimal.max64 := by decide
  unfold append LogBuffer.append LogBuffer.makeRoom
  by_cases hempty : data.isEmpty = true
  · rw [if_pos hempty, if_pos hempty]
    rfl
  · rw [if_neg hempty, if_neg hempty, add_ok (by omega), ok_bind, add_ok (by omega), ok_bind]
    dsimp only
    by_cases hfits : b.bytes.length + data.length + 1 ≤ b.capacity
    · rw [if_pos hfits, if_pos hfits]
      rfl
    · rw [if_neg hfits, if_neg hfits]
      cases LogBuffer.reserve allocate (LogBuffer.grown _ b.capacity) <;> rfl

theorem render_eq {r : Response} (h : r.body.length ≤ Allocator.largest) :
    render r = .ok r.render := by
  have hroom : 128 + Allocator.largest ≤ Decimal.max64 := by decide
  rw [render, add_ok (by omega), ok_bind]
  rfl

theorem logDraft_eq {allocate : Allocator} {timing : Timing} {tally : Tally} {log : LogBuffer}
    (draft : Draft) (hlog : log.bytes.length ≤ Allocator.largest)
    (hentry : (Utf8.ofString (StatBlock.build timing tally).entry).length ≤ Allocator.largest) :
    logDraft allocate timing tally log draft =
      .ok (Exchange.ofDraft? allocate timing log tally (some draft)).log := by
  rw [logDraft, append_eq allocate hlog hentry]
  unfold Exchange.ofDraft? LogBuffer.appendOrKeep
  dsimp only
  by_cases hl : draft.isLogged = true
  · rw [if_pos hl, if_pos hl]
    cases log.append allocate (Utf8.ofString (StatBlock.build timing tally).entry) <;> rfl
  · rw [if_neg hl, if_neg hl]

theorem finish_eq (allocate : Allocator) {timing : Timing} {tally next : Tally} {log : LogBuffer}
    {draft : Draft} (hcount : tally.count draft.kind = .ok next)
    (hlog : log.bytes.length ≤ Allocator.largest)
    (hentry : (Utf8.ofString (StatBlock.build timing next).entry).length ≤ Allocator.largest)
    (hbody : draft.response.body.length ≤ Allocator.largest) :
    finish allocate timing tally log draft =
      .ok (Exchange.ofDraft? allocate timing log next (some draft)) := by
  have hanswer : (draft.answer timing next).body = draft.response.body :=
    Response.setHeaders_body _ _
  have hstatus : (draft.answer timing next).status = draft.response.status :=
    Response.setHeaders_status _ _
  have hrender : render (draft.answer timing next) = .ok (draft.answer timing next).render :=
    render_eq (by rwa [hanswer])
  have hcounted : count tally draft.kind = .ok next := by
    rw [count, hcount]
  rw [finish, hcounted, ok_bind]
  dsimp only
  rw [logDraft_eq draft hlog hentry, ok_bind, hrender, ok_bind, hstatus]
  rfl

theorem silent_eq {tally next : Tally} (hcount : tally.count none = .ok next) (log : LogBuffer) :
    silent tally log = .ok ⟨none, [], next, log⟩ := by
  rw [silent, count, hcount]
  rfl

end Checked

/-- Nothing that a client sends, in whatever pieces it comes, and nothing that files, programs or the
log hold ends the thread of a worker whose count is not full. Lists of bytes are as long as memory lets
them be: at most half the numbers there are. All checks on the way hold, and what comes out is the
answer. -/
theorem respond_checks (site : Site) (allocate : Allocator) (timing : Timing) {tally : Tally}
    (ht : tally.Reachable) (hroom : tally.total < Decimal.max64) {log : LogBuffer}
    (hlog : log.bytes.length ≤ Allocator.largest) (events : List ReadEvent)
    (hentry : ∀ kind next, tally.count kind = .ok next →
      (Utf8.ofString (StatBlock.build timing next).entry).length ≤ Allocator.largest)
    (hbody : ∀ draft, site.draft? log.bytes events = some draft →
      draft.response.body.length ≤ Allocator.largest) :
    ∃ exchange rest, Checked.respond site allocate timing tally log events = .ok (exchange, rest) ∧
      respond site allocate timing tally log events = (.ok exchange, rest) := by
  have hcounts : ∀ kind, ∃ next, tally.count kind = .ok next := by
    intro kind
    obtain ⟨next, hcount, -⟩ := Tally.count_of_room (ht.room hroom kind)
    exact ⟨next, hcount⟩
  have hread : Checked.readFrom [] events = .ok (RequestReader.read events) :=
    Checked.readFrom_eq [] events
  -- without a request there is only the count
  have hsilent : site.draft? log.bytes events = none → ∃ exchange,
      Checked.silent tally log = .ok exchange ∧
        respond site allocate timing tally log events =
          (.ok exchange, (RequestReader.read events).2) := by
    intro hdraft
    obtain ⟨next, hcount⟩ := hcounts none
    refine ⟨⟨none, [], next, log⟩, Checked.silent_eq hcount log, ?_⟩
    rw [respond_eq, hdraft, Option.bind_none, hcount]
    rfl
  rw [Checked.respond, hread, Checked.ok_bind]
  rcases hevents : RequestReader.read events with ⟨cause | raw, rest⟩
  · obtain ⟨exchange, hchecked, hrespond⟩ := hsilent (by simp only [Site.draft?, hevents])
    refine ⟨exchange, rest, ?_, by rw [hrespond, hevents]⟩
    dsimp only
    rw [hchecked]
    rfl
  · by_cases hempty : raw.isEmpty = true
    · obtain ⟨exchange, hchecked, hrespond⟩ :=
        hsilent (by simp only [Site.draft?, hevents, hempty, if_true])
      refine ⟨exchange, rest, ?_, by rw [hrespond, hevents]⟩
      dsimp only
      rw [if_pos hempty, hchecked]
      rfl
    · let draft := (Draft.ofRaw site.root raw).result (site.source log.bytes)
      have hdraft : site.draft? log.bytes events = some draft := by
        simp only [Site.draft?, hevents, hempty, Bool.false_eq_true, if_false]
        rfl
      obtain ⟨next, hcount⟩ := hcounts draft.kind
      have hlength : raw.length ≤ RequestReader.maxRequestSize :=
        RequestReader.readFrom_length_le (Nat.zero_le _) hevents
      have hsize : 4 * RequestReader.maxRequestSize ≤ Allocator.largest := by decide
      have hparse : Checked.parse raw = .ok (Request.parse raw) := Checked.parse_eq (by omega)
      have hfinish := Checked.finish_eq allocate hcount hlog (hentry _ _ hcount)
        (hbody draft hdraft)
      refine ⟨Exchange.ofDraft? allocate timing log next (some draft), rest, ?_, ?_⟩
      · dsimp only
        rw [if_neg hempty, hparse, Checked.ok_bind, Draft.ofParsed_parse]
        change (Checked.finish allocate timing tally log draft >>= _) = _
        rw [hfinish]
        rfl
      · rw [respond_eq, hdraft, hevents, Option.bind_some, hcount]
        rfl

/-- A percent sign just before the end of a path, and one before a character of two bytes. -/
theorem respond_checks_cut_escape :
    let site : Site := ⟨⟨FileTree.empty, []⟩, "/site"⟩
    let events := [ReadEvent.data (Utf8.ofString "HEAD /%é%4 HTTP/1.0\n\n")]
    let tally := Tally.start 7
    tally.Reachable ∧ tally.total < Decimal.max64 ∧
      (⟨[], 1⟩ : LogBuffer).bytes.length ≤ Allocator.largest ∧
      (∀ kind next, tally.count kind = .ok next →
        (Utf8.ofString (StatBlock.build ⟨.epoch, .zero⟩ next).entry).length ≤ Allocator.largest) ∧
      (∀ draft, site.draft? [] events = some draft →
        draft.response.body.length ≤ Allocator.largest) ∧
      ∃ exchange rest,
        Checked.respond site (fun _ => none) ⟨.epoch, .zero⟩ tally ⟨[], 1⟩ events =
          .ok (exchange, rest) ∧
        respond site (fun _ => none) ⟨.epoch, .zero⟩ tally ⟨[], 1⟩ events = (.ok exchange, rest) := by
  intro site events tally
  have ht : tally.Reachable := ⟨7, [], rfl⟩
  have hroom : tally.total < Decimal.max64 := by decide
  have hlog : (⟨[], 1⟩ : LogBuffer).bytes.length ≤ Allocator.largest := Nat.zero_le _
  have hentry : ∀ kind next, tally.count kind = .ok next →
      (Utf8.ofString (StatBlock.build ⟨.epoch, .zero⟩ next).entry).length ≤ Allocator.largest := by
    rintro (_ | _ | _ | _) next hcount <;> cases hcount <;> decide +kernel
  have hbody : ∀ draft, site.draft? [] events = some draft →
      draft.response.body.length ≤ Allocator.largest := by
    have hread : (RequestReader.read events).1 =
        .ok (Utf8.ofString "HEAD /%é%4 HTTP/1.0\n\n") := by
      simp only [events]
      cbv
    have hempty : (Utf8.ofString "HEAD /%é%4 HTTP/1.0\n\n").isEmpty = false := by decide
    have hparse : Request.parse (Utf8.ofString "HEAD /%é%4 HTTP/1.0\n\n") =
        .ok ⟨.head, "/%é%4", "/%é%4", "", .http10, []⟩ := by cbv
    have hdraft : site.draft? [] events = some (Draft.notImplemented "HEAD") := by
      simp only [Site.draft?, hread, hempty, Draft.ofRaw, hparse, Bool.false_eq_true, if_false]
      rfl
    intro draft he
    rw [hdraft] at he
    cases he
    decide +kernel
  exact ⟨ht, hroom, hlog, hentry, hbody, respond_checks site _ _ ht hroom hlog events hentry hbody⟩

end PooledHttp
