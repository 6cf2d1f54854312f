import PooledHttp.Handler
import PooledHttp.Proofs.Dialogue
import PooledHttp.Proofs.Http.Response

/-! What becomes of one request while nobody else is at the log: it is read, an answer is drafted from
the files and the log as they are, and counted, and then everything else follows from the draft. -/

namespace PooledHttp

/-- What a draft is made from, while the log holds these bytes. -/
def Site.source (site : Site) (log : Bytes) : (source : Source) → source.Answer
  | .file call => site.machine.answer call
  | .log => log

/-- The answer to what a client sends, if it sends anything. -/
def Site.draft? (site : Site) (log : Bytes) (events : List ReadEvent) : Option Draft :=
  match (RequestReader.read events).1 with
  | .error _ => none
  | .ok raw =>
    if raw.isEmpty then none
    else some ((Draft.ofRaw site.root raw).result (site.source log))

/-- What a draft comes to, once it is counted. -/
def Exchange.ofDraft? (allocate : Allocator) (timing : Timing) (log : LogBuffer) (tally : Tally) :
    Option Draft → Exchange
  | none => ⟨none, [], tally, log⟩
  | some draft =>
    { status := some draft.response.status
      output := (draft.answer timing tally).render
      tally
      log :=
        if draft.isLogged then
          log.appendOrKeep allocate (Utf8.ofString (StatBlock.build timing tally).entry)
        else log }

namespace Draft

theorem ofFiles_result {α : Type} (site : Site) (log : Bytes) (content : Content α) :
    (ofFiles content).result (site.source log) = content.result site.machine.answer :=
  Dialogue.result_relay _ _ _ content

theorem ofRequest_result (site : Site) (log : Bytes) (request : Request) :
    (ofRequest site.root request).result (site.source log) =
      match request.method with
      | .get =>
        if Site.isDynamic request.path then
          ofContent .dynamic (site.run request.path request.query)
        else ofContent .static (site.serve request.path)
      | .post =>
        ofContent .post ((site.ensureExists request.path).map fun _ => .content "text/plain" log)
      | .head => notImplemented Method.head.text := by
  cases hm : request.method with
  | get =>
    simp only [ofRequest, hm]
    split
    · rw [Dialogue.result_map, ofFiles_result, Site.run]
    · rw [Dialogue.result_map, ofFiles_result, Site.serve]
  | post =>
    simp only [ofRequest, hm, Dialogue.result_bind, ofFiles_result, Site.ensureExists]
    cases (Content.ensureExists site.root request.path).result site.machine.answer <;> rfl
  | head =>
    simp only [ofRequest, hm]
    rfl

end Draft

namespace Desk

/-- Drafting asks for files and for the log, and changes nothing. -/
theorem run_drafting (site : Site) (allocate : Allocator) (drafting : Drafting)
    (go : Draft → Handling) (desk : Desk) (log : LogBuffer) :
    run site.machine allocate ((drafting.relay Handling.source Handling.heard).bind go) desk log =
      run site.machine allocate (go (drafting.result (site.source log.bytes))) desk log := by
  induction drafting with
  | done draft => rfl
  | ask question next ih =>
    cases question with
    | file call => exact ih _
    | log => exact ih _

theorem run_silent (machine : Machine) (allocate : Allocator) (desk : Desk) (log : LogBuffer) :
    run machine allocate Handling.silent desk log =
      match desk.tally.count none with
      | .error e => (.error e, desk, log)
      | .ok tally => (.ok none, { desk with tally }, log) := by
  cases hc : desk.tally.count none <;>
    simp only [Handling.silent, run, perform, hc, Except.map]

theorem run_write (machine : Machine) (allocate : Allocator) (response : Response) (desk : Desk)
    (log : LogBuffer) :
    run machine allocate (Handling.write response) desk log =
      (.ok (some response.status), { desk with output := desk.output ++ response.render }, log) :=
  rfl

theorem run_finish (machine : Machine) (allocate : Allocator) (timing : Timing) (draft : Draft)
    (desk : Desk) (log : LogBuffer) :
    run machine allocate (Handling.finish timing draft) desk log =
      match desk.tally.count draft.kind with
      | .error e => (.error e, desk, log)
      | .ok tally =>
        (.ok (some draft.response.status),
          { desk with tally, output := desk.output ++ (draft.answer timing tally).render },
          (Exchange.ofDraft? allocate timing log tally (some draft)).log) := by
  cases hc : desk.tally.count draft.kind with
  | error e => simp only [Handling.finish, run, perform, hc, Except.map]
  | ok tally =>
    have hstatus : (draft.answer timing tally).status = draft.response.status :=
      Response.setHeaders_status _ _
    simp only [Handling.finish, run, perform, hc, Except.map, Exchange.ofDraft?]
    by_cases hl : draft.isLogged = true
    · simp only [if_pos hl, run, LogBuffer.appendOrKeep]
      cases log.append allocate (Utf8.ofString (StatBlock.build timing tally).entry) <;>
        simp only [run_write, hstatus]
    · simp only [if_neg hl, run_write, hstatus]

end Desk

theorem respond_eq (site : Site) (allocate : Allocator) (timing : Timing) (tally : Tally)
    (log : LogBuffer) (events : List ReadEvent) :
    respond site allocate timing tally log events =
      ((tally.count ((site.draft? log.bytes events).bind Draft.kind)).map fun next =>
          Exchange.ofDraft? allocate timing log next (site.draft? log.bytes events),
        (RequestReader.read events).2) := by
  rcases hr : RequestReader.read events with ⟨_ | raw, rest⟩
  · simp only [respond, Handling.answer, Desk.run, Desk.perform, hr, Desk.run_silent, Site.draft?,
      Option.bind_none, Exchange.ofDraft?]
    cases tally.count none <;> rfl
  · by_cases hempty : raw.isEmpty = true
    · simp only [respond, Handling.answer, Desk.run, Desk.perform, hr, hempty, if_true,
        Desk.run_silent, Site.draft?, Option.bind_none, Exchange.ofDraft?]
      cases tally.count none <;> rfl
    · simp only [respond, Handling.answer, Handling.ofRaw, Desk.run, Desk.perform, hr, hempty,
        Bool.false_eq_true, if_false, Desk.run_drafting, Desk.run_finish, Site.draft?,
        Option.bind_some]
      cases tally.count ((Draft.ofRaw site.root raw).result (site.source log.bytes)).kind <;>
        simp only [Except.map, Exchange.ofDraft?, List.nil_append]

/-- The status is settled by the draft. -/
theorem respond_status {site : Site} {allocate : Allocator} {timing : Timing} {tally : Tally}
    {log : LogBuffer} {events rest : List ReadEvent} {exchange : Exchange}
    (h : respond site allocate timing tally log events = (.ok exchange, rest)) :
    exchange.status = (site.draft? log.bytes events).map fun draft => draft.response.status := by
  rw [respond_eq] at h
  cases hc : tally.count ((site.draft? log.bytes events).bind Draft.kind) with
  | error e => simp [hc, Except.map] at h
  | ok next =>
    have he := congrArg Prod.fst h
    simp only [hc, Except.map] at he
    cases he
    cases site.draft? log.bytes events <;> rfl

end PooledHttp
