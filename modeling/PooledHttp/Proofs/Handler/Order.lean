import PooledHttp.Proofs.Handler.Account

/-! The order in which a request is answered: it is received, a draft is made from what the files and
the log say, the draft is counted, logged where it is to be logged, and only then sent. So whoever is
about to log or to send has done all that comes before, and what is logged or sent shows the count. -/

namespace PooledHttp

namespace Draft

theorem kindOf_eq {raw : Bytes} {request : Request} (hp : Request.parse raw = .ok request) :
    kindOf raw = request.servedAs := by
  simp only [kindOf, hp]
  rfl

theorem ofFiles_asks {α : Type} (content : Content α) :
    (ofFiles content).Always fun question => question ≠ .log := by
  induction content with
  | done result => trivial
  | ask call next ih => exact ⟨nofun, fun answer => ih answer⟩

variable {root : String} {raw : Bytes} {request : Request} {inner : List (Reply Source.Answer)}

/-- A report in the making: the path is still looked at, or refused, or the log is asked for, or it has
answered. -/
theorem ofRequest_post {last : Drafting} (hm : request.method = .post)
    (h : (ofRequest root request).Leads inner last) :
    (∃ question next, last = .ask question next ∧ question ≠ .log) ∨
      (∃ e, last = .done (ofContent .post (.error e))) ∨
      (last = .ask .log fun log => .done (ofContent .post (.ok (.content "text/plain" log)))) ∨
      ∃ front bytes, inner = front ++ [⟨.log, bytes⟩] ∧
        last = .done (ofContent .post (.ok (.content "text/plain" bytes))) := by
  simp only [ofRequest, hm] at h
  rcases h.bind_cases with ⟨mid, hmid, rfl⟩ | ⟨front, back, result, rfl, -, hback⟩
  · cases mid with
    | ask question more => exact .inl ⟨question, _, rfl, (ofFiles_asks _).of_leads_ask hmid⟩
    | done result =>
      cases result with
      | error e => exact .inr (.inl ⟨e, rfl⟩)
      | ok _ => exact .inr (.inr (.inl rfl))
  · cases result with
    | error e =>
      obtain ⟨-, rfl⟩ := hback.done_cases
      exact .inr (.inl ⟨e, rfl⟩)
    | ok _ =>
      rcases hback.ask_cases with ⟨-, rfl⟩ | ⟨bytes, later, rfl, hlater⟩
      · exact .inr (.inr (.inl rfl))
      · obtain ⟨rfl, rfl⟩ := hlater.done_cases
        exact .inr (.inr (.inr ⟨front, bytes, rfl, rfl⟩))

theorem ofRaw_report {draft : Draft} (hp : Request.parse raw = .ok request)
    (hm : request.method = .post) (h : (ofRaw root raw).Leads inner (.done draft))
    (hok : draft.response.status = .ok) :
    (⟨.log, draft.response.body⟩ : Reply Source.Answer) ∈ inner := by
  simp only [ofRaw, hp] at h
  rcases ofRequest_post hm h with ⟨_, _, hlast, -⟩ | ⟨e, hlast⟩ | hlast | ⟨front, bytes, rfl, hlast⟩
  · cases hlast
  · cases hlast
    cases e <;> cases hok
  · cases hlast
  · cases hlast
    exact List.mem_append_right _ List.mem_cons_self

/-- The log is asked for a report only, and then the report is what it says. -/
theorem ofRaw_asks_log {next : Bytes → Drafting} (h : (ofRaw root raw).Leads inner (.ask .log next))
    (bytes : Bytes) : next bytes = .done (ofContent .post (.ok (.content "text/plain" bytes))) := by
  have hserved : ∀ {content : Content Response} {kind : Served},
      ¬ ((ofFiles content).map (ofContent kind)).Leads inner (.ask .log next) := by
    intro content kind hl
    have hasks : ((ofFiles content).map (ofContent kind)).Always fun question => question ≠ .log :=
      (ofFiles_asks content).bind fun _ => trivial
    exact hasks.of_leads_ask hl rfl
  cases hp : Request.parse raw with
  | error e =>
    simp only [ofRaw, hp] at h
    obtain ⟨-, hlast⟩ := h.done_cases
    cases hlast
  | ok request =>
    simp only [ofRaw, hp] at h
    cases hm : request.method with
    | get =>
      simp only [ofRequest, hm] at h
      split at h
      · exact absurd h hserved
      · exact absurd h hserved
    | post =>
      rcases ofRequest_post hm h with ⟨_, _, hlast, hne⟩ | ⟨e, hlast⟩ | hlast | ⟨_, _, -, hlast⟩
      · cases hlast
        exact absurd rfl hne
      · cases hlast
      · cases hlast
        rfl
      · cases hlast
    | head =>
      simp only [ofRequest, hm] at h
      obtain ⟨-, hlast⟩ := h.done_cases
      cases hlast

end Draft

namespace Handling

/-- What comes after the count. -/
def isLate : HandlerCall → Bool
  | .appendLog _ | .desk (.send _) => true
  | _ => false

/-- The draft for what was received, made with these replies. -/
def Drafts (root : String) (raw : Bytes) (asked : List (Reply HandlerCall.Answer)) (draft : Draft) :
    Prop :=
  ((Draft.ofRaw root raw).relay source heard).Leads asked (.done draft)

variable {root : String} {timing : Timing} {raw : Bytes} {draft : Draft}
  {replies : List (Reply HandlerCall.Answer)} {last : Handling} {call : HandlerCall}
  {next : call.Answer → Handling}

theorem silent_asks : silent.Always fun call => call = .desk (.count none) :=
  ⟨rfl, fun _ => trivial⟩

theorem answer_asks (h : (answer root timing).Leads replies (.ask call next))
    (hreceive : call ≠ .desk .receive) (hcount : call ≠ .desk (.count none)) :
    ∃ raw rest, replies = ⟨.desk .receive, .ok raw⟩ :: rest ∧
      (ofRaw root timing raw).Leads rest (.ask call next) := by
  rcases h.ask_cases with ⟨-, hlast⟩ | ⟨received, rest, rfl, hrest⟩
  · cases hlast
    exact absurd rfl hreceive
  · have hsilent : ¬ silent.Leads rest (.ask call next) :=
      fun hl => hcount (silent_asks.of_leads_ask hl)
    cases received with
    | error cause => exact absurd hrest hsilent
    | ok raw =>
      dsimp only at hrest
      split at hrest
      · exact absurd hrest hsilent
      · exact ⟨raw, rest, rfl, hrest⟩

theorem drafting_asks (drafting : Drafting) :
    (drafting.relay source heard).Always fun call => ∃ question, call = source question := by
  induction drafting with
  | done draft => trivial
  | ask question next ih => exact ⟨⟨question, rfl⟩, fun answer => ih _⟩

theorem drafting_early (drafting : Drafting) :
    (drafting.relay source heard).Always fun call => isLate call = false := by
  refine (drafting_asks drafting).mono ?_
  rintro call ⟨question, rfl⟩
  cases question <;> rfl

/-- Once there is a draft, it is counted, and only late calls follow. -/
theorem finish_asks (timing : Timing) (draft : Draft) :
    (finish timing draft).Always fun call => isLate call = true ∨ call = .desk (.count draft.kind) := by
  refine ⟨.inr rfl, fun tally => ?_⟩
  split
  · exact ⟨.inl rfl, fun _ => ⟨.inl rfl, fun _ => trivial⟩⟩
  · exact ⟨.inl rfl, fun _ => trivial⟩

theorem ofRaw_receives_not (root : String) (timing : Timing) (raw : Bytes) :
    (ofRaw root timing raw).Always fun call => call ≠ .desk .receive := by
  refine Dialogue.Always.bind ((drafting_asks _).mono ?_) fun draft =>
    (finish_asks timing draft).mono ?_
  · rintro call ⟨question, rfl⟩
    cases question <;> nofun
  · rintro call (hlate | rfl) he
    · rw [he] at hlate
      cases hlate
    · cases he

theorem answer_received (h : (answer root timing).Leads replies last)
    {received : Except SystemError Bytes}
    (hmem : (⟨.desk .receive, received⟩ : Reply HandlerCall.Answer) ∈ replies) :
    ∃ later, replies = ⟨.desk .receive, received⟩ :: later := by
  have hsilent : silent.Always fun call => call ≠ .desk .receive :=
    silent_asks.mono (by rintro call rfl; nofun)
  rcases h.ask_cases with ⟨rfl, -⟩ | ⟨first, later, rfl, hlater⟩
  · cases hmem
  · rcases List.mem_cons.mp hmem with he | hmem
    · exact ⟨later, by rw [← he]⟩
    · exfalso
      have hnever : ∀ {d : Handling}, (d.Always fun call => call ≠ .desk .receive) →
          ¬ d.Leads later last :=
        fun hd hl => hd.of_leads hl ⟨.desk .receive, received⟩ hmem rfl
      cases first with
      | error cause => exact hnever hsilent hlater
      | ok raw =>
        dsimp only at hlater
        split at hlater
        · exact hnever hsilent hlater
        · exact hnever (ofRaw_receives_not root timing raw) hlater

theorem ofRaw_late (h : (ofRaw root timing raw).Leads replies (.ask call next))
    (hlate : isLate call = true) :
    ∃ asked draft later, replies = asked ++ later ∧ Drafts root raw asked draft ∧
      (finish timing draft).Leads later (.ask call next) := by
  rcases h.bind_cases with ⟨mid, hmid, hlast⟩ | ⟨asked, later, draft, hsplit, hasked, hlater⟩
  · exfalso
    cases mid with
    | done draft =>
      cases hlast
      cases hlate
    | ask question more =>
      cases hlast
      have hearly := (drafting_early (Draft.ofRaw root raw)).of_leads_ask hmid
      rw [hearly] at hlate
      cases hlate
  · exact ⟨asked, draft, later, hsplit, hasked, hlater⟩

theorem answer_late (h : (answer root timing).Leads replies (.ask call next))
    (hlate : isLate call = true) :
    ∃ raw asked draft later, replies = ⟨.desk .receive, .ok raw⟩ :: (asked ++ later) ∧
      Drafts root raw asked draft ∧ (finish timing draft).Leads later (.ask call next) := by
  obtain ⟨raw, rest, rfl, hrest⟩ := answer_asks h (by rintro rfl; cases hlate)
    (by rintro rfl; cases hlate)
  obtain ⟨asked, draft, later, rfl, hasked, hlater⟩ := ofRaw_late hrest hlate
  exact ⟨raw, asked, draft, later, rfl, hasked, hlater⟩

/-- A draft that is about to ask for the log becomes a report of what it is told. -/
theorem ofRaw_asks_copy {next : Bytes → Handling}
    (h : (ofRaw root timing raw).Leads replies (.ask .copyLog next)) :
    (∀ reply ∈ replies, isLate reply.1 = false) ∧ ∀ bytes,
      next bytes = finish timing (.ofContent .post (.ok (.content "text/plain" bytes))) := by
  rcases h.bind_cases with ⟨mid, hmid, hlast⟩ | ⟨-, later, draft, -, -, hlater⟩
  · refine ⟨(drafting_early _).of_leads hmid, fun bytes => ?_⟩
    obtain ⟨inner, drafting, hinner, rfl, -⟩ := hmid.relay_cases
    cases drafting with
    | done draft => cases hlast
    | ask question more =>
      cases question with
      | file call => cases hlast
      | log =>
        cases hlast
        have hmore : more bytes = .done (.ofContent .post (.ok (.content "text/plain" bytes))) :=
          Draft.ofRaw_asks_log hinner bytes
        exact congrArg (fun d => (Dialogue.relay source heard d).bind (finish timing)) hmore
  · rcases (finish_asks timing draft).of_leads_ask hlater with hlate | he
    · cases hlate
    · cases he

/-- A request that has copied the log has done nothing late before, and reports what it copied. -/
theorem answer_copied (h : (answer root timing).Leads replies last) {bytes : Bytes}
    (hmem : (⟨.copyLog, bytes⟩ : Reply HandlerCall.Answer) ∈ replies) :
    ∃ front back, replies = front ++ ⟨.copyLog, bytes⟩ :: back ∧
      (∀ reply ∈ front, isLate reply.1 = false) ∧
      (finish timing (.ofContent .post (.ok (.content "text/plain" bytes)))).Leads back last := by
  obtain ⟨front, back, rfl⟩ := List.append_of_mem hmem
  obtain ⟨next, hfront, hback⟩ := h.split
  obtain ⟨raw, rest, rfl, hrest⟩ := answer_asks hfront nofun nofun
  obtain ⟨hearly, hnext⟩ := ofRaw_asks_copy hrest
  rw [hnext] at hback
  exact ⟨_, back, rfl, List.forall_mem_cons.mpr ⟨rfl, hearly⟩, hback⟩

theorem write_late {response : Response}
    (h : (write response).Leads replies (.ask call next)) :
    replies = [] ∧ call = .desk (.send response) := by
  rcases h.ask_cases with ⟨rfl, hlast⟩ | ⟨-, rest, rfl, hrest⟩
  · cases hlast
    exact ⟨rfl, rfl⟩
  · obtain ⟨-, hlast⟩ := hrest.done_cases
    cases hlast

/-- Behind the count a draft is logged, if it is to be, and then sent. -/
theorem finish_late (h : (finish timing draft).Leads replies (.ask call next))
    (hlate : isLate call = true) :
    ∃ tally : Tally, (replies = [⟨.desk (.count draft.kind), tally⟩] ∧ draft.isLogged = true ∧
        call = .appendLog (Utf8.ofString (StatBlock.build timing tally).entry)) ∨
      call = .desk (.send (draft.answer timing tally)) ∧
        ((draft.isLogged = true ∧ ∃ result, replies = [⟨.desk (.count draft.kind), tally⟩,
            ⟨.appendLog (Utf8.ofString (StatBlock.build timing tally).entry), result⟩]) ∨
          draft.isLogged = false ∧ replies = [⟨.desk (.count draft.kind), tally⟩]) := by
  rcases h.ask_cases with ⟨-, hlast⟩ | ⟨tally, rest, rfl, hrest⟩
  · cases hlast
    cases hlate
  · refine ⟨tally, ?_⟩
    cases hl : draft.isLogged with
    | true =>
      simp only [hl, if_true] at hrest
      rcases hrest.ask_cases with ⟨rfl, hlast⟩ | ⟨result, sent, rfl, hsent⟩
      · cases hlast
        exact .inl ⟨rfl, rfl, rfl⟩
      · obtain ⟨rfl, hcall⟩ := write_late hsent
        exact .inr ⟨hcall, .inl ⟨rfl, result, rfl⟩⟩
    | false =>
      simp only [hl, Bool.false_eq_true, if_false] at hrest
      obtain ⟨rfl, hcall⟩ := write_late hrest
      exact .inr ⟨hcall, .inr ⟨rfl, rfl⟩⟩

theorem Drafts.made {asked : List (Reply HandlerCall.Answer)} (h : Drafts root raw asked draft) :
    draft.Made (Draft.kindOf raw) :=
  (Draft.ofRaw_ends root raw).relay.of_leads h

theorem Drafts.logged_of_get {asked : List (Reply HandlerCall.Answer)}
    (h : Drafts root raw asked draft) {request : Request} (hp : Request.parse raw = .ok request)
    (hm : request.method = .get) (hok : draft.response.status = .ok) : draft.isLogged = true := by
  refine draft.isLogged_iff.mpr ⟨h.made.status_ok_iff.mp hok, ?_⟩
  rw [h.made.kind_eq, if_pos hok, Draft.kindOf_eq hp, Ne, request.servedAs_eq_post_iff, hm]
  nofun

theorem Drafts.get_of_logged {asked : List (Reply HandlerCall.Answer)}
    (h : Drafts root raw asked draft) (hl : draft.isLogged = true) :
    ∃ request kind, Request.parse raw = .ok request ∧ request.method = .get ∧
      draft.kind = some kind := by
  obtain ⟨hsome, hpost⟩ := draft.isLogged_iff.mp hl
  obtain ⟨kind, hkind⟩ := Option.isSome_iff_exists.mp hsome
  have hmade := h.made.kind_eq
  rw [if_pos (h.made.status_ok_iff.mpr hsome)] at hmade
  cases hp : Request.parse raw with
  | error e =>
    rw [hmade, Draft.kindOf, hp] at hsome
    cases hsome
  | ok request =>
    rw [hmade, Draft.kindOf_eq hp] at hsome hpost
    refine ⟨request, kind, rfl, ?_, hkind⟩
    exact (request.servedAs_isSome_iff.mp hsome).resolve_right
      fun hm => hpost (request.servedAs_eq_post_iff.mpr hm)

theorem Drafts.report {asked : List (Reply HandlerCall.Answer)} (h : Drafts root raw asked draft)
    {request : Request} (hp : Request.parse raw = .ok request) (hm : request.method = .post)
    (hok : draft.response.status = .ok) :
    (⟨.copyLog, draft.response.body⟩ : Reply HandlerCall.Answer) ∈ asked := by
  obtain ⟨inner, mid, hinner, hlast, hrelayed⟩ := h.relay_cases
  cases mid with
  | ask question more => cases hlast
  | done made =>
    cases hlast
    obtain ⟨answer, hmem, hheard⟩ :=
      Dialogue.exists_relayed hrelayed (Draft.ofRaw_report hp hm hinner hok)
    rw [show draft.response.body = answer from hheard]
    exact hmem

end Handling

end PooledHttp
