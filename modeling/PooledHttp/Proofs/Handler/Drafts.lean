import Mathlib.Data.List.Infix
import PooledHttp.Proofs.Handler.Respond
import PooledHttp.Proofs.Http.Framing

/-! What drafts look like, whatever the files and the log: a page of one of the five media types that
counts under the one kind that the method and the path of the request stand for, or an error page that
counts under none. -/

namespace PooledHttp

theorem Site.isDynamic_iff (path : String) :
    Site.isDynamic path = true ↔ ['c', 'g', 'i'] <:+: path.toList := by
  rw [isDynamic]
  induction path.toList with
  | nil => simp [isDynamic.hasMark]
  | cons c rest ih =>
    rw [isDynamic.hasMark, Bool.or_eq_true, ih, List.isPrefixOf_iff_prefix, List.infix_cons_iff]

/-- The kind under which a request counts if it succeeds. The query has no say in it. -/
def Served.of (method : Method) (path : String) : Option Served :=
  match method with
  | .get => if ['c', 'g', 'i'] <:+: path.toList then some .dynamic else some .static
  | .post => some .post
  | .head => none

namespace Draft

/-- A page of some kind, or an error page. -/
inductive Made (kind? : Option Served) : Draft → Prop
  | page {kind : Served} (h : kind? = some kind) {mediaType : String}
    (hmedia : mediaType ∈ MediaType.all) (body : Bytes) :
    Made kind? ⟨.content mediaType body, some kind⟩
  | error {status : Status} (h : status ≠ .ok) (cause message : String) :
    Made kind? ⟨.error status cause message, none⟩

variable {kind? : Option Served} {draft : Draft}

theorem Made.isBuilt (h : Made kind? draft) : draft.response.IsBuilt := by
  cases h with
  | page h hmedia body => exact Response.content_isBuilt hmedia body
  | error h cause message => exact Response.error_isBuilt _ cause message

/-- An answer carries the seven statistics, as they are after the count. -/
theorem Made.statistics (h : Made kind? draft) (timing : Timing) (tally : Tally) :
    (draft.answer timing tally).statistics = (LogEntry.mk timing tally).shown.fields := by
  rw [answer, h.isBuilt.isPlain.statistics, ← LogEntry.block_eq, LogEntry.block]

theorem Made.kind_eq (h : Made kind? draft) :
    draft.kind = if draft.response.status = .ok then kind? else none := by
  cases h with
  | page h => exact (if_pos rfl).trans h |>.symm
  | error h => exact (if_neg h).symm

theorem Made.status_ok_iff (h : Made kind? draft) :
    draft.response.status = .ok ↔ draft.kind.isSome = true := by
  cases h with
  | page => exact ⟨fun _ => rfl, fun _ => rfl⟩
  | error h => exact ⟨fun he => absurd he h, nofun⟩

theorem contentError_made (e : ContentError) : Made kind? ⟨e.response, none⟩ := by
  refine .error ?_ e.path e.summary
  cases e <;> nofun

theorem notImplemented_made (method : String) : Made kind? (notImplemented method) :=
  .error (show Status.notImplemented ≠ .ok from nofun) method "Method not implemented"

theorem ofError_made (e : RequestError) : Made kind? (ofError e) := by
  cases e with
  | unsupportedMethod method => exact notImplemented_made method
  | empty | requestLine | version | header =>
    exact .error (show Status.badRequest ≠ .ok from nofun) _ "Invalid request"

/-- Content is a page with status 200, or an error. -/
def IsPage : Except ContentError Response → Prop
  | .ok response => ∃ mediaType ∈ MediaType.all, ∃ body, response = .content mediaType body
  | .error _ => True

theorem ofContent_made {kind : Served} (h : kind? = some kind)
    {content : Except ContentError Response} (hc : IsPage content) :
    Made kind? (ofContent kind content) := by
  cases content with
  | error e => exact contentError_made e
  | ok response =>
    obtain ⟨mediaType, hmedia, body, rfl⟩ := hc
    exact .page h hmedia body

theorem locate_ends {α : Type} {root path : String} {next : String → Kind → Content α}
    {P : Except ContentError α → Prop} (he : ∀ e, P (.error e))
    (h : ∀ file kind, (next file kind).Ends P) : (Content.locate root path next).Ends P := by
  cases hfile : Content.resolve root path with
  | error e =>
    simp only [Content.locate, hfile]
    exact he e
  | ok file =>
    simp only [Content.locate, hfile]
    rintro (cause | kind)
    · exact he _
    · exact h file kind

theorem serve_ends (root path : String) : (Content.serve root path).Ends IsPage := by
  refine locate_ends (fun _ => trivial) fun file kind => ?_
  cases kind with
  | other => trivial
  | regular executable =>
    rintro (cause | content)
    · trivial
    · exact ⟨_, MediaType.ofPath_mem file.toList, content, rfl⟩

theorem run_ends (root path query : String) : (Content.run root path query).Ends IsPage := by
  refine locate_ends (fun _ => trivial) fun file kind => ?_
  rcases kind with (_ | _) | _
  · trivial
  · rintro (cause | output)
    · trivial
    · exact ⟨_, by decide, output, rfl⟩
  · trivial

theorem ofRequest_ends (root : String) (request : Request) :
    (ofRequest root request).Ends (Made (Served.of request.method request.path)) := by
  cases hm : request.method with
  | get =>
    simp only [ofRequest, hm]
    by_cases hd : Site.isDynamic request.path = true
    · rw [if_pos hd]
      have hof : Served.of .get request.path = some .dynamic :=
        if_pos ((Site.isDynamic_iff _).mp hd)
      exact (run_ends _ _ _).relay.map fun _ => ofContent_made hof
    · rw [if_neg hd]
      have hof : Served.of .get request.path = some .static :=
        if_neg fun h => hd ((Site.isDynamic_iff _).mpr h)
      exact (serve_ends _ _).relay.map fun _ => ofContent_made hof
  | post =>
    have hends : (Content.ensureExists root request.path).Ends fun _ => True :=
      locate_ends (fun _ => trivial) fun _ _ => trivial
    simp only [ofRequest, hm]
    refine hends.relay.bind ?_
    rintro (e | _) -
    · exact contentError_made e
    · exact fun log => .page rfl (by decide) log
  | head =>
    simp only [ofRequest, hm]
    exact notImplemented_made _

/-- The kind under which what a client sent counts if it succeeds. -/
def kindOf (raw : Bytes) : Option Served :=
  match Request.parse raw with
  | .ok request => Served.of request.method request.path
  | .error _ => none

theorem ofRaw_ends (root : String) (raw : Bytes) : (ofRaw root raw).Ends (Made (kindOf raw)) := by
  cases hp : Request.parse raw with
  | error e =>
    simp only [ofRaw, kindOf, hp]
    exact ofError_made e
  | ok request =>
    simp only [ofRaw, kindOf, hp]
    exact ofRequest_ends root request

end Draft

end PooledHttp
