import PooledHttp.Handler
import PooledHttp.Proofs.Content.Target
import PooledHttp.Proofs.Dialogue

/-! Whatever a client sends, the server asks for files below its root only: each path that it hands to
the file system is the root with plain names behind it. A path that would lead out of the root is
answered without any such call. -/

namespace PooledHttp

open Target

/-- The text of a path that is the root with plain names behind it. -/
structure Below (root : String) (names : List (List Char)) (file : String) : Prop where
  text : file.toList = names.foldl push root.toList
  components : Target.components file.toList =
    Target.components root.toList ++ names.map Component.normal
  plain : ∀ name ∈ names, IsName name

/-- The directory that a program is to run in. -/
def FileCall.directory? : FileCall → Option String
  | .execute _ directory _ => some directory
  | _ => none

namespace Content

variable {path : String}

theorem resolve_parent (root : String) (h : parent ∈ segments path.toList) :
    resolve root path = .error (.forbidden path) := by
  rw [resolve, resolve?_eq, if_pos h]

theorem resolve_below (root : String) (h : parent ∉ segments path.toList) :
    ∃ file, resolve root path = .ok file ∧ Below root (extensions path.toList) file := by
  refine ⟨String.ofList ((extensions path.toList).foldl push root.toList), ?_, ?_⟩
  · rw [resolve, resolve?_eq, if_neg h]
  · have hplain : ∀ name ∈ extensions path.toList, IsName name :=
      fun name hn => isName_of_mem_extensions h hn
    exact ⟨String.toList_ofList, by rw [String.toList_ofList, components_foldl_push hplain], hplain⟩

theorem resolve_forbidden_iff (root : String) :
    resolve root path = .error (.forbidden path) ↔ parent ∈ segments path.toList := by
  refine ⟨?_, resolve_parent root⟩
  intro h
  by_contra hnot
  obtain ⟨file, hfile, -⟩ := resolve_below root hnot
  rw [hfile] at h
  cases h

variable {root : String}

/-- A call for the file that a request path leads to; a program is to run in the root. -/
structure Asks (root path : String) (call : FileCall) : Prop where
  resolved : resolve root path = .ok call.path
  directory : ∀ directory ∈ call.directory?, directory = root

theorem Asks.below {call : FileCall} (h : Asks root path call) :
    parent ∉ segments path.toList ∧ Below root (extensions path.toList) call.path := by
  have hresolved := h.resolved
  have hnot : parent ∉ segments path.toList := by
    intro hmem
    rw [resolve_parent root hmem] at hresolved
    cases hresolved
  obtain ⟨file, hfile, hbelow⟩ := resolve_below root hnot
  rw [hfile] at hresolved
  cases hresolved
  exact ⟨hnot, hbelow⟩

theorem locate_always {α : Type} {next : String → Kind → Content α}
    (h : ∀ file kind, resolve root path = .ok file → (next file kind).Always (Asks root path)) :
    (locate root path next).Always (Asks root path) := by
  cases hfile : resolve root path with
  | error e =>
    simp only [locate, hfile]
    trivial
  | ok file =>
    simp only [locate, hfile]
    refine ⟨⟨hfile, nofun⟩, ?_⟩
    rintro (cause | kind)
    · trivial
    · exact h file kind hfile

theorem serve_always (root path : String) : (serve root path).Always (Asks root path) := by
  refine locate_always fun file kind hfile => ?_
  cases kind with
  | other => trivial
  | regular executable =>
    refine ⟨⟨hfile, nofun⟩, ?_⟩
    rintro (cause | content) <;> trivial

theorem ensureExists_always (root path : String) :
    (ensureExists root path).Always (Asks root path) :=
  locate_always fun _ _ _ => trivial

theorem run_always (root path query : String) : (run root path query).Always (Asks root path) := by
  refine locate_always fun file kind hfile => ?_
  rcases kind with (_ | _) | _
  · trivial
  · refine ⟨⟨hfile, fun directory hd => (Option.some.inj hd).symm⟩, ?_⟩
    rintro (cause | output) <;> trivial
  · trivial

end Content

namespace Draft

theorem ofFiles_always {α : Type} {content : Content α} {P : FileCall → Prop}
    (h : content.Always P) :
    (ofFiles content).Always fun source => ∀ call, source = .file call → P call := by
  refine h.relay fun call hp other he => ?_
  cases he
  exact hp

theorem ofRequest_always (root : String) (request : Request) :
    (ofRequest root request).Always
      fun source => ∀ call, source = .file call → Content.Asks root request.path call := by
  cases hm : request.method with
  | get =>
    simp only [ofRequest, hm]
    split
    · exact (ofFiles_always (Content.run_always root _ _)).bind fun _ => trivial
    · exact (ofFiles_always (Content.serve_always root _)).bind fun _ => trivial
  | post =>
    simp only [ofRequest, hm]
    refine (ofFiles_always (Content.ensureExists_always root _)).bind ?_
    rintro (e | _)
    · trivial
    · exact ⟨nofun, fun _ => trivial⟩
  | head =>
    simp only [ofRequest, hm]
    trivial

theorem ofRaw_parent {root : String} {raw : Bytes} {request : Request}
    (hp : Request.parse raw = .ok request) (hm : request.method ≠ .head)
    (h : parent ∈ segments request.path.toList) :
    ofRaw root raw = .done ⟨(ContentError.forbidden request.path).response, none⟩ := by
  have hresolve := Content.resolve_parent root h
  cases he : request.method with
  | get =>
    simp only [ofRaw, hp, ofRequest, he, Content.run, Content.serve, Content.locate, hresolve]
    split <;> rfl
  | post =>
    simp only [ofRaw, hp, ofRequest, he, Content.ensureExists, Content.locate, hresolve]
    rfl
  | head => exact absurd he hm

end Draft

namespace Handling

theorem finish_always (timing : Timing) (draft : Draft) :
    (finish timing draft).Always fun call => ∀ file, call ≠ .desk (.file file) := by
  refine ⟨nofun, fun tally => ?_⟩
  have hwrite : (write (draft.answer timing tally)).Always
      fun call => ∀ file, call ≠ .desk (.file file) := ⟨nofun, fun _ => trivial⟩
  dsimp only
  split
  · exact ⟨nofun, fun _ => hwrite⟩
  · exact hwrite

theorem ofRaw_always (root : String) (timing : Timing) (raw : Bytes) :
    (ofRaw root timing raw).Always fun call => ∀ file, call = .desk (.file file) →
      ∃ request, Request.parse raw = .ok request ∧ Content.Asks root request.path file := by
  refine Dialogue.Always.bind ?_ fun draft =>
    (finish_always timing draft).mono fun call hc file he => absurd he (hc file)
  cases hp : Request.parse raw with
  | error e =>
    simp only [Draft.ofRaw, hp]
    trivial
  | ok request =>
    simp only [Draft.ofRaw, hp]
    refine (Draft.ofRequest_always root request).relay ?_
    rintro (call | _) hcall file he
    · cases he
      exact ⟨request, rfl, hcall call rfl⟩
    · cases he

theorem silent_always : silent.Always fun call => ∀ file, call ≠ .desk (.file file) :=
  ⟨nofun, fun _ => trivial⟩

/-- A request path is refused exactly where one of its segments is `..`. Any other one leads to the
root with the path's own names behind it, and the default page where it ends in a slash or says
nothing. So whatever the client sends, and whatever the answers on the way, each call for a file is
for a path below the root, and a path with `..` is answered without one. -/
theorem answer_confined (root : String) (timing : Timing) :
    (∀ path : String,
      (Content.resolve root path = .error (.forbidden path) ↔ parent ∈ segments path.toList) ∧
      (parent ∉ segments path.toList → ∃ file, Content.resolve root path = .ok file ∧
        Below root (extensions path.toList) file)) ∧
    (∀ replies last, (answer root timing).Leads replies last →
      ∀ call result, ⟨.desk (.file call), result⟩ ∈ replies →
        ∃ raw request, replies.head? = some ⟨.desk .receive, .ok raw⟩ ∧
          Request.parse raw = .ok request ∧ parent ∉ segments request.path.toList ∧
          Below root (extensions request.path.toList) call.path ∧
          ∀ directory ∈ call.directory?, directory = root) ∧
    ∀ raw request, Request.parse raw = .ok request → request.method ≠ .head →
      parent ∈ segments request.path.toList →
      Draft.ofRaw root raw = .done ⟨(ContentError.forbidden request.path).response, none⟩ := by
  refine ⟨fun path => ⟨Content.resolve_forbidden_iff root, Content.resolve_below root⟩, ?_,
    fun _ _ => Draft.ofRaw_parent⟩
  intro replies last hl call result hmem
  rcases hl.ask_cases with ⟨rfl, -⟩ | ⟨received, later, rfl, hlater⟩
  · cases hmem
  · have hcall : ⟨.desk (.file call), result⟩ ∈ later := by
      rcases List.mem_cons.mp hmem with he | hcall
      · cases he
      · exact hcall
    cases received with
    | error cause => exact absurd rfl (silent_always.of_leads hlater _ hcall call)
    | ok raw =>
      dsimp only at hlater
      split at hlater
      · exact absurd rfl (silent_always.of_leads hlater _ hcall call)
      · obtain ⟨request, hparse, hasks⟩ :=
          (ofRaw_always root timing raw).of_leads hlater _ hcall call rfl
        obtain ⟨hparent, hbelow⟩ := hasks.below
        exact ⟨raw, request, rfl, hparse, hparent, hbelow, hasks.directory⟩

end Handling

end PooledHttp
