import Mathlib.Data.List.Infix
import PooledHttp.Proofs.Http.Edits
import PooledHttp.Proofs.Http.Framing
import PooledHttp.Proofs.Text.Encoding

/-! A rendered answer read back. Its head is what stands before the first blank line; the first line of it
holds the status, and on each of the others a name ends where a colon with a blank behind it comes first.
The body is what is left, and nothing in it is looked at. -/

namespace PooledHttp

/-- The parts between the ends of the lines. -/
def crlfLines : Bytes → List Bytes
  | 13 :: 10 :: rest => [] :: crlfLines rest
  | b :: rest => (crlfLines rest).modifyHead (b :: ·)
  | [] => [[]]

theorem crlfLines_line {line : Bytes} (h : 13 ∉ line) (rest : Bytes) :
    crlfLines (line ++ rest) = (crlfLines rest).modifyHead (line ++ ·) := by
  induction line with
  | nil =>
    rw [List.nil_append]
    cases crlfLines rest <;> rfl
  | cons b line ih =>
    rw [List.mem_cons, not_or] at h
    rw [List.cons_append, crlfLines, ih h.2, List.modifyHead_modifyHead]
    · rfl
    · rintro rest he
      exact absurd he.symm h.1

theorem crlfLines_intercalate {lines : List Bytes} (hne : lines ≠ []) (h : ∀ line ∈ lines, 13 ∉ line) :
    crlfLines (crlf.intercalate lines) = lines := by
  induction lines with
  | nil => exact absurd rfl hne
  | cons line lines ih =>
    obtain ⟨hline, hlines⟩ := List.forall_mem_cons.mp h
    cases lines with
    | nil =>
      have hlast := crlfLines_line hline []
      rw [List.append_nil] at hlast
      rw [List.intercalate_singleton, hlast]
      exact congrArg (· :: []) (List.append_nil line)
    | cons next lines =>
      have hrest : crlfLines (crlf ++ crlf.intercalate (next :: lines)) = [] :: next :: lines :=
        congrArg ([] :: ·) (ih (List.cons_ne_nil _ _) hlines)
      rw [List.intercalate_cons_cons, List.append_assoc, crlfLines_line hline, hrest]
      exact congrArg (· :: next :: lines) (List.append_nil line)

namespace Response

def readStatus? (line : List Char) : Option Status :=
  Status.all.find? fun status => (statusText status).toList == line

theorem readStatus?_statusText (status : Status) :
    readStatus? (statusText status).toList = some status := by
  cases status <;> rfl

/-- The sides of the first colon that a blank follows. -/
def cutAtColon? : List Char → Option (List Char × List Char)
  | ':' :: ' ' :: value => some ([], value)
  | c :: rest => (cutAtColon? rest).map fun (name, value) => (c :: name, value)
  | [] => none

theorem cutAtColon?_eq {name : List Char} (h : ¬ [':', ' '] <:+: name) (value : List Char) :
    cutAtColon? (name ++ ':' :: ' ' :: value) = some (name, value) := by
  induction name with
  | nil => rfl
  | cons c name ih =>
    have hname : ¬ [':', ' '] <:+: name := fun hin => h (hin.trans (List.suffix_cons c name).isInfix)
    rw [List.cons_append, cutAtColon?, ih hname]
    · rfl
    · -- the colon that ends the name may follow another, but no blank does
      rintro rest rfl hrest
      cases name with
      | nil => cases hrest
      | cons d name =>
        obtain ⟨rfl, -⟩ := List.cons.inj hrest
        exact h (List.prefix_append [':', ' '] name).isInfix

def readHeader? (line : List Char) : Option (String × String) :=
  (cutAtColon? line).map fun (name, value) => (String.ofList name, String.ofList value)

/-- A header that can be read off its line. -/
structure IsLegible (field : String × String) : Prop where
  name : IsOneLine field.1
  value : IsOneLine field.2
  apart : ¬ [':', ' '] <:+: field.1.toList

theorem IsLegible.readHeader? {field : String × String} (h : IsLegible field) :
    readHeader? (headerText field).toList = some field := by
  have htext : (headerText field).toList = field.1.toList ++ ':' :: ' ' :: field.2.toList := by
    rw [headerText, String.toList_append, String.toList_append, List.append_assoc]
    rfl
  rw [Response.readHeader?, htext, cutAtColon?_eq h.apart, Option.map_some]
  exact congrArg some (Prod.ext String.ofList_toList String.ofList_toList)

/-- The status on the first line of a head, and the headers on the others. -/
def readHead? : List (List Char) → Option (Status × List (String × String))
  | status :: fields => do return (← readStatus? status, ← fields.mapM readHeader?)
  | [] => none

def read? (output : Bytes) : Option Response := do
  let (head, body) ← cutAtBlankLine output
  let lines ← (crlfLines head).mapM Utf8.decode?
  let (status, fields) ← readHead? lines
  return ⟨status, fields, body⟩

theorem mapM_eq_some {α β : Type} {f : α → Option β} {g : α → β} {xs : List α}
    (h : ∀ x ∈ xs, f x = some (g x)) : xs.mapM f = some (xs.map g) := by
  induction xs with
  | nil => rfl
  | cons x xs ih =>
    obtain ⟨hx, hxs⟩ := List.forall_mem_cons.mp h
    rw [List.mapM_cons, hx, ih hxs]
    rfl

/-- The lines of a head as text. -/
def headTexts (status : Status) (fields : List (String × String)) : List String :=
  statusText status :: fields.map headerText

theorem decode_headLines (status : Status) (fields : List (String × String)) :
    (headLines status fields).mapM Utf8.decode? =
      some ((headTexts status fields).map String.toList) := by
  have hlines : headLines status fields = (headTexts status fields).map Utf8.ofString := by
    rw [headLines, headTexts, List.map_cons, List.map_map]
    rfl
  rw [hlines, List.mapM_map]
  exact mapM_eq_some fun text _ => Utf8.decode?_encode text.toList

theorem readHead?_headTexts {fields : List (String × String)}
    (h : ∀ field ∈ fields, IsLegible field) (status : Status) :
    readHead? ((headTexts status fields).map String.toList) = some (status, fields) := by
  have hfields : ((fields.map headerText).map String.toList).mapM readHeader? = some fields := by
    rw [List.map_map, List.mapM_map]
    exact (mapM_eq_some fun field hmem => (h field hmem).readHeader?).trans
      (congrArg some (List.map_id fields))
  rw [headTexts, List.map_cons, readHead?, readStatus?_statusText, hfields]
  rfl

/-- Whatever the body holds, an answer with legible headers comes back from its bytes. -/
theorem read?_render {r : Response} (h : ∀ field ∈ r.headers, IsLegible field) :
    read? r.render = some r := by
  have hone : ∀ field ∈ r.headers, IsOneLine field.1 ∧ IsOneLine field.2 :=
    fun field hmem => ⟨(h field hmem).name, (h field hmem).value⟩
  have hfit : ∀ line ∈ headLines r.status r.headers, line ≠ [] ∧ 13 ∉ line := headLines_fit hone
  have hcut : cutAtBlankLine r.render =
      some (crlf.intercalate (headLines r.status r.headers), r.body) := by
    rw [render_eq]
    exact cutAtBlankLine_lines (List.cons_ne_nil _ _) hfit r.body
  have hlines : crlfLines (crlf.intercalate (headLines r.status r.headers)) =
      headLines r.status r.headers :=
    crlfLines_intercalate (List.cons_ne_nil _ _) fun line hmem => (hfit line hmem).2
  simp only [read?, hcut, hlines, decode_headLines, readHead?_headTexts h, Option.bind_eq_bind,
    Option.bind_some]
  rfl

theorem IsBuilt.isLegible {r : Response} (h : r.IsBuilt) (timing : Timing) (tally : Tally) :
    ∀ field ∈ (r.setHeaders (StatBlock.build timing tally)).headers, IsLegible field := by
  have hapart : ∀ name ∈ ["Server", "Content-Type", "Content-Length"] ++ StatBlock.names,
      ¬ [':', ' '] <:+: name.toList := by decide
  intro field hmem
  obtain ⟨hname, hvalue⟩ := h.oneLine timing tally field hmem
  refine ⟨hname, hvalue, hapart _ ?_⟩
  rw [← h.names timing tally]
  exact List.mem_map_of_mem hmem

/-- However an answer is put together, its headers are a map: each name stands once, in the order in
which the names first came, with the value that it was given last. To set a block again changes nothing.
The length of the body is right unless it was set by itself after the body. If no header leaves its
line and no name holds a colon with a blank behind it, the bytes give back the status, the headers in
their order and the body, and no other such answer has these bytes. -/
theorem edited_ordered (origin : Origin) (edits : List Edit) :
    let r := origin.response.edited edits
    let history := origin.edits ++ edits
    let given := ("Server", serverName) :: history.flatMap Edit.given
    (r.headers.map Prod.fst).Nodup ∧
    r.headers.map Prod.fst = (given.map Prod.fst).eraseDups ∧
    (∀ name, r.header? name = given.reverse.lookup name) ∧
    (∀ block, (r.setHeaders block).setHeaders block = r.setHeaders block) ∧
    (∀ before body after, history = before ++ .body body :: after →
      "Content-Length" ∉ (after.flatMap Edit.given).map Prod.fst →
      r.body = body ∧ r.header? "Content-Length" = some (Decimal.text r.body.length)) ∧
    ((∀ field ∈ r.headers, IsLegible field) →
      read? r.render = some r ∧
      ∀ other : Response, (∀ field ∈ other.headers, IsLegible field) →
        other.render = r.render → other = r) := by
  intro r history given
  have hr : r = (empty origin.status).edited history := by
    rw [edited_append, ← origin.response_eq]
  have hheaders : r.headers = setAll given [] := by
    rw [hr, edited_headers]
    rfl
  refine ⟨?_, ?_, fun name => ?_, fun block => ?_, ?_, fun hlegible => ⟨read?_render hlegible, ?_⟩⟩
  · rw [hheaders]
    exact setAll_nil_nodup given
  · rw [hheaders, setAll_names]
  · rw [header?, hheaders, lookup_setAll, List.lookup_nil, Option.or_none]
  · have hagain : ((r.setHeaders block).setHeaders block).headers = (r.setHeaders block).headers := by
      rw [setHeaders_headers, setHeaders_headers, hheaders, ← setAll_append given, setAll_again]
    exact (Response.mk.injEq ..).mpr ⟨setHeaders_status _ _, hagain, setHeaders_body _ _⟩
  · intro before body after hhistory hnot
    have hlast : r = ((empty origin.status).edited before).edited (.body body :: after) := by
      rw [hr, hhistory, edited_append]
    rw [hlast]
    exact edited_length hnot _ body
  · intro other hother hsame
    have hread := read?_render hother
    rw [hsame, read?_render hlegible] at hread
    exact (Option.some.inj hread).symm

/-- A name that ends in a colon and a value that holds one, a block that sets one of them again, and a
body that reads like a head. -/
theorem edited_ordered_blank_line_in_body :
    let body := Utf8.ofString "A: 1\r\n\r\nB: 2"
    let block := [("Stat-Thread-Id:", "7"), ("X", "a: b")]
    let edits : List Edit := [.header "X" "", .header "Content-Length" "0", .body body, .block block]
    let r := (Origin.error .notFound "/x" "File not found").response.edited edits
    (∀ field ∈ r.headers, IsLegible field) ∧
      r.headers.map Prod.fst = ["Server", "Content-Type", "Content-Length", "X", "Stat-Thread-Id:"] ∧
      r.header? "X" = some "a: b" ∧ r.header? "Content-Length" = some "12" ∧
      read? r.render = some r := by
  intro body block edits r
  have hbody : Decimal.text body.length = "12" := by decide
  have hheaders : r.headers = [("Server", serverName), ("Content-Type", "text/html"),
      ("Content-Length", "12"), ("X", "a: b"), ("Stat-Thread-Id:", "7")] := by
    simp only [r, edits, block]
    simp [edited, Edit.apply, Origin.response, error, empty, setHeader, setHeaders, withBody, setIn,
      hbody]
  have hlegible : ∀ field ∈ r.headers, IsLegible field := by
    have hall : ∀ field ∈ [("Server", serverName), ("Content-Type", "text/html"),
        ("Content-Length", "12"), ("X", "a: b"), ("Stat-Thread-Id:", "7")],
        IsOneLine field.1 ∧ IsOneLine field.2 ∧ ¬ [':', ' '] <:+: field.1.toList := by decide
    rw [hheaders]
    exact fun field hmem => ⟨(hall field hmem).1, (hall field hmem).2.1, (hall field hmem).2.2⟩
  obtain ⟨-, -, hvalue, -, hlength, hread⟩ :=
    edited_ordered (.error .notFound "/x" "File not found") edits
  obtain ⟨hlast, hcount⟩ := hlength [_, _, _, _] body [.block block] rfl (by decide)
  rw [hlast, hbody] at hcount
  refine ⟨hlegible, ?_, ?_, hcount, (hread hlegible).1⟩
  · rw [hheaders]
    rfl
  · exact hvalue "X"

end Response

end PooledHttp
