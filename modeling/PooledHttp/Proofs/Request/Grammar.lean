import PooledHttp.Proofs.Text.Encoding
import PooledHttp.Proofs.Text.Words

/-! The texts from which a request is read, and the defects for which others are refused, both said
without the functions that read. Every text is one or the other, and the parser tells which. -/

namespace PooledHttp

theorem Method.ofToken?_eq_some_iff {token : List Char} {m : Method} :
    Method.ofToken? token = some m ↔ token = m.text.toList := by
  constructor
  · intro h
    unfold Method.ofToken? at h
    split at h <;> cases h <;> rfl
  · rintro rfl
    cases m <;> rfl

theorem Method.ofToken?_eq_none {token : List Char} (h : ∀ m : Method, token ≠ m.text.toList) :
    Method.ofToken? token = none :=
  Option.eq_none_iff_forall_not_mem.mpr fun m hm => h m (Method.ofToken?_eq_some_iff.mp hm)

theorem Version.ofToken?_eq_some_iff {token : List Char} {v : Version} :
    Version.ofToken? token = some v ↔ token = v.text.toList := by
  constructor
  · intro h
    unfold Version.ofToken? at h
    split at h <;> cases h <;> rfl
  · rintro rfl
    cases v <;> rfl

theorem Version.ofToken?_eq_none {token : List Char} (h : ∀ v : Version, token ≠ v.text.toList) :
    Version.ofToken? token = none :=
  Option.eq_none_iff_forall_not_mem.mpr fun v hv => h v (Version.ofToken?_eq_some_iff.mp hv)

namespace Request

open Blank

/-- A piece of text without the carriage returns at its end. -/
def Chopped (piece line : List Char) : Prop :=
  line.getLast? ≠ some '\r' ∧ ∃ n, piece = line ++ List.replicate n '\r'

/-- The lines of a text, which end at a line feed or with the text. -/
inductive Lines : List Char → List (List Char) → Prop
  | last {piece line : List Char} (hpiece : '\n' ∉ piece) (hline : Chopped piece line) :
    Lines piece [line]
  | more {piece line rest : List Char} {lines : List (List Char)} (hpiece : '\n' ∉ piece)
    (hline : Chopped piece line) (hrest : Lines rest lines) :
    Lines (piece ++ '\n' :: rest) (line :: lines)

/-- The lines before the first blank one, or all of them. -/
def Head (lines head : List (List Char)) : Prop :=
  (∀ line ∈ head, ¬ AllBlank line) ∧
    (lines = head ∨ ∃ blank more, AllBlank blank ∧ lines = head ++ blank :: more)

/-- A name and a value on the two sides of the first colon, without the blanks around each. -/
def IsHeader (line : List Char) (header : String × String) : Prop :=
  ∃ before after, line = before ++ ':' :: after ∧ ':' ∉ before ∧
    Trims before header.1.toList ∧ Trims after header.2.toList

/-- What stands in the last header of that name. -/
inductive Valued (head : List (List Char)) (name : String) : Option String → Prop
  | last {before after : List (List Char)} {line : List Char} {value : String}
    (hhead : head = before ++ line :: after) (hline : IsHeader line (name, value))
    (hlast : ∀ line ∈ after, ∀ value, ¬ IsHeader line (name, value)) : Valued head name (some value)
  | none (h : ∀ line ∈ head, ∀ value, ¬ IsHeader line (name, value)) : Valued head name none

/-- The path and the query on the two sides of the first question mark. -/
inductive Target : List Char → String → String → Prop
  | bare {uri : List Char} (h : '?' ∉ uri) :
    Target uri (String.ofList (PercentEscape.decode uri)) ""
  | asked {before query : List Char} (h : '?' ∉ before) :
    Target (before ++ '?' :: query) (String.ofList (PercentEscape.decode before))
      (String.ofList query)

/-- The first line and the lines of the headers. -/
def Opens (text first : List Char) (head : List (List Char)) : Prop :=
  ∃ rest, Lines text (first :: rest) ∧ Head rest head

/-- A text from which the request is read. -/
def Spells (text : List Char) (r : Request) : Prop :=
  ∃ first head, Opens text first head ∧
    Words first [r.method.text.toList, r.uri.toList, r.version.text.toList] ∧
    Target r.uri.toList r.path r.query ∧ List.Forall₂ IsHeader head r.headers

/-- The defect for which a text is refused: the first one, where it has several. -/
inductive Flaw (text : List Char) : RequestError → Prop
  | empty (h : AllBlank text) : Flaw text .empty
  | count {first : List Char} {head words : List (List Char)} (hsome : ¬ AllBlank text)
    (hopens : Opens text first head) (hwords : Words first words) (hcount : words.length ≠ 3) :
    Flaw text .requestLine
  | method {first token uri version : List Char} {head : List (List Char)}
    (hopens : Opens text first head) (hwords : Words first [token, uri, version])
    (hnone : ∀ method : Method, token ≠ method.text.toList) :
    Flaw text (.unsupportedMethod (String.ofList token))
  | version {first uri token : List Char} {head : List (List Char)} {method : Method}
    (hopens : Opens text first head) (hwords : Words first [method.text.toList, uri, token])
    (hnone : ∀ version : Version, token ≠ version.text.toList) :
    Flaw text (.version (String.ofList token))
  | header {first uri line : List Char} {before after : List (List Char)} {method : Method}
    {version : Version} (hopens : Opens text first (before ++ line :: after))
    (hwords : Words first [method.text.toList, uri, version.text.toList])
    (hbefore : ∀ line ∈ before, ':' ∈ line) (hline : ':' ∉ line) :
    Flaw text (.header (String.ofList line))

/-! Each function finds what its relation says. -/

theorem chopped_iff {piece line : List Char} :
    (piece.reverse.dropWhile (· == '\r')).reverse = line ↔ Chopped piece line := by
  constructor
  · rintro rfl
    obtain ⟨back, hpiece, hback, hlast⟩ := exists_dropEnd (· == '\r') piece
    have hreturns : back = List.replicate back.length '\r' :=
      List.eq_replicate_of_mem fun c hc => beq_iff_eq.mp (hback c hc)
    refine ⟨fun he => absurd (hlast '\r' he) (by decide), back.length, ?_⟩
    rw [← hreturns]
    exact hpiece
  · rintro ⟨hlast, n, rfl⟩
    refine dropEnd_append (fun c hc => beq_iff_eq.mpr (List.eq_of_mem_replicate hc)) ?_
    intro c hc
    rw [beq_eq_false_iff_ne]
    rintro rfl
    exact hlast hc

theorem requestLines_piece {piece line : List Char} (hpiece : '\n' ∉ piece)
    (hline : Chopped piece line) : requestLines piece = [line] := by
  rw [requestLines, List.splitOn_eq_singleton hpiece, List.map_singleton, chopped_iff.mpr hline]

theorem Lines.requestLines_eq {text : List Char} {lines : List (List Char)} (h : Lines text lines) :
    requestLines text = lines := by
  induction h with
  | last hpiece hline => exact requestLines_piece hpiece hline
  | more hpiece hline hrest ih =>
    rw [requestLines_append, requestLines_piece hpiece hline, ih, List.singleton_append]

theorem exists_lines (text : List Char) : ∃ lines, Lines text lines := by
  cases hcut : cutAt? '\n' text with
  | none => exact ⟨_, .last (cutAt?_eq_none_iff.mp hcut) (chopped_iff.mp rfl)⟩
  | some sides =>
    obtain ⟨piece, rest⟩ := sides
    obtain ⟨rfl, hpiece⟩ := cutAt?_eq_some_iff.mp hcut
    obtain ⟨lines, hlines⟩ := exists_lines rest
    exact ⟨_, .more hpiece (chopped_iff.mp rfl) hlines⟩
termination_by text.length
decreasing_by
  subst_vars
  simp only [List.length_append, List.length_cons]
  omega

theorem requestLines_eq_iff {text : List Char} {lines : List (List Char)} :
    requestLines text = lines ↔ Lines text lines := by
  constructor
  · rintro rfl
    obtain ⟨lines, h⟩ := exists_lines text
    rwa [h.requestLines_eq]
  · exact Lines.requestLines_eq

theorem notBlank_iff {line : List Char} : (!isBlankLine line) = true ↔ ¬ AllBlank line := by
  rw [Bool.not_eq_true', ← isBlankLine_iff, Bool.not_eq_true]

theorem head_iff {lines head : List (List Char)} :
    lines.takeWhile (fun line => !isBlankLine line) = head ↔ Head lines head := by
  constructor
  · rintro rfl
    refine ⟨fun line hline => ?_, ?_⟩
    · exact notBlank_iff.mp (List.mem_takeWhile_imp (p := fun line => !isBlankLine line) hline)
    · cases hmore : lines.dropWhile (fun line => !isBlankLine line) with
      | nil =>
        have hall := List.dropWhile_eq_nil_iff.mp hmore
        exact .inl (List.takeWhile_eq_self_iff.mpr hall).symm
      | cons blank more =>
        have hstop := head?_dropWhile lines blank (by rw [hmore]; rfl)
        refine .inr ⟨blank, more, ?_, by rw [← hmore, List.takeWhile_append_dropWhile]⟩
        rw [← isBlankLine_iff]
        simpa using hstop
  · rintro ⟨hhead, hlines⟩
    have hkept : head.takeWhile (fun line => !isBlankLine line) = head :=
      List.takeWhile_eq_self_iff.mpr fun line hline => notBlank_iff.mpr (hhead line hline)
    rcases hlines with rfl | ⟨blank, more, hblank, rfl⟩
    · exact hkept
    · rw [takeWhile_append_stop head more (by simpa using (isBlankLine_iff blank).mpr hblank), hkept]

theorem exists_opens (text : List Char) : ∃ first head, Opens text first head := by
  obtain ⟨lines, hlines⟩ := exists_lines text
  cases hlines with
  | last hpiece hline => exact ⟨_, _, _, .last hpiece hline, head_iff.mp rfl⟩
  | more hpiece hline hrest => exact ⟨_, _, _, .more hpiece hline hrest, head_iff.mp rfl⟩

theorem readHeader_eq_ok_iff {line : List Char} {header : String × String} :
    readHeader line = .ok header ↔ IsHeader line header := by
  constructor
  · intro h
    rw [readHeader] at h
    cases hcut : cutAt? ':' line with
    | none => simp [hcut] at h
    | some sides =>
      obtain ⟨before, after⟩ := sides
      simp only [hcut, Except.ok.injEq] at h
      obtain ⟨hline, hbefore⟩ := cutAt?_eq_some_iff.mp hcut
      rw [← h]
      refine ⟨before, after, hline, hbefore, ?_, ?_⟩ <;> rw [String.toList_ofList] <;>
        exact trim_eq_iff.mp rfl
  · rintro ⟨before, after, hline, hbefore, hname, hvalue⟩
    rw [readHeader, cutAt?_eq_some_iff.mpr ⟨hline, hbefore⟩]
    simp only [trim_eq_iff.mpr hname, trim_eq_iff.mpr hvalue, String.ofList_toList]

theorem readHeader_noColon {line : List Char} (h : ':' ∉ line) :
    readHeader line = .error (.header (String.ofList line)) := by
  rw [readHeader, cutAt?_eq_none_iff.mpr h]

theorem exists_isHeader {line : List Char} (h : ':' ∈ line) : ∃ header, IsHeader line header := by
  obtain ⟨before, after, rfl, hbefore⟩ := List.eq_append_cons_of_mem h
  refine ⟨(String.ofList (trim before), String.ofList (trim after)), before, after, rfl, hbefore,
    ?_, ?_⟩ <;> rw [String.toList_ofList] <;> exact trim_eq_iff.mp rfl

theorem IsHeader.colon_mem {line : List Char} {header : String × String} (h : IsHeader line header) :
    ':' ∈ line := by
  obtain ⟨before, after, rfl, -⟩ := h
  exact List.mem_append_right before List.mem_cons_self

theorem IsHeader.unique {line : List Char} {header other : String × String}
    (h : IsHeader line header) (h' : IsHeader line other) : header = other := by
  rw [← readHeader_eq_ok_iff] at h h'
  exact Except.ok.inj (h.symm.trans h')

theorem readHeaders_ok {head : List (List Char)} {headers : List (String × String)}
    (h : List.Forall₂ IsHeader head headers) : head.mapM readHeader = .ok headers := by
  induction h with
  | nil => rfl
  | cons hline _ ih =>
    rw [List.mapM_cons, readHeader_eq_ok_iff.mpr hline, ih]
    rfl

theorem exists_headers {head : List (List Char)} (h : ∀ line ∈ head, ':' ∈ line) :
    ∃ headers, List.Forall₂ IsHeader head headers := by
  induction head with
  | nil => exact ⟨[], .nil⟩
  | cons line head ih =>
    obtain ⟨hline, hhead⟩ := List.forall_mem_cons.mp h
    obtain ⟨header, hheader⟩ := exists_isHeader hline
    obtain ⟨headers, hheaders⟩ := ih hhead
    exact ⟨header :: headers, .cons hheader hheaders⟩

theorem readHeaders_error {before : List (List Char)} {line : List Char}
    (hbefore : ∀ line ∈ before, ':' ∈ line) (hline : ':' ∉ line) (after : List (List Char)) :
    (before ++ line :: after).mapM readHeader = .error (.header (String.ofList line)) := by
  obtain ⟨headers, hheaders⟩ := exists_headers hbefore
  rw [List.mapM_append, readHeaders_ok hheaders, List.mapM_cons, readHeader_noColon hline]
  rfl

theorem colons_or_first (head : List (List Char)) : (∀ line ∈ head, ':' ∈ line) ∨
    ∃ before line after, head = before ++ line :: after ∧ (∀ line ∈ before, ':' ∈ line) ∧
      ':' ∉ line := by
  induction head with
  | nil => exact .inl (List.forall_mem_nil _)
  | cons line head ih =>
    by_cases hline : ':' ∈ line
    · rcases ih with hall | ⟨before, other, after, rfl, hbefore, hother⟩
      · exact .inl (List.forall_mem_cons.mpr ⟨hline, hall⟩)
      · exact .inr ⟨line :: before, other, after, rfl, List.forall_mem_cons.mpr ⟨hline, hbefore⟩,
          hother⟩
    · exact .inr ⟨[], line, head, rfl, List.forall_mem_nil _, hline⟩

theorem Target.ofLine_eq {uri : List Char} {path query : String} (h : Target uri path query)
    (method : Method) (version : Version) (headers : List (String × String)) :
    ofLine ⟨method, uri, version⟩ headers =
      ⟨method, String.ofList uri, path, query, version, headers⟩ := by
  cases h with
  | bare h =>
    simp only [ofLine, cutAt?_eq_none_iff.mpr h, Option.getD_none, String.ofList_nil]
  | asked h => simp only [ofLine, cutAt?_eq_some_iff.mpr ⟨rfl, h⟩, Option.getD_some]

theorem exists_target (uri : List Char) : ∃ path query, Target uri path query := by
  by_cases h : '?' ∈ uri
  · obtain ⟨before, query, rfl, hbefore⟩ := List.eq_append_cons_of_mem h
    exact ⟨_, _, .asked hbefore⟩
  · exact ⟨_, _, .bare h⟩

theorem read_words {first uri : List Char} {method : Method} {version : Version}
    (h : Words first [method.text.toList, uri, version.text.toList]) :
    RequestLine.read first = .ok ⟨method, uri, version⟩ := by
  rw [RequestLine.read, h.words_eq]
  simp only [Method.ofToken?_eq_some_iff.mpr rfl, Version.ofToken?_eq_some_iff.mpr rfl]

/-! Whole texts. -/

theorem Opens.allBlank {text first : List Char} {head : List (List Char)} (h : Opens text first head)
    (hblank : AllBlank text) : AllBlank first := by
  obtain ⟨rest, hlines, -⟩ := h
  obtain ⟨line, more, he, hline⟩ := requestLines_blank hblank
  rw [hlines.requestLines_eq] at he
  cases he
  exact hline

theorem Opens.not_allBlank {text first word : List Char} {head words : List (List Char)}
    (h : Opens text first head) (hwords : Words first (word :: words)) : ¬ AllBlank text := by
  intro hblank
  have hnone := (h.allBlank hblank).words
  rw [hwords.words_eq] at hnone
  cases hnone

theorem Opens.ofText_eq {text first : List Char} {head : List (List Char)} (h : Opens text first head)
    (hsome : ¬ AllBlank text) :
    ofText text = (RequestLine.read first).bind fun line =>
      (head.mapM readHeader).map (ofLine line) := by
  obtain ⟨rest, hlines, hhead⟩ := h
  rw [ofText, if_neg (by rwa [isBlankLine_iff]), hlines.requestLines_eq]
  simp only [head_iff.mpr hhead]
  cases RequestLine.read first with
  | error e => rfl
  | ok line => cases head.mapM readHeader <;> rfl

theorem Spells.ofText_eq {text : List Char} {r : Request} (h : Spells text r) :
    ofText text = .ok r := by
  obtain ⟨first, head, hopens, hwords, htarget, hheaders⟩ := h
  rw [hopens.ofText_eq (hopens.not_allBlank hwords), read_words hwords,
    readHeaders_ok hheaders]
  exact congrArg Except.ok ((htarget.ofLine_eq _ _ _).trans (by rw [String.ofList_toList]))

theorem Flaw.ofText_eq {text : List Char} {e : RequestError} (h : Flaw text e) :
    ofText text = .error e := by
  cases h with
  | empty h => exact ofText_blank h
  | count hsome hopens hwords hcount =>
    rw [hopens.ofText_eq hsome, RequestLine.read, hwords.words_eq]
    split
    · exact absurd rfl hcount
    · rfl
  | method hopens hwords hnone =>
    rw [hopens.ofText_eq (hopens.not_allBlank hwords), RequestLine.read, hwords.words_eq]
    simp only [Method.ofToken?_eq_none hnone]
    rfl
  | version hopens hwords hnone =>
    rw [hopens.ofText_eq (hopens.not_allBlank hwords), RequestLine.read, hwords.words_eq]
    simp only [Method.ofToken?_eq_some_iff.mpr rfl, Version.ofToken?_eq_none hnone]
    rfl
  | header hopens hwords hbefore hline =>
    rw [hopens.ofText_eq (hopens.not_allBlank hwords), read_words hwords,
      readHeaders_error hbefore hline]
    rfl

theorem exists_spells {text first uri : List Char} {head : List (List Char)} {method : Method}
    {version : Version} (hopens : Opens text first head)
    (hwords : Words first [method.text.toList, uri, version.text.toList])
    (hcolons : ∀ line ∈ head, ':' ∈ line) : ∃ r, Spells text r := by
  obtain ⟨path, query, htarget⟩ := exists_target uri
  obtain ⟨headers, hheaders⟩ := exists_headers hcolons
  refine ⟨⟨method, String.ofList uri, path, query, version, headers⟩, first, head, hopens, ?_, ?_,
    hheaders⟩ <;> rw [String.toList_ofList]
  · exact hwords
  · exact htarget

theorem spells_or_flaw (text : List Char) : (∃ r, Spells text r) ∨ ∃ e, Flaw text e := by
  by_cases hsome : AllBlank text
  · exact .inr ⟨_, .empty hsome⟩
  obtain ⟨first, head, hopens⟩ := exists_opens text
  obtain ⟨words, hwords⟩ := exists_words first
  by_cases hcount : words.length = 3
  swap
  · exact .inr ⟨_, .count hsome hopens hwords hcount⟩
  obtain ⟨token, uri, version, rfl⟩ := List.length_eq_three.mp hcount
  by_cases hmethod : ∃ method : Method, token = method.text.toList
  swap
  · exact .inr ⟨_, .method hopens hwords (not_exists.mp hmethod)⟩
  obtain ⟨method, rfl⟩ := hmethod
  by_cases hversion : ∃ v : Version, version = v.text.toList
  swap
  · exact .inr ⟨_, .version hopens hwords (not_exists.mp hversion)⟩
  obtain ⟨version, rfl⟩ := hversion
  rcases colons_or_first head with hcolons | ⟨before, line, after, rfl, hbefore, hline⟩
  · exact .inl (exists_spells hopens hwords hcolons)
  · exact .inr ⟨_, .header hopens hwords hbefore hline⟩

theorem ofText_eq_ok_iff {text : List Char} {r : Request} : ofText text = .ok r ↔ Spells text r := by
  refine ⟨fun h => ?_, Spells.ofText_eq⟩
  rcases spells_or_flaw text with ⟨other, hother⟩ | ⟨e, he⟩
  · rw [hother.ofText_eq, Except.ok.injEq] at h
    rwa [← h]
  · rw [he.ofText_eq] at h
    cases h

theorem ofText_eq_error_iff {text : List Char} {e : RequestError} :
    ofText text = .error e ↔ Flaw text e := by
  refine ⟨fun h => ?_, Flaw.ofText_eq⟩
  rcases spells_or_flaw text with ⟨r, hr⟩ | ⟨other, hother⟩
  · rw [hr.ofText_eq] at h
    cases h
  · rw [hother.ofText_eq, Except.error.injEq] at h
    rwa [← h]

theorem parse_encode (text : List Char) : parse (Utf8.encode text) = ofText text := by
  rw [parse, Utf8.decode?_encode]

theorem parse_of_not_utf8 {raw : Bytes} (h : ∀ text, raw ≠ Utf8.encode text) :
    parse raw = .error .requestLine := by
  cases hraw : Utf8.decode? raw with
  | none => rw [parse, hraw]
  | some text => exact absurd (Utf8.encode_of_decode? hraw).symm (h text)

/-- Behind a first line that is not blank, what follows a blank line is not looked at. -/
theorem Opens.append_blank {front blank first : List Char} {head : List (List Char)}
    (h : Opens front first head) (hblank : AllBlank blank) (back : List Char) :
    Opens (front ++ '\n' :: (blank ++ '\n' :: back)) first head := by
  obtain ⟨rest, hlines, hhead⟩ := h
  obtain ⟨line, more, hline, hstop⟩ := requestLines_blank hblank
  refine ⟨rest ++ line :: (more ++ requestLines back), ?_, ?_⟩
  · rw [← requestLines_eq_iff, requestLines_append, requestLines_append, hlines.requestLines_eq,
      hline, List.cons_append, List.cons_append]
  · rw [← head_iff] at hhead ⊢
    rw [takeWhile_append_stop rest _ (by simpa using (isBlankLine_iff line).mpr hstop), hhead]

/-! The header of a name. -/

theorem valued_lookup {head : List (List Char)} {headers : List (String × String)}
    (h : List.Forall₂ IsHeader head headers) (name : String) :
    Valued head name (headers.reverse.lookup name) := by
  induction h with
  | nil => exact .none (List.forall_mem_nil _)
  | @cons line header head headers hline hrest ih =>
    rw [List.reverse_cons, List.lookup_append]
    cases hlater : headers.reverse.lookup name with
    | some value =>
      rw [hlater] at ih
      cases ih with
      | @last before after other _ hhead hother hlast =>
        have hwhole : line :: head = (line :: before) ++ other :: after := by
          rw [hhead, List.cons_append]
        exact .last hwhole hother hlast
    | none =>
      rw [hlater] at ih
      cases ih with
      | none hnone =>
        obtain ⟨key, value⟩ := header
        by_cases hkey : name = key
        · subst hkey
          rw [Option.none_or, List.lookup_cons_self]
          have hwhole : line :: head = [] ++ line :: head := rfl
          exact .last hwhole hline hnone
        · rw [Option.none_or, List.lookup_cons, beq_false_of_ne hkey]
          refine .none (List.forall_mem_cons.mpr ⟨fun value hother => ?_, hnone⟩)
          exact hkey (congrArg Prod.fst (hother.unique hline))

theorem Valued.unique {head : List (List Char)} {name : String} {value other : Option String}
    (h : Valued head name value) (h' : Valued head name other) : value = other := by
  cases h with
  | none hnone =>
    cases h' with
    | none => rfl
    | last hhead hline _ =>
      exact absurd hline (hnone _ (hhead ▸ List.mem_append_right _ List.mem_cons_self) _)
  | last hhead hline hlast =>
    cases h' with
    | none hnone =>
      exact absurd hline (hnone _ (hhead ▸ List.mem_append_right _ List.mem_cons_self) _)
    | last hhead' hline' hlast' =>
      -- whichever line comes first, the other one stands behind it
      rw [hhead, List.append_eq_append_iff] at hhead'
      rcases hhead' with ⟨_ | ⟨_, between⟩, -, he⟩ | ⟨_ | ⟨_, between⟩, -, he⟩ <;> cases he
      · exact congrArg (some ∘ Prod.snd) (hline.unique hline')
      · exact absurd hline' (hlast _ (List.mem_append_right between List.mem_cons_self) _)
      · exact congrArg (some ∘ Prod.snd) (hline.unique hline')
      · exact absurd hline (hlast' _ (List.mem_append_right between List.mem_cons_self) _)

theorem header?_eq_iff {head : List (List Char)} {r : Request}
    (h : List.Forall₂ IsHeader head r.headers) {name : String} {value : Option String} :
    r.header? name = value ↔ Valued head name value := by
  constructor
  · rintro rfl
    exact valued_lookup h name
  · exact (valued_lookup h name).unique

theorem Opens.unique {text first first' : List Char} {head head' : List (List Char)}
    (h : Opens text first head) (h' : Opens text first' head') : first = first' ∧ head = head' := by
  obtain ⟨rest, hlines, hhead⟩ := h
  obtain ⟨rest', hlines', hhead'⟩ := h'
  have he := hlines.requestLines_eq.symm.trans hlines'.requestLines_eq
  obtain ⟨hfirst, hrest⟩ := List.cons.inj he
  subst hrest
  exact ⟨hfirst, (head_iff.mpr hhead).symm.trans (head_iff.mpr hhead')⟩

theorem colon_mem_of_headers {head : List (List Char)} {headers : List (String × String)}
    (h : List.Forall₂ IsHeader head headers) : ∀ line ∈ head, ':' ∈ line := by
  induction h with
  | nil => exact List.forall_mem_nil _
  | cons hline _ ih => exact List.forall_mem_cons.mpr ⟨hline.colon_mem, ih⟩

theorem parse_eq_ok_iff {raw : Bytes} {r : Request} :
    parse raw = .ok r ↔ ∃ text, raw = Utf8.encode text ∧ Spells text r := by
  constructor
  · intro h
    by_cases hutf8 : ∃ text, raw = Utf8.encode text
    · obtain ⟨text, rfl⟩ := hutf8
      rw [parse_encode] at h
      exact ⟨text, rfl, ofText_eq_ok_iff.mp h⟩
    · rw [parse_of_not_utf8 (not_exists.mp hutf8)] at h
      cases h
  · rintro ⟨text, rfl, h⟩
    rw [parse_encode, h.ofText_eq]

theorem parse_eq_error_iff {raw : Bytes} {e : RequestError} :
    parse raw = .error e ↔ ((∀ text, raw ≠ Utf8.encode text) ∧ e = .requestLine) ∨
      ∃ text, raw = Utf8.encode text ∧ Flaw text e := by
  constructor
  · intro h
    by_cases hutf8 : ∃ text, raw = Utf8.encode text
    · obtain ⟨text, rfl⟩ := hutf8
      rw [parse_encode] at h
      exact .inr ⟨text, rfl, ofText_eq_error_iff.mp h⟩
    · rw [parse_of_not_utf8 (not_exists.mp hutf8), Except.error.injEq] at h
      exact .inl ⟨not_exists.mp hutf8, h.symm⟩
  · rintro (⟨hnot, rfl⟩ | ⟨text, rfl, h⟩)
    · exact parse_of_not_utf8 hnot
    · rw [parse_encode, h.ofText_eq]

theorem Spells.headers {text first : List Char} {head : List (List Char)} {r : Request}
    (h : Spells text r) (hopens : Opens text first head) : List.Forall₂ IsHeader head r.headers := by
  obtain ⟨first', head', hopens', -, -, hheaders⟩ := h
  rwa [(hopens.unique hopens').2]

/-- A request is read from just the texts of the grammar, and names what stands there; whatever else
comes is refused for its first defect. Of several headers with one name the last counts. Behind an
acceptable first line, nothing from the first blank line on is looked at, as long as it is UTF-8. -/
theorem parse_grammar (raw : Bytes) :
    (∀ r, parse raw = .ok r ↔ ∃ text, raw = Utf8.encode text ∧ Spells text r) ∧
    (∀ e, parse raw = .error e ↔ ((∀ text, raw ≠ Utf8.encode text) ∧ e = .requestLine) ∨
      ∃ text, raw = Utf8.encode text ∧ Flaw text e) ∧
    ((∃ r, parse raw = .ok r) ↔ ∃ text first head, ∃ (method : Method) (version : Version),
      ∃ uri, raw = Utf8.encode text ∧ Opens text first head ∧
        Words first [method.text.toList, uri, version.text.toList] ∧ ∀ line ∈ head, ':' ∈ line) ∧
    (∀ r text first head, parse raw = .ok r → raw = Utf8.encode text → Opens text first head →
      ∀ name value, r.header? name = value ↔ Valued head name value) ∧
    ∀ front blank back first head, raw = Utf8.encode (front ++ '\n' :: (blank ++ '\n' :: back)) →
      Opens front first head → ¬ AllBlank first → AllBlank blank →
        parse raw = parse (Utf8.encode front) := by
  refine ⟨fun r => parse_eq_ok_iff, fun e => parse_eq_error_iff, ?_, ?_, ?_⟩
  · constructor
    · rintro ⟨r, hr⟩
      obtain ⟨text, hraw, first, head, hopens, hwords, -, hheaders⟩ := parse_eq_ok_iff.mp hr
      exact ⟨text, first, head, r.method, r.version, _, hraw, hopens, hwords,
        colon_mem_of_headers hheaders⟩
    · rintro ⟨text, first, head, method, version, uri, hraw, hopens, hwords, hcolons⟩
      obtain ⟨r, hr⟩ := exists_spells hopens hwords hcolons
      exact ⟨r, parse_eq_ok_iff.mpr ⟨text, hraw, hr⟩⟩
  · rintro r text first head hr rfl hopens name value
    rw [parse_encode] at hr
    exact header?_eq_iff ((ofText_eq_ok_iff.mp hr).headers hopens)
  · rintro front blank back first head rfl hopens hfirst hblank
    have hfront : ¬ AllBlank front := fun h => hfirst (hopens.allBlank h)
    have hwhole : ¬ AllBlank (front ++ '\n' :: (blank ++ '\n' :: back)) :=
      fun h => hfront fun c hc => h c (List.mem_append_left _ hc)
    rw [parse_encode, parse_encode, (hopens.append_blank hblank back).ofText_eq hwhole,
      hopens.ofText_eq hfront]

/-- The header that comes last counts, and the body is not looked at. -/
theorem parse_grammar_repeated :
    let front := "POST /a%20b?c HTTP/1.0\r\nHost: x\r\nHost : y".toList
    let raw := Utf8.encode (front ++ '\n' :: (['\r'] ++ '\n' :: "rest".toList))
    ∃ r, parse raw = .ok r ∧ r.path = "/a b" ∧ r.header? "Host" = some "y" ∧
      Valued ["Host: x".toList, "Host : y".toList] "Host" (some "y") ∧
      parse raw = parse (Utf8.encode front) := by
  intro front raw
  have hopens : Opens front "POST /a%20b?c HTTP/1.0".toList
      ["Host: x".toList, "Host : y".toList] := ⟨_, requestLines_eq_iff.mp rfl, head_iff.mp rfl⟩
  have hreturn : AllBlank ['\r'] := IsBare.allBlank (.inr rfl)
  have hfirst : ¬ AllBlank "POST /a%20b?c HTTP/1.0".toList :=
    fun h => absurd (h 'P' List.mem_cons_self) (by decide)
  obtain ⟨-, -, -, -, hpast⟩ := parse_grammar raw
  obtain ⟨-, -, -, hvalue, -⟩ := parse_grammar (Utf8.encode front)
  have hfront := hpast front ['\r'] "rest".toList _ _ rfl hopens hfirst hreturn
  have hread : parse (Utf8.encode front) = .ok ⟨.post, "/a%20b?c", "/a b", "c", .http10,
    [("Host", "x"), ("Host", "y")]⟩ := rfl
  exact ⟨_, hfront.trans hread, rfl, rfl, (hvalue _ front _ _ hread rfl hopens "Host" _).mp rfl,
    hfront⟩

end Request

end PooledHttp
