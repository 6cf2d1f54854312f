import Mathlib.Data.List.Basic
import PooledHttp.Content.Target

/-! Where the path of a request leads, segment by segment: not out of the root, and otherwise down the
names among its segments. Read as a path again, the result is the root with these names behind it. -/

namespace PooledHttp.Target

/-- The segments that say something. -/
def names (path : List Char) : List (List Char) :=
  (segments path).filter fun s => s ≠ [] ∧ s ≠ ['.']

/-- What a request path puts behind the root. -/
def extensions (path : List Char) : List (List Char) :=
  names path ++ if wantsDefault path then [defaultPage] else []

/-- A name leads one step down and nowhere else. -/
structure IsName (name : List Char) : Prop where
  ne_nil : name ≠ []
  ne_dot : name ≠ ['.']
  ne_parent : name ≠ parent
  no_slash : '/' ∉ name

theorem segments_cons_slash (path : List Char) : segments ('/' :: path) = [] :: segments path :=
  List.splitOn_append_cons_self [] path

theorem segments_append (front back : List Char) :
    segments (front ++ '/' :: back) = segments front ++ segments back :=
  List.splitOn_append_cons_self front back

theorem no_slash_of_mem_segments {path segment : List Char} (h : segment ∈ segments path) :
    '/' ∉ segment := by
  induction path generalizing segment with
  | nil =>
    have hnil : segment = [] := by simpa [segments] using h
    simp [hnil]
  | cons c path ih =>
    rw [segments, List.splitOn_eq_splitOnP, List.splitOnP_cons_eq_if_modifyHead,
      ← List.splitOn_eq_splitOnP] at h
    by_cases hc : (c == '/') = true
    · rw [if_pos hc] at h
      rcases List.mem_cons.mp h with rfl | h
      · exact List.not_mem_nil
      · exact ih h
    · rw [if_neg hc] at h
      cases hs : path.splitOn '/' with
      | nil => exact absurd hs (List.splitOn_ne_nil '/' path)
      | cons first rest =>
        rw [hs, List.modifyHead_cons] at h
        have hfirst : '/' ∉ first := ih (by rw [segments, hs]; exact List.mem_cons_self)
        rcases List.mem_cons.mp h with rfl | h
        · have hne : ¬ '/' = c := fun he => hc (beq_iff_eq.mpr he.symm)
          simp [hne, hfirst]
        · exact ih (by rw [segments, hs]; exact List.mem_cons_of_mem _ h)

/-- Slashes at the start make empty segments only. -/
theorem segments_dropWhile (path : List Char) :
    (segments (path.dropWhile (· == '/'))).filterMap Component.ofSegment? =
      (segments path).filterMap Component.ofSegment? := by
  induction path with
  | nil => rfl
  | cons c path ih =>
    by_cases hc : c = '/'
    · subst hc
      have hdrop : ('/' :: path).dropWhile (· == '/') = path.dropWhile (· == '/') := by simp
      have hnone : Component.ofSegment? [] = none := rfl
      rw [hdrop, ih, segments_cons_slash, List.filterMap_cons_none hnone]
    · have hdrop : (c :: path).dropWhile (· == '/') = c :: path := by simp [hc]
      rw [hdrop]

theorem foldlM_descend (root : List Char) (segments : List (List Char)) :
    (segments.filterMap Component.ofSegment?).foldlM descend root =
      if parent ∈ segments then none
      else some ((segments.filter fun s => s ≠ [] ∧ s ≠ ['.']).foldl push root) := by
  induction segments generalizing root with
  | nil => rfl
  | cons segment segments ih =>
    by_cases hskip : segment = [] ∨ segment = ['.']
    · have hnone : Component.ofSegment? segment = none := if_pos hskip
      have hne : ¬ parent = segment := by rcases hskip with rfl | rfl <;> decide
      have hdrop : ¬ (segment ≠ [] ∧ segment ≠ ['.']) := by
        rcases hskip with rfl | rfl <;> decide
      rw [List.filterMap_cons_none hnone, ih, List.filter_cons_of_neg (by simpa using hdrop)]
      simp only [List.mem_cons, hne, false_or]
    · have hkeep : segment ≠ [] ∧ segment ≠ ['.'] := not_or.mp hskip
      by_cases hparent : segment = parent
      · have hsome : Component.ofSegment? segment = some .parent := by
          rw [Component.ofSegment?, if_neg hskip, if_pos hparent]
        rw [List.filterMap_cons_some hsome, if_pos (List.mem_cons.mpr (.inl hparent.symm))]
        rfl
      · have hsome : Component.ofSegment? segment = some (.normal segment) := by
          rw [Component.ofSegment?, if_neg hskip, if_neg hparent]
        have hne : ¬ parent = segment := fun he => hparent he.symm
        rw [List.filterMap_cons_some hsome, List.filter_cons_of_pos (by simpa using hkeep)]
        simp only [List.mem_cons, hne, false_or]
        exact ih (push root segment)

/-- Without slashes at the start no path is absolute. -/
theorem lead_dropWhile (path : List Char) :
    lead (path.dropWhile (· == '/')) = [] ∨ lead (path.dropWhile (· == '/')) = [.current] := by
  have hhead : (path.dropWhile (· == '/')).head? ≠ some '/' := by
    intro h
    have hnot := List.head?_dropWhile_not (· == '/') path
    rw [h] at hnot
    cases hnot
  rw [lead, if_neg hhead]
  split
  · exact .inr rfl
  · exact .inl rfl

theorem resolve?_eq (root path : List Char) :
    resolve? root path =
      if parent ∈ segments path then none else some ((extensions path).foldl push root) := by
  have hfold : (components (path.dropWhile (· == '/'))).foldlM descend root =
      ((segments path).filterMap Component.ofSegment?).foldlM descend root := by
    rw [components, segments_dropWhile]
    rcases lead_dropWhile path with he | he <;> rw [he] <;> rfl
  rw [resolve?, hfold, foldlM_descend]
  by_cases hparent : parent ∈ segments path
  · rw [if_pos hparent, if_pos hparent]
    rfl
  · rw [if_neg hparent, if_neg hparent, Option.map_some, extensions, List.foldl_append, names]
    split <;> rfl

theorem isName_defaultPage : IsName defaultPage := ⟨by decide, by decide, by decide, by decide⟩

theorem isName_of_mem_extensions {path name : List Char} (hparent : parent ∉ segments path)
    (h : name ∈ extensions path) : IsName name := by
  rcases List.mem_append.mp h with h | h
  · obtain ⟨hmem, hkeep⟩ := List.mem_filter.mp h
    rw [decide_eq_true_eq] at hkeep
    exact ⟨hkeep.1, hkeep.2, fun he => hparent (he ▸ hmem), no_slash_of_mem_segments hmem⟩
  · split at h
    · rw [List.mem_singleton.mp h]
      exact isName_defaultPage
    · cases h

theorem IsName.segments {name : List Char} (h : IsName name) : Target.segments name = [name] :=
  List.splitOn_eq_singleton h.no_slash

theorem IsName.ofSegment? {name : List Char} (h : IsName name) :
    Component.ofSegment? name = some (.normal name) := by
  rw [Component.ofSegment?, if_neg (not_or.mpr ⟨h.ne_nil, h.ne_dot⟩), if_neg h.ne_parent]

theorem IsName.head? {name : List Char} (h : IsName name) : name.head? ≠ some '/' :=
  fun he => h.no_slash (List.mem_of_head? he)

/-- What a path begins with is settled at its first slash. -/
theorem lead_append {front : List Char} (hne : front ≠ []) (back : List Char) :
    lead (front ++ '/' :: back) = lead front := by
  have hsegments : (segments front) ≠ [] := List.splitOn_ne_nil '/' front
  rw [lead, lead, segments_append, List.head?_append, List.head?_append,
    Option.or_of_isSome (List.isSome_head?.mpr hne),
    Option.or_of_isSome (List.isSome_head?.mpr hsegments)]

theorem components_append {front : List Char} (hne : front ≠ []) (back : List Char) :
    components (front ++ '/' :: back) =
      components front ++ (segments back).filterMap Component.ofSegment? := by
  rw [components, components, lead_append hne, segments_append, List.filterMap_append,
    List.append_assoc]

theorem components_slash (back : List Char) :
    components ('/' :: back) = .root :: (segments back).filterMap Component.ofSegment? := by
  rw [components, segments_cons_slash]
  rfl

/-- The path behind the base, with one slash between them if there is anything in front. -/
theorem push_cases (base : List Char) {path : List Char} (h : path.head? ≠ some '/') :
    base = [] ∧ push base path = path ∨
      (∃ front, base = front ++ ['/'] ∧ push base path = front ++ '/' :: path) ∨
      base ≠ [] ∧ push base path = base ++ '/' :: path := by
  rw [push, if_neg h]
  by_cases hempty : base = []
  · exact .inl ⟨hempty, by simp [hempty]⟩
  · by_cases hslash : base.getLast? = some '/'
    · obtain ⟨front, rfl⟩ := List.getLast?_eq_some_iff.mp hslash
      exact .inr (.inl ⟨front, rfl, by simp⟩)
    · exact .inr (.inr ⟨hempty, if_neg (by simp [hempty, hslash])⟩)

theorem base_isPrefix_push (base : List Char) {path : List Char} (h : path.head? ≠ some '/') :
    base <+: push base path := by
  rcases push_cases base h with ⟨rfl, -⟩ | ⟨front, rfl, hpush⟩ | ⟨-, hpush⟩
  · exact List.nil_prefix
  · exact ⟨path, by rw [hpush, List.append_assoc, List.singleton_append]⟩
  · exact ⟨_, hpush.symm⟩

theorem path_isSuffix_push (base : List Char) {path : List Char} (h : path.head? ≠ some '/') :
    path <:+ push base path := by
  rcases push_cases base h with ⟨-, hpush⟩ | ⟨front, -, hpush⟩ | ⟨-, hpush⟩
  · exact ⟨[], hpush.symm⟩
  · exact ⟨front ++ ['/'], by rw [hpush, List.append_assoc, List.singleton_append]⟩
  · exact ⟨base ++ ['/'], by rw [hpush, List.append_assoc, List.singleton_append]⟩

theorem components_push {base name : List Char} (h : IsName name) :
    components (push base name) = components base ++ [.normal name] := by
  have hname : (segments name).filterMap Component.ofSegment? = [.normal name] := by
    rw [h.segments, List.filterMap_cons_some h.ofSegment?]
    rfl
  rcases push_cases base h.head? with ⟨rfl, hpush⟩ | ⟨front, rfl, hpush⟩ | ⟨hempty, hpush⟩
  · have hlead : lead name = [] := by
      rw [lead, if_neg h.head?, h.segments, List.head?_cons,
        if_neg fun he => h.ne_dot (Option.some.inj he)]
    rw [hpush, components, hlead, hname]
    rfl
  · rw [hpush]
    cases front with
    | nil =>
      rw [List.nil_append, List.nil_append, components_slash, components_slash, hname]
      rfl
    | cons c rest =>
      rw [components_append (by simp), components_append (by simp), hname, List.append_assoc]
      rfl
  · rw [hpush, components_append hempty, hname]

theorem components_foldl_push {names : List (List Char)} (h : ∀ name ∈ names, IsName name)
    (base : List Char) :
    components (names.foldl push base) = components base ++ names.map .normal := by
  induction names generalizing base with
  | nil => rw [List.foldl_nil, List.map_nil, List.append_nil]
  | cons name names ih =>
    have hrest := ih (fun other ho => h other (List.mem_cons_of_mem _ ho)) (push base name)
    rw [List.foldl_cons, hrest, components_push (h name List.mem_cons_self), List.map_cons,
      List.append_assoc]
    rfl

theorem base_isPrefix_foldl_push {names : List (List Char)} (h : ∀ name ∈ names, IsName name)
    (base : List Char) : base <+: names.foldl push base := by
  induction names generalizing base with
  | nil => exact List.prefix_rfl
  | cons name names ih =>
    have hname := h name List.mem_cons_self
    exact (base_isPrefix_push base hname.head?).trans
      (ih (fun other ho => h other (List.mem_cons_of_mem _ ho)) (push base name))

end PooledHttp.Target
