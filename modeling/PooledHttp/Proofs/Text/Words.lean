import PooledHttp.Proofs.Request.Headers

/-! What words, trimmed text and the two sides of a mark are, said of the text as a whole, and that they
are what the functions find. -/

namespace PooledHttp

theorem head?_dropWhile {α : Type} {p : α → Bool} (xs : List α) :
    ∀ x ∈ (xs.dropWhile p).head?, p x = false := by
  intro x hx
  have hnot := List.head?_dropWhile_not p xs
  rw [Option.mem_def.mp hx] at hnot
  simpa using hnot

theorem dropWhile_append_stop {α : Type} {p : α → Bool} {front rest : List α}
    (hfront : ∀ x ∈ front, p x = true) (hrest : ∀ x ∈ rest.head?, p x = false) :
    (front ++ rest).dropWhile p = rest := by
  rw [List.dropWhile_append_of_pos hfront]
  cases rest with
  | nil => rfl
  | cons x rest => exact List.dropWhile_cons_of_neg (by simp [hrest x rfl])

theorem dropEnd_append {α : Type} {p : α → Bool} {xs back : List α}
    (hback : ∀ x ∈ back, p x = true) (hlast : ∀ x ∈ xs.getLast?, p x = false) :
    ((xs ++ back).reverse.dropWhile p).reverse = xs := by
  have hrev : ∀ x ∈ back.reverse, p x = true := fun x hx => hback x (List.mem_reverse.mp hx)
  rw [← List.head?_reverse] at hlast
  rw [List.reverse_append, dropWhile_append_stop hrev hlast, List.reverse_reverse]

theorem exists_dropEnd {α : Type} (p : α → Bool) (xs : List α) :
    ∃ back, xs = (xs.reverse.dropWhile p).reverse ++ back ∧ (∀ x ∈ back, p x = true) ∧
      ∀ x ∈ (xs.reverse.dropWhile p).reverse.getLast?, p x = false := by
  refine ⟨(xs.reverse.takeWhile p).reverse, ?_, ?_, ?_⟩
  · rw [← List.reverse_append, List.takeWhile_append_dropWhile, List.reverse_reverse]
  · exact fun x hx => List.mem_takeWhile_imp (List.mem_reverse.mp hx)
  · rw [List.getLast?_reverse]
    exact head?_dropWhile xs.reverse

namespace Blank

/-- The words of a text, each a longest run of characters that are not blank. -/
inductive Words : List Char → List (List Char) → Prop
  | none {text : List Char} (h : AllBlank text) : Words text []
  | word {front word rest : List Char} {words : List (List Char)} (hfront : AllBlank front)
    (hne : word ≠ []) (hword : ∀ c ∈ word, isBlank c = false)
    (hlongest : ∀ c ∈ rest.head?, isBlank c = true) (hrest : Words rest words) :
    Words (front ++ word ++ rest) (word :: words)

theorem noBlank_of_all {text : List Char} (h : text.all (fun c => !isBlank c) = true) :
    ∀ c ∈ text, isBlank c = false := by
  simpa using h

theorem words_cons_blank {c : Char} (h : isBlank c = true) (rest : List Char) :
    words (c :: rest) = words rest := by
  rw [words, List.splitOnP_cons_eq_if_modifyHead, if_pos h, List.filter_cons, if_neg (by simp)]
  rfl

theorem words_blank_append {front : List Char} (h : AllBlank front) (rest : List Char) :
    words (front ++ rest) = words rest := by
  induction front with
  | nil => rfl
  | cons c front ih =>
    rw [List.cons_append, words_cons_blank (h c List.mem_cons_self)]
    exact ih fun d hd => h d (List.mem_cons_of_mem c hd)

theorem words_word {word rest : List Char} (hne : word ≠ [])
    (hword : ∀ c ∈ word, isBlank c = false) (hlongest : ∀ c ∈ rest.head?, isBlank c = true) :
    words (word ++ rest) = word :: words rest := by
  have hkept : (!word.isEmpty) = true := by simpa using hne
  have hsingle : word.splitOnP isBlank = [word] :=
    List.splitOnP_eq_singleton fun c hc => by simp [hword c hc]
  cases rest with
  | nil =>
    rw [List.append_nil, words, hsingle, List.filter_cons, if_pos hkept]
    rfl
  | cons c rest =>
    have hc : isBlank c = true := hlongest c rfl
    rw [words_cons_blank hc, words, List.splitOnP_append_cons word rest hc, hsingle,
      List.singleton_append, List.filter_cons, if_pos hkept]
    rfl

theorem Words.words_eq {text : List Char} {ws : List (List Char)} (h : Words text ws) :
    words text = ws := by
  induction h with
  | none h => exact h.words
  | word hfront hne hword hlongest hrest ih =>
    rw [List.append_assoc, words_blank_append hfront, words_word hne hword hlongest, ih]

theorem exists_words (text : List Char) : ∃ ws, Words text ws := by
  have hfront : AllBlank (text.takeWhile isBlank) := fun c hc => List.mem_takeWhile_imp hc
  cases hrest : text.dropWhile isBlank with
  | nil => exact ⟨[], .none (List.dropWhile_eq_nil_iff.mp hrest)⟩
  | cons c rest =>
    have hc : isBlank c = false := head?_dropWhile text c (by rw [hrest]; rfl)
    have hle : (c :: rest).length ≤ text.length :=
      hrest ▸ (List.dropWhile_suffix isBlank).length_le
    have hless : (rest.dropWhile (!isBlank ·)).length < text.length :=
      Nat.lt_of_le_of_lt (List.dropWhile_suffix _).length_le hle
    obtain ⟨ws, hws⟩ := exists_words (rest.dropWhile (!isBlank ·))
    have hword : ∀ d ∈ c :: rest.takeWhile (!isBlank ·), isBlank d = false := by
      intro d hd
      rcases List.mem_cons.mp hd with rfl | hd
      · exact hc
      · simpa using List.mem_takeWhile_imp hd
    have hlongest : ∀ d ∈ (rest.dropWhile (!isBlank ·)).head?, isBlank d = true :=
      fun d hd => by simpa using head?_dropWhile rest d hd
    have htext : text.takeWhile isBlank ++ (c :: rest.takeWhile (!isBlank ·)) ++
        rest.dropWhile (!isBlank ·) = text := by
      rw [List.append_assoc, List.cons_append, List.takeWhile_append_dropWhile, ← hrest,
        List.takeWhile_append_dropWhile]
    refine ⟨(c :: rest.takeWhile (!isBlank ·)) :: ws, ?_⟩
    rw [← htext]
    exact .word hfront (List.cons_ne_nil _ _) hword hlongest hws
termination_by text.length

theorem words_eq_iff {text : List Char} {ws : List (List Char)} :
    words text = ws ↔ Words text ws := by
  constructor
  · rintro rfl
    obtain ⟨ws, h⟩ := exists_words text
    rwa [h.words_eq]
  · exact Words.words_eq

/-- What is left of a text without the blanks at its two ends. -/
def Trims (text trimmed : List Char) : Prop :=
  ∃ front back, text = front ++ trimmed ++ back ∧ AllBlank front ∧ AllBlank back ∧
    (∀ c ∈ trimmed.head?, isBlank c = false) ∧ ∀ c ∈ trimmed.getLast?, isBlank c = false

theorem trim_eq_iff {text trimmed : List Char} : trim text = trimmed ↔ Trims text trimmed := by
  constructor
  · rintro rfl
    obtain ⟨back, htext, hback, hlast⟩ := exists_dropEnd isBlank (trimStart text)
    refine ⟨text.takeWhile isBlank, back, ?_, ?_, hback, ?_, hlast⟩
    · rw [List.append_assoc, trim, trimEnd, ← htext, trimStart, List.takeWhile_append_dropWhile]
    · exact fun c hc => List.mem_takeWhile_imp hc
    · intro c hc
      have hhead : c ∈ (trimStart text).head? := by
        have htrim : ((trimStart text).reverse.dropWhile isBlank).reverse.head? = some c := hc
        rw [htext, List.head?_append, htrim]
        rfl
      exact head?_dropWhile text c hhead
  · rintro ⟨front, back, rfl, hfront, hback, hhead, hlast⟩
    cases trimmed with
    | nil =>
      rw [trim_eq_nil_iff, List.append_nil]
      exact List.forall_mem_append.mpr ⟨hfront, hback⟩
    | cons c trimmed =>
      have hstart : trimStart (front ++ (c :: trimmed ++ back)) = c :: trimmed ++ back :=
        dropWhile_append_stop hfront hhead
      rw [List.append_assoc, trim, hstart, trimEnd, dropEnd_append hback hlast]

end Blank

theorem cutAt?_eq_some_iff {mark : Char} {text before after : List Char} :
    cutAt? mark text = some (before, after) ↔ text = before ++ mark :: after ∧ mark ∉ before := by
  constructor
  · intro h
    rw [cutAt?] at h
    split at h
    · next hmem =>
      cases h
      have hmark : ∃ rest, text.dropWhile (· != mark) = mark :: rest := by
        cases hrest : text.dropWhile (· != mark) with
        | nil => exact absurd (List.dropWhile_eq_nil_iff.mp hrest mark hmem) (by simp)
        | cons c rest =>
          have hc : (c != mark) = false := head?_dropWhile text c (by rw [hrest]; rfl)
          exact ⟨rest, by rw [bne_eq_false_iff_eq.mp hc]⟩
      obtain ⟨rest, hrest⟩ := hmark
      refine ⟨?_, fun h => absurd (List.mem_takeWhile_imp h) (by simp)⟩
      rw [hrest, List.drop_one, List.tail_cons, ← hrest, List.takeWhile_append_dropWhile]
    · cases h
  · rintro ⟨rfl, hnot⟩
    have hbefore : ∀ c ∈ before, (c != mark) = true := by
      intro c hc
      rw [bne_iff_ne]
      rintro rfl
      exact hnot hc
    rw [cutAt?, if_pos (by simp), List.takeWhile_append_of_pos hbefore,
      List.dropWhile_append_of_pos hbefore]
    simp

theorem cutAt?_eq_none_iff {mark : Char} {text : List Char} :
    cutAt? mark text = none ↔ mark ∉ text := by
  rw [cutAt?]
  split
  · next hmem => exact iff_of_false nofun (not_not.mpr hmem)
  · next hnot => exact iff_of_true rfl hnot

end PooledHttp
