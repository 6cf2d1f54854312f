import Mathlib.Data.List.TakeWhile
import PooledHttp.Http.Request

/-! What a request says ends with the blank line after its headers. Text behind that line changes
nothing, unless there was nothing but white space before it. -/

namespace PooledHttp

namespace Blank

def AllBlank (text : List Char) : Prop := ∀ c ∈ text, isBlank c = true

theorem allBlank_nil : AllBlank [] := List.forall_mem_nil _

theorem trim_eq_nil_iff (text : List Char) : trim text = [] ↔ AllBlank text := by
  rw [trim, trimEnd, trimStart, List.reverse_eq_nil_iff, List.dropWhile_eq_nil_iff]
  refine ⟨?_, ?_⟩
  · intro h
    cases hd : text.dropWhile isBlank with
    | nil => exact List.dropWhile_eq_nil_iff.mp hd
    | cons c rest =>
      -- what is left after the leading blanks does not start with one
      have hc : isBlank c = true := h c (by simp [hd])
      have hnot := List.head_dropWhile_not isBlank (l := text) (by simp [hd])
      simp [hd, hc] at hnot
  · intro h c hc
    exact h c ((List.dropWhile_suffix isBlank).mem (List.mem_reverse.mp hc))

theorem AllBlank.splitOnP {text : List Char} (h : AllBlank text) :
    ∀ word ∈ text.splitOnP isBlank, word = [] := by
  induction text with
  | nil => simp
  | cons c text ih =>
    have hc : isBlank c = true := h c List.mem_cons_self
    have htext : AllBlank text := fun d hd => h d (List.mem_cons_of_mem c hd)
    rw [List.splitOnP_cons_eq_if_modifyHead, if_pos hc]
    intro word hw
    rcases List.mem_cons.mp hw with rfl | hw
    · rfl
    · exact ih htext word hw

theorem AllBlank.words {text : List Char} (h : AllBlank text) : words text = [] := by
  rw [Blank.words, List.filter_eq_nil_iff]
  intro word hw
  simp [h.splitOnP word hw]

end Blank

open Blank

theorem isBlankLine_iff (text : List Char) : isBlankLine text = true ↔ AllBlank text := by
  rw [isBlankLine, List.isEmpty_iff, trim_eq_nil_iff]

theorem requestLines_append (front back : List Char) :
    requestLines (front ++ '\n' :: back) = requestLines front ++ requestLines back := by
  have hsplit : (front ++ '\n' :: back).splitOn '\n' = front.splitOn '\n' ++ back.splitOn '\n' :=
    List.splitOnP_append_cons front back (beq_self_eq_true '\n')
  rw [requestLines, hsplit, List.map_append]
  rfl

theorem requestLines_blank {text : List Char} (h : AllBlank text) :
    ∃ first rest, requestLines text = first :: rest ∧ AllBlank first := by
  have hsplit : ∃ first rest, text.splitOn '\n' = first :: rest ∧ AllBlank first := by
    induction text with
    | nil => exact ⟨[], [], List.splitOn_nil '\n', allBlank_nil⟩
    | cons c text ih =>
      have hc : isBlank c = true := h c List.mem_cons_self
      obtain ⟨first, rest, he, hfirst⟩ := ih fun d hd => h d (List.mem_cons_of_mem c hd)
      rw [List.splitOn_eq_splitOnP] at he
      rw [List.splitOn_eq_splitOnP, List.splitOnP_cons_eq_if_modifyHead, he]
      by_cases hmark : (c == '\n') = true
      · exact ⟨[], first :: rest, if_pos hmark, allBlank_nil⟩
      · refine ⟨c :: first, rest, if_neg hmark, ?_⟩
        intro d hd
        rcases List.mem_cons.mp hd with rfl | hd
        · exact hc
        · exact hfirst d hd
  obtain ⟨first, rest, he, hfirst⟩ := hsplit
  refine ⟨_, _, by rw [requestLines, he, List.map_cons], ?_⟩
  intro c hc
  have hmem : c ∈ first.reverse := (List.dropWhile_suffix _).mem (List.mem_reverse.mp hc)
  exact hfirst c (List.mem_reverse.mp hmem)

theorem takeWhile_append_stop {β : Type} {p : β → Bool} (front back : List β) {stop : β}
    (hs : p stop = false) : (front ++ stop :: back).takeWhile p = front.takeWhile p := by
  induction front with
  | nil => simp [hs]
  | cons x front ih =>
    rw [List.cons_append, List.takeWhile_cons, List.takeWhile_cons, ih]

namespace Request

/-- A blank line: nothing, or a carriage return. -/
def IsBare (line : List Char) : Prop := line = [] ∨ line = ['\r']

theorem IsBare.allBlank {line : List Char} (h : IsBare line) : AllBlank line := by
  rcases h with rfl | rfl
  · exact allBlank_nil
  · intro c hc
    rw [List.mem_singleton.mp hc]
    decide

theorem IsBare.requestLines {line : List Char} (h : IsBare line) : requestLines line = [[]] := by
  rcases h with rfl | rfl <;> decide

variable {front line back : List Char}

theorem requestLines_past (hl : IsBare line) :
    requestLines (front ++ '\n' :: (line ++ '\n' :: back)) =
      requestLines front ++ [] :: requestLines back := by
  rw [requestLines_append, requestLines_append, hl.requestLines, List.singleton_append]

theorem allBlank_past_iff (hl : IsBare line) :
    AllBlank (front ++ '\n' :: (line ++ '\n' :: back)) ↔ AllBlank front ∧ AllBlank back := by
  refine ⟨?_, ?_⟩
  · intro h
    exact ⟨fun c hc => h c (by simp [hc]), fun c hc => h c (by simp [hc])⟩
  · rintro ⟨hf, hb⟩ c hc
    have hnl : isBlank '\n' = true := by decide
    simp only [List.mem_append, List.mem_cons] at hc
    rcases hc with hc | rfl | hc | rfl | hc
    · exact hf c hc
    · exact hnl
    · exact hl.allBlank c hc
    · exact hnl
    · exact hb c hc

theorem ofText_blank {text : List Char} (h : AllBlank text) : ofText text = .error .empty := by
  rw [ofText, if_pos ((isBlankLine_iff text).mpr h)]

/-- The first line of blank text has no words, so it is no request line. -/
theorem ofText_blank_front (hl : IsBare line) (hf : AllBlank front) (hb : ¬ AllBlank back) :
    ofText (front ++ '\n' :: (line ++ '\n' :: back)) = .error .requestLine := by
  have hsome : ¬ isBlankLine (front ++ '\n' :: (line ++ '\n' :: back)) = true := by
    rw [isBlankLine_iff, allBlank_past_iff hl]
    exact fun h => hb h.2
  obtain ⟨first, rest, he, hfirst⟩ := requestLines_blank hf
  have hread : RequestLine.read first = .error .requestLine := by
    rw [RequestLine.read, hfirst.words]
  rw [ofText, if_neg hsome, requestLines_past hl, he]
  simp only [List.cons_append, hread]

/-- Behind the first blank line nothing is read. -/
theorem ofText_past (hl : IsBare line) (hf : ¬ AllBlank front) :
    ofText (front ++ '\n' :: (line ++ '\n' :: back)) =
      ofText (front ++ '\n' :: (line ++ '\n' :: [])) := by
  have hsome : ∀ back, ¬ isBlankLine (front ++ '\n' :: (line ++ '\n' :: back)) = true := by
    intro back
    rw [isBlankLine_iff, allBlank_past_iff hl]
    exact fun h => hf h.1
  have hstop : ∀ (rest : List (List Char)) (back : List Char),
      (rest ++ [] :: requestLines back).takeWhile (fun l => !isBlankLine l) =
        rest.takeWhile fun l => !isBlankLine l :=
    fun rest back => takeWhile_append_stop rest (requestLines back) (by decide)
  rw [ofText, ofText, if_neg (hsome back), if_neg (hsome []), requestLines_past hl,
    requestLines_past hl]
  cases hlines : requestLines front with
  | nil => exact absurd hlines (by simp [requestLines, List.splitOn_ne_nil])
  | cons first rest =>
    simp only [List.cons_append, hstop]

end Request

end PooledHttp
