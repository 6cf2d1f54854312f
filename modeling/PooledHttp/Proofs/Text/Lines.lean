import Mathlib.Data.List.Basic
import PooledHttp.Clock
import PooledHttp.Text.Utf8

/-! Text that stays on one line, and how such lines are told apart again when they stand one behind
the other, with a line feed or with CR LF at the end of each. -/

namespace PooledHttp

namespace Utf8

theorem encodeChar_low {c : Char} (h : c.toNat < 0x80) :
    String.utf8EncodeChar c = [UInt8.ofNat c.toNat] := by
  rw [String.utf8EncodeChar]
  exact if_pos (Nat.le_of_lt_succ h)

theorem encodeChar_high {c : Char} (h : 0x80 ≤ c.toNat) :
    ∀ b ∈ String.utf8EncodeChar c, 0x80 ≤ b := by
  have hv : ¬ c.val.toNat ≤ 0x7f := Nat.not_le.mpr h
  intro b hb
  rw [UInt8.le_iff_toNat_le]
  simp only [String.utf8EncodeChar, if_neg hv] at hb
  split_ifs at hb <;> simp only [List.mem_cons, List.not_mem_nil, or_false] at hb <;>
    rcases hb with rfl | rfl | rfl | rfl <;> simp <;> omega

/-- An ASCII byte of a text in UTF-8 is a character of the text. -/
theorem mem_of_mem_encode {text : List Char} {c : Char} (hc : c.toNat < 0x80)
    (h : UInt8.ofNat c.toNat ∈ encode text) : c ∈ text := by
  obtain ⟨d, hd, hmem⟩ := List.mem_flatMap.mp h
  have hnat : (UInt8.ofNat c.toNat).toNat = c.toNat := by
    rw [UInt8.toNat_ofNat']
    omega
  have hlow : d.toNat < 0x80 := by
    by_contra hhigh
    have hle := UInt8.le_iff_toNat_le.mp (encodeChar_high (Nat.le_of_not_lt hhigh) _ hmem)
    rw [hnat] at hle
    exact absurd hle (Nat.not_le.mpr hc)
  rw [encodeChar_low hlow, List.mem_singleton, ← UInt8.toNat_inj, hnat, UInt8.toNat_ofNat'] at hmem
  have hsame : c = d := by
    apply Char.toNat_inj.mp
    omega
  rw [hsame]
  exact hd

theorem encode_append (text more : List Char) :
    encode (text ++ more) = encode text ++ encode more := List.flatMap_append

theorem ofString_append (text more : String) :
    ofString (text ++ more) = ofString text ++ ofString more := by
  rw [ofString, String.toList_append, encode_append]
  rfl

end Utf8

/-- Text that can stand on a line. -/
def IsOneLine (text : String) : Prop := ∀ c ∈ text.toList, c ≠ '\n' ∧ c ≠ '\r'

instance : DecidablePred IsOneLine := fun text =>
  List.decidableBAll (fun c => c ≠ '\n' ∧ c ≠ '\r') text.toList

theorem IsOneLine.append {text more : String} (h : IsOneLine text) (hmore : IsOneLine more) :
    IsOneLine (text ++ more) := by
  rw [IsOneLine, String.toList_append]
  exact List.forall_mem_append.mpr ⟨h, hmore⟩

theorem IsOneLine.no_lf {text : String} (h : IsOneLine text) : 10 ∉ Utf8.ofString text :=
  fun hmem => (h '\n' (Utf8.mem_of_mem_encode (c := '\n') (by decide) hmem)).1 rfl

theorem IsOneLine.no_cr {text : String} (h : IsOneLine text) : 13 ∉ Utf8.ofString text :=
  fun hmem => (h '\r' (Utf8.mem_of_mem_encode (c := '\r') (by decide) hmem)).2 rfl

theorem isOneLine_ofList {text : List Char} (h : ∀ c ∈ text, c.isDigit = true ∨ c = '.') :
    IsOneLine (String.ofList text) := by
  rw [IsOneLine, String.toList_ofList]
  intro c hc
  rcases h c hc with hdigit | rfl
  · refine ⟨?_, ?_⟩ <;> rintro rfl <;> cases hdigit
  · exact ⟨nofun, nofun⟩

namespace Decimal

theorem digits_isDigit {n : Nat} {c : Char} (h : c ∈ digits n) : c.isDigit = true :=
  Nat.isDigit_of_mem_toDigits (by decide) (by decide) h

theorem text_oneLine (n : Nat) : IsOneLine (text n) :=
  isOneLine_ofList fun _ hc => .inl (digits_isDigit hc)

theorem padded_isDigit {width n : Nat} {c : Char} (h : c ∈ padded width n) : c.isDigit = true := by
  rw [padded, List.leftpad, List.mem_append, List.mem_replicate] at h
  rcases h with ⟨-, rfl⟩ | h
  · rfl
  · exact digits_isDigit h

end Decimal

theorem Span.text_oneLine (d : Span) : IsOneLine d.text := by
  refine isOneLine_ofList fun c hc => ?_
  rcases List.mem_append.mp hc with hc | hc
  · exact .inl (Decimal.digits_isDigit hc)
  · rcases List.mem_cons.mp hc with rfl | hc
    · exact .inr rfl
    · exact .inl (Decimal.padded_isDigit hc)

/-- Lines come back from the text that they make up, and nothing stands behind the last. -/
theorem splitOn_lines {lines : List Bytes} (h : ∀ line ∈ lines, 10 ∉ line) :
    (lines.flatMap (· ++ [10])).splitOn 10 = lines ++ [[]] := by
  induction lines with
  | nil => exact List.splitOn_nil 10
  | cons line lines ih =>
    obtain ⟨hline, hlines⟩ := List.forall_mem_cons.mp h
    have hsplit : (line ++ 10 :: lines.flatMap (· ++ [10])).splitOn 10 =
        line.splitOn 10 ++ (lines.flatMap (· ++ [10])).splitOn 10 :=
      List.splitOn_append_cons_self line _
    rw [List.flatMap_cons, List.append_assoc, List.singleton_append, hsplit, ih hlines,
      List.splitOn_eq_singleton hline]
    rfl

def crlf : Bytes := [13, 10]

/-- What stands before the first blank line, and what behind it. -/
def cutAtBlankLine : Bytes → Option (Bytes × Bytes)
  | 13 :: 10 :: 13 :: 10 :: body => some ([], body)
  | b :: rest => (cutAtBlankLine rest).map fun (head, body) => (b :: head, body)
  | [] => none

theorem cutAtBlankLine_line {line : Bytes} (h : 13 ∉ line) (rest : Bytes) :
    cutAtBlankLine (line ++ rest) =
      (cutAtBlankLine rest).map fun (head, body) => (line ++ head, body) := by
  induction line with
  | nil => exact Option.map_id'.symm
  | cons b line ih =>
    rw [List.mem_cons, not_or] at h
    rw [List.cons_append, cutAtBlankLine, ih h.2, Option.map_map]
    · rfl
    · rintro body he
      exact absurd he.symm h.1

theorem cutAtBlankLine_crlf {b : UInt8} (h : b ≠ 13) (rest : Bytes) :
    cutAtBlankLine (crlf ++ b :: rest) =
      (cutAtBlankLine (b :: rest)).map fun (head, body) => (crlf ++ head, body) := by
  rw [crlf, List.cons_append, List.singleton_append, cutAtBlankLine, cutAtBlankLine, Option.map_map]
  · rfl
  · rintro body he
    cases he
  · rintro body - he
    cases he
    exact h rfl

/-- The first blank line is the one behind the lines: none of them is empty, and none holds a CR. -/
theorem cutAtBlankLine_lines {lines : List Bytes} (hne : lines ≠ [])
    (h : ∀ line ∈ lines, line ≠ [] ∧ 13 ∉ line) (body : Bytes) :
    cutAtBlankLine (lines.flatMap (· ++ crlf) ++ crlf ++ body) =
      some (crlf.intercalate lines, body) := by
  induction lines with
  | nil => exact absurd rfl hne
  | cons line lines ih =>
    obtain ⟨⟨-, hline⟩, hlines⟩ := List.forall_mem_cons.mp h
    cases lines with
    | nil =>
      rw [List.flatMap_singleton, List.append_assoc, List.append_assoc, cutAtBlankLine_line hline]
      simp [crlf, cutAtBlankLine]
    | cons next lines =>
      have hrest := ih (List.cons_ne_nil _ _) hlines
      obtain ⟨⟨hnext, hcr⟩, -⟩ := List.forall_mem_cons.mp hlines
      obtain ⟨b, more, rfl⟩ := List.exists_cons_of_ne_nil hnext
      have hcut := cutAtBlankLine_crlf (b := b) fun he => hcr (he ▸ List.mem_cons_self)
      rw [List.flatMap_cons, List.append_assoc, List.append_assoc, List.append_assoc,
        cutAtBlankLine_line hline, ← List.append_assoc _ crlf body]
      rw [List.flatMap_cons, List.cons_append, List.cons_append, List.cons_append,
        List.cons_append] at hrest ⊢
      rw [hcut, hrest]
      rfl

end PooledHttp
