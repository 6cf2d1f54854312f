import PooledHttp.Proofs.Text.Lines
import PooledHttp.Proofs.Text.Utf8

/-! UTF-8 written and read. The scan finds a character just where the bytes of one stand. So the
strict reading undoes the writing and accepts nothing else, and the forgiving reading leaves
well-formed text as it is. -/

namespace PooledHttp.Utf8

/-- The bytes that are still owed, and the character that they complete. -/
inductive Partial.Completes : Partial → Bytes → Char → Prop
  | last {p : Partial} {b : UInt8} (howed : p.owed ≤ 1) (hin : p.low ≤ b ∧ b ≤ p.high) :
    Completes p [b] (Char.ofNat (p.value * 64 + b.toNat % 64))
  | next {p : Partial} {b : UInt8} {tail : Bytes} {c : Char} (howed : ¬ p.owed ≤ 1)
    (hin : p.low ≤ b ∧ b ≤ p.high)
    (h : Completes ⟨p.owed - 1, 0x80, 0xBF, p.value * 64 + b.toNat % 64⟩ tail c) :
    Completes p (b :: tail) c

theorem Partial.Completes.scanFrom {p : Partial} {tail : Bytes} {c : Char}
    (h : p.Completes tail c) (rest : Bytes) :
    Utf8.scanFrom (some p) (tail ++ rest) = some c :: scan rest := by
  induction h with
  | last howed hin =>
    simp only [List.singleton_append, Utf8.scanFrom, step, if_pos hin, if_pos howed, scan]
  | next howed hin h ih =>
    simp only [List.cons_append, Utf8.scanFrom, step, if_pos hin, if_neg howed]
    exact ih

theorem mapM_some (c : Char) (chars : List (Option Char)) :
    (some c :: chars).mapM id = (chars.mapM id).map (c :: ·) := by
  rw [List.mapM_cons]
  cases chars.mapM id <;> rfl

theorem mapM_none (chars : List (Option Char)) : (none :: chars).mapM id = none := by
  rw [List.mapM_cons]
  rfl

theorem completes_of_scanFrom {p : Partial} {bytes : Bytes} {text : List Char}
    (h : (scanFrom (some p) bytes).mapM id = some text) :
    ∃ tail rest c more, bytes = tail ++ rest ∧ text = c :: more ∧ p.Completes tail c ∧
      decode? rest = some more := by
  induction bytes generalizing p with
  | nil => cases h
  | cons b bytes ih =>
    by_cases hin : p.low ≤ b ∧ b ≤ p.high
    · by_cases howed : p.owed ≤ 1
      · simp only [scanFrom, step, if_pos hin, if_pos howed, List.singleton_append, mapM_some] at h
        obtain ⟨more, hmore, rfl⟩ := Option.map_eq_some_iff.mp h
        exact ⟨[b], bytes, _, more, rfl, rfl, .last howed hin, hmore⟩
      · simp only [scanFrom, step, if_pos hin, if_neg howed, List.nil_append] at h
        obtain ⟨tail, rest, c, more, rfl, rfl, htail, hrest⟩ := ih h
        exact ⟨b :: tail, rest, c, more, rfl, rfl, .next howed hin htail, hrest⟩
    · simp only [scanFrom, step, if_neg hin, List.cons_append, mapM_none] at h
      cases h

/-- What a first byte with the bits `n` leaves owed, by the number of bytes that follow it. -/
def lead (owed n : Nat) : Partial :=
  match owed with
  | 1 => ⟨1, 0x80, 0xBF, n⟩
  | 2 => ⟨2, if n = 0 then 0xA0 else 0x80, if n = 13 then 0x9F else 0xBF, n⟩
  | _ => ⟨3, if n = 0 then 0x90 else 0x80, if n = 4 then 0x8F else 0xBF, n⟩

theorem lead?_two : ∀ n < 32, 2 ≤ n → lead? (UInt8.ofNat (0xC0 + n)) = some (lead 1 n) := by decide

theorem lead?_three : ∀ n < 16, lead? (UInt8.ofNat (0xE0 + n)) = some (lead 2 n) := by decide

theorem lead?_four : ∀ n < 5, lead? (UInt8.ofNat (0xF0 + n)) = some (lead 3 n) := by decide

theorem lead?_range : ∀ n < 256, lead? (UInt8.ofNat n) = none ∨
    (0xC2 ≤ n ∧ n < 0xE0) ∨ (0xE0 ≤ n ∧ n < 0xF0) ∨ (0xF0 ≤ n ∧ n < 0xF5) := by decide +kernel

theorem lead?_cases {b : UInt8} {p : Partial} (h : lead? b = some p) :
    (∃ n < 32, 2 ≤ n ∧ b = UInt8.ofNat (0xC0 + n) ∧ p = lead 1 n) ∨
    (∃ n < 16, b = UInt8.ofNat (0xE0 + n) ∧ p = lead 2 n) ∨
    ∃ n < 5, b = UInt8.ofNat (0xF0 + n) ∧ p = lead 3 n := by
  have hb : b = UInt8.ofNat b.toNat := b.ofNat_toNat.symm
  have hbits : ∀ base ≤ b.toNat, b = UInt8.ofNat (base + (b.toNat - base)) := by
    intro base hle
    rw [Nat.add_sub_cancel' hle]
    exact hb
  rcases lead?_range b.toNat b.toNat_lt_size with
    hnone | ⟨hlow, hhigh⟩ | ⟨hlow, hhigh⟩ | ⟨hlow, hhigh⟩
  · rw [← hb, h] at hnone
    cases hnone
  · have he := hbits 0xC0 (by omega)
    have hlead := lead?_two (b.toNat - 0xC0) (by omega) (by omega)
    rw [← he, h, Option.some.injEq] at hlead
    exact .inl ⟨_, by omega, by omega, he, hlead⟩
  · have he := hbits _ hlow
    have hlead := lead?_three (b.toNat - 0xE0) (by omega)
    rw [← he, h, Option.some.injEq] at hlead
    exact .inr (.inl ⟨_, by omega, he, hlead⟩)
  · have he := hbits _ hlow
    have hlead := lead?_four (b.toNat - 0xF0) (by omega)
    rw [← he, h, Option.some.injEq] at hlead
    exact .inr (.inr ⟨_, by omega, he, hlead⟩)

/-! Each character has one written form: a first byte, and bytes that complete it. -/

theorem toNat_tail {m : Nat} (hm : m < 64) : (UInt8.ofNat (m + 128)).toNat = m + 128 := by
  rw [UInt8.toNat_ofNat']
  omega

/-- A byte behind the first carries six bits. -/
def Carries (low high : UInt8) (m : Nat) : Prop :=
  m < 64 ∧ low.toNat ≤ m + 128 ∧ m + 128 ≤ high.toNat

theorem Carries.within {low high : UInt8} {m : Nat} (h : Carries low high m) :
    low ≤ UInt8.ofNat (m + 128) ∧ UInt8.ofNat (m + 128) ≤ high := by
  rw [UInt8.le_iff_toNat_le, UInt8.le_iff_toNat_le, toNat_tail h.1]
  exact h.2

theorem Carries.bits {low high : UInt8} {m : Nat} (h : Carries low high m) :
    (UInt8.ofNat (m + 128)).toNat % 64 = m := by
  have hm := h.1
  rw [toNat_tail hm]
  omega

theorem exists_carries {low high b : UInt8} (hlow : 0x80 ≤ low) (hhigh : high ≤ 0xBF)
    (hin : low ≤ b ∧ b ≤ high) : ∃ m, Carries low high m ∧ b = UInt8.ofNat (m + 128) := by
  simp only [UInt8.le_iff_toNat_le, UInt8.reduceToNat] at hlow hhigh hin
  have hb : b.toNat - 128 + 128 = b.toNat := by omega
  refine ⟨b.toNat - 128, ⟨?_, ?_, ?_⟩, ?_⟩
  · omega
  · omega
  · omega
  · rw [hb, UInt8.ofNat_toNat]

section Completes

variable {low high : UInt8} {owed n : Nat} {tail : Bytes} {c : Char}

theorem completes_last {m : Nat} (h : Carries low high m) :
    (⟨1, low, high, n⟩ : Partial).Completes [UInt8.ofNat (m + 128)] (Char.ofNat (n * 64 + m)) := by
  have hc := Partial.Completes.last (p := ⟨1, low, high, n⟩) (Nat.le_refl 1) h.within
  rwa [h.bits] at hc

theorem completes_next {m : Nat} (h : Carries low high m)
    (hc : (⟨owed + 1, 0x80, 0xBF, n * 64 + m⟩ : Partial).Completes tail c) :
    (⟨owed + 2, low, high, n⟩ : Partial).Completes (UInt8.ofNat (m + 128) :: tail) c := by
  refine .next (by simp) h.within ?_
  rw [h.bits]
  exact hc

theorem completes_last_cases (hlow : 0x80 ≤ low) (hhigh : high ≤ 0xBF)
    (h : (⟨1, low, high, n⟩ : Partial).Completes tail c) :
    ∃ m, Carries low high m ∧ tail = [UInt8.ofNat (m + 128)] ∧ c = Char.ofNat (n * 64 + m) := by
  cases h with
  | last howed hin =>
    obtain ⟨m, hm, rfl⟩ := exists_carries hlow hhigh hin
    exact ⟨m, hm, rfl, by rw [hm.bits]⟩
  | next howed hin h => exact absurd (Nat.le_refl 1) howed

theorem completes_next_cases (hlow : 0x80 ≤ low) (hhigh : high ≤ 0xBF)
    (h : (⟨owed + 2, low, high, n⟩ : Partial).Completes tail c) :
    ∃ m rest, Carries low high m ∧ tail = UInt8.ofNat (m + 128) :: rest ∧
      (⟨owed + 1, 0x80, 0xBF, n * 64 + m⟩ : Partial).Completes rest c := by
  cases h with
  | last howed hin => exact absurd howed (by simp)
  | next howed hin h =>
    obtain ⟨m, hm, rfl⟩ := exists_carries hlow hhigh hin
    rw [hm.bits] at h
    exact ⟨m, _, hm, rfl, h⟩

end Completes

theorem encodeChar_two {c : Char} (hlow : 0x80 ≤ c.toNat) (hhigh : c.toNat < 0x800) :
    String.utf8EncodeChar c =
      [UInt8.ofNat (0xC0 + c.toNat / 64), UInt8.ofNat (c.toNat % 64 + 128)] := by
  have hfirst : c.val.toNat / 64 % 32 + 192 = 0xC0 + c.toNat / 64 := by
    change c.toNat / 64 % 32 + 192 = _
    omega
  rw [String.utf8EncodeChar]
  simp only [if_neg (Nat.not_le.mpr hlow : ¬ c.val.toNat ≤ 127),
    if_pos (Nat.le_of_lt_succ hhigh : c.val.toNat ≤ 2047), hfirst]
  rfl

theorem encodeChar_three {c : Char} (hlow : 0x800 ≤ c.toNat) (hhigh : c.toNat < 0x10000) :
    String.utf8EncodeChar c =
      [UInt8.ofNat (0xE0 + c.toNat / 4096), UInt8.ofNat (c.toNat / 64 % 64 + 128),
        UInt8.ofNat (c.toNat % 64 + 128)] := by
  have hfirst : c.val.toNat / 4096 % 16 + 224 = 0xE0 + c.toNat / 4096 := by
    change c.toNat / 4096 % 16 + 224 = _
    omega
  have hfar : ¬ c.val.toNat ≤ 127 := by
    change ¬ c.toNat ≤ 127
    omega
  rw [String.utf8EncodeChar]
  simp only [if_neg hfar, if_neg (Nat.not_le.mpr hlow : ¬ c.val.toNat ≤ 2047),
    if_pos (Nat.le_of_lt_succ hhigh : c.val.toNat ≤ 65535), hfirst]
  rfl

theorem encodeChar_four {c : Char} (hlow : 0x10000 ≤ c.toNat) :
    String.utf8EncodeChar c =
      [UInt8.ofNat (0xF0 + c.toNat / 262144), UInt8.ofNat (c.toNat / 4096 % 64 + 128),
        UInt8.ofNat (c.toNat / 64 % 64 + 128), UInt8.ofNat (c.toNat % 64 + 128)] := by
  have hvalid : c.toNat.isValidChar := c.valid
  have hfirst : c.val.toNat / 262144 % 8 + 240 = 0xF0 + c.toNat / 262144 := by
    change c.toNat / 262144 % 8 + 240 = _
    omega
  have hfar : ¬ c.val.toNat ≤ 127 ∧ ¬ c.val.toNat ≤ 2047 := by
    change ¬ c.toNat ≤ 127 ∧ ¬ c.toNat ≤ 2047
    omega
  rw [String.utf8EncodeChar]
  simp only [if_neg hfar.1, if_neg hfar.2, if_neg (Nat.not_le.mpr hlow : ¬ c.val.toNat ≤ 65535),
    hfirst]
  rfl

theorem toNat_ofNat {n : Nat} (h : n.isValidChar) : (Char.ofNat n).toNat = n := by
  rw [Char.ofNat, dif_pos h]
  rfl

/-- No character takes more bytes than it needs, and none is a surrogate or above the last. -/
theorem carries_lead_two {n m : Nat} :
    Carries (lead 2 n).low (lead 2 n).high m ↔ m < 64 ∧ (n = 0 → 32 ≤ m) ∧ (n = 13 → m < 32) := by
  simp only [Carries, lead]
  split_ifs <;> simp <;> omega

theorem carries_lead_three {n m : Nat} :
    Carries (lead 3 n).low (lead 3 n).high m ↔ m < 64 ∧ (n = 0 → 16 ≤ m) ∧ (n = 4 → m < 16) := by
  simp only [Carries, lead]
  split_ifs <;> simp <;> omega

theorem carries_tail {m : Nat} (hm : m < 64) : Carries 0x80 0xBF m := by
  refine ⟨hm, ?_, ?_⟩
  · exact Nat.le_add_left 128 m
  · change m + 128 ≤ 191
    omega

theorem lead_bounds (n : Nat) :
    (0x80 ≤ (lead 2 n).low ∧ (lead 2 n).high ≤ 0xBF) ∧
      0x80 ≤ (lead 3 n).low ∧ (lead 3 n).high ≤ 0xBF := by
  simp only [lead]
  split_ifs <;> simp

theorem encodeChar_completes {c : Char} (h : 0x80 ≤ c.toNat) :
    ∃ b p tail, String.utf8EncodeChar c = b :: tail ∧ lead? b = some p ∧ p.Completes tail c := by
  have hvalid : c.toNat.isValidChar := c.valid
  have hlast := @completes_last 0x80 0xBF
  by_cases htwo : c.toNat < 0x800
  · have hc := @hlast (c.toNat / 64) _ (carries_tail (m := c.toNat % 64) (by omega))
    rw [Nat.div_add_mod', Char.ofNat_toNat] at hc
    exact ⟨_, _, _, encodeChar_two h htwo, lead?_two _ (by omega) (by omega), hc⟩
  · by_cases hthree : c.toNat < 0x10000
    · have hvalue : (c.toNat / 4096 * 64 + c.toNat / 64 % 64) * 64 + c.toNat % 64 = c.toNat := by
        omega
      have hc := @hlast (c.toNat / 4096 * 64 + c.toNat / 64 % 64) _
        (carries_tail (m := c.toNat % 64) (by omega))
      rw [hvalue, Char.ofNat_toNat] at hc
      refine ⟨_, _, _, encodeChar_three (by omega) hthree, lead?_three _ (by omega),
        completes_next (carries_lead_two.mpr ?_) hc⟩
      omega
    · have hvalue : ((c.toNat / 262144 * 64 + c.toNat / 4096 % 64) * 64 + c.toNat / 64 % 64) * 64 +
          c.toNat % 64 = c.toNat := by
        omega
      have hc := @hlast ((c.toNat / 262144 * 64 + c.toNat / 4096 % 64) * 64 + c.toNat / 64 % 64) _
        (carries_tail (m := c.toNat % 64) (by omega))
      rw [hvalue, Char.ofNat_toNat] at hc
      refine ⟨_, _, _, encodeChar_four (by omega), lead?_four _ (by omega),
        completes_next (carries_lead_three.mpr ?_) (completes_next (carries_tail ?_) hc)⟩ <;> omega

theorem Partial.Completes.encodeChar {b : UInt8} {p : Partial} {tail : Bytes} {c : Char}
    (hlead : lead? b = some p) (h : p.Completes tail c) : String.utf8EncodeChar c = b :: tail := by
  rcases lead?_cases hlead with ⟨n, hn, hlow, rfl, rfl⟩ | ⟨n, hn, rfl, rfl⟩ | ⟨n, hn, rfl, rfl⟩
  · obtain ⟨m, ⟨hm, -⟩, rfl, rfl⟩ := completes_last_cases (by decide) (by decide) h
    have hc : (Char.ofNat (n * 64 + m)).toNat = n * 64 + m := toNat_ofNat (by omega)
    have hfirst : (n * 64 + m) / 64 = n := by omega
    have hsecond : (n * 64 + m) % 64 = m := by omega
    rw [encodeChar_two (by omega) (by omega), hc, hfirst, hsecond]
  · obtain ⟨⟨hlow, hhigh⟩, -⟩ := lead_bounds n
    obtain ⟨m, rest, hm, rfl, hrest⟩ := completes_next_cases hlow hhigh h
    obtain ⟨k, ⟨hk, -⟩, rfl, rfl⟩ := completes_last_cases (by decide) (by decide) hrest
    have hm := carries_lead_two.mp hm
    have hc : (Char.ofNat ((n * 64 + m) * 64 + k)).toNat = (n * 64 + m) * 64 + k :=
      toNat_ofNat (by simp only [Nat.isValidChar]; omega)
    have hfirst : ((n * 64 + m) * 64 + k) / 4096 = n := by omega
    have hsecond : ((n * 64 + m) * 64 + k) / 64 % 64 = m := by omega
    have hthird : ((n * 64 + m) * 64 + k) % 64 = k := by omega
    rw [encodeChar_three (by omega) (by omega), hc, hfirst, hsecond, hthird]
  · obtain ⟨-, hlow, hhigh⟩ := lead_bounds n
    obtain ⟨m, rest, hm, rfl, hrest⟩ := completes_next_cases hlow hhigh h
    obtain ⟨k, last, ⟨hk, -⟩, rfl, hlast⟩ := completes_next_cases (by decide) (by decide) hrest
    obtain ⟨l, ⟨hl, -⟩, rfl, rfl⟩ := completes_last_cases (by decide) (by decide) hlast
    have hm := carries_lead_three.mp hm
    have hc : (Char.ofNat (((n * 64 + m) * 64 + k) * 64 + l)).toNat =
        ((n * 64 + m) * 64 + k) * 64 + l :=
      toNat_ofNat (by simp only [Nat.isValidChar]; omega)
    have hfirst : (((n * 64 + m) * 64 + k) * 64 + l) / 262144 = n := by omega
    have hsecond : (((n * 64 + m) * 64 + k) * 64 + l) / 4096 % 64 = m := by omega
    have hthird : (((n * 64 + m) * 64 + k) * 64 + l) / 64 % 64 = k := by omega
    have hfourth : (((n * 64 + m) * 64 + k) * 64 + l) % 64 = l := by omega
    rw [encodeChar_four (by omega), hc, hfirst, hsecond, hthird, hfourth]

theorem start_lead {b : UInt8} {p : Partial} (h : lead? b = some p) : start b = ([], some p) := by
  have hhigh : ¬ b < 0x80 := by
    rcases lead?_cases h with ⟨n, hn, -, rfl, -⟩ | ⟨n, hn, rfl, -⟩ | ⟨n, hn, rfl, -⟩ <;>
      rw [UInt8.lt_iff_toNat_lt, UInt8.toNat_ofNat'] <;> simp <;> omega
  rw [start, if_neg hhigh, h]

/-! Whole texts. -/

theorem scan_encodeChar (c : Char) (rest : Bytes) :
    scan (String.utf8EncodeChar c ++ rest) = some c :: scan rest := by
  by_cases hlow : c.toNat < 0x80
  · have hbyte : (UInt8.ofNat c.toNat).toNat = c.toNat := by
      rw [UInt8.toNat_ofNat']
      omega
    have hascii : UInt8.ofNat c.toNat < 0x80 := by
      rw [UInt8.lt_iff_toNat_lt, hbyte]
      exact hlow
    have hscan := scan_ascii hascii [] rest
    rw [hbyte, Char.ofNat_toNat] at hscan
    rw [encodeChar_low hlow]
    exact hscan
  · obtain ⟨b, p, tail, he, hlead, hc⟩ := encodeChar_completes (Nat.le_of_not_lt hlow)
    have hrest := hc.scanFrom rest
    rw [he, scan, List.cons_append, scanFrom, step, start_lead hlead]
    exact hrest

theorem scan_encode (text : List Char) : scan (encode text) = text.map some := by
  induction text with
  | nil => rfl
  | cons c text ih =>
    change scan (String.utf8EncodeChar c ++ encode text) = some c :: text.map some
    rw [scan_encodeChar, ih]

theorem decodeLossy_encode (text : List Char) : decodeLossy (encode text) = text := by
  rw [decodeLossy, scan_encode, List.map_map]
  exact List.map_id _

theorem decode?_encode (text : List Char) : decode? (encode text) = some text := by
  rw [decode?, scan_encode]
  induction text with
  | nil => rfl
  | cons c text ih => rw [List.map_cons, mapM_some, ih, Option.map_some]

theorem encode_of_decode? {bytes : Bytes} {text : List Char} (h : decode? bytes = some text) :
    encode text = bytes := by
  match bytes with
  | [] =>
    cases h
    rfl
  | b :: bytes =>
    rw [decode?, scan, scanFrom, step, start] at h
    by_cases hascii : b < 0x80
    · rw [if_pos hascii] at h
      simp only [List.singleton_append, mapM_some] at h
      obtain ⟨more, hmore, rfl⟩ := Option.map_eq_some_iff.mp h
      have hrest : encode more = bytes := encode_of_decode? hmore
      have hsmall : b.toNat < 0x80 := UInt8.lt_iff_toNat_lt.mp hascii
      have hvalid : b.toNat.isValidChar := by
        simp only [Nat.isValidChar]
        omega
      have hc : (Char.ofNat b.toNat).toNat = b.toNat := toNat_ofNat hvalid
      change String.utf8EncodeChar (Char.ofNat b.toNat) ++ encode more = b :: bytes
      rw [encodeChar_low (by omega), hc, UInt8.ofNat_toNat, hrest, List.singleton_append]
    · rw [if_neg hascii] at h
      cases hlead : lead? b with
      | none =>
        simp only [hlead, List.singleton_append, mapM_none] at h
        cases h
      | some p =>
        simp only [hlead, List.nil_append] at h
        obtain ⟨tail, rest, c, more, rfl, rfl, hc, hmore⟩ := completes_of_scanFrom h
        have hrest : encode more = rest := encode_of_decode? hmore
        change String.utf8EncodeChar c ++ encode more = b :: (tail ++ rest)
        rw [hc.encodeChar hlead, hrest, List.cons_append]
termination_by bytes.length

end PooledHttp.Utf8
