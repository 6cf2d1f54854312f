import Mathlib.Data.List.Infix
import PooledHttp.Proofs.Text.Encoding
import PooledHttp.Text.PercentEscape

/-! What the decoder of percent escapes replaces, and what it copies. Besides two hexadecimal digits
it takes one such digit behind a plus sign for an escape. Every other percent sign stays, and so does
what follows it. -/

namespace PooledHttp.PercentEscape

/-- A hexadecimal digit in either case, and its value. -/
def HexDigit (c : Char) (n : Nat) : Prop :=
  n < 16 ∧ (c = Nat.digitChar n ∨ c = (Nat.digitChar n).toUpper)

def DigitByte (b : UInt8) (n : Nat) : Prop := ∃ c, HexDigit c n ∧ b = UInt8.ofNat c.toNat

/-- Two digits, and the byte that they denote. -/
def DigitPair (high low v : UInt8) : Prop :=
  ∃ m n, DigitByte high m ∧ DigitByte low n ∧ v = UInt8.ofNat (m * 16 + n)

/-- One digit behind a plus sign. -/
def SignedDigit (high low v : UInt8) : Prop :=
  high = plus ∧ ∃ n, DigitByte low n ∧ v = UInt8.ofNat n

def Tolerated (high low v : UInt8) : Prop := DigitPair high low v ∨ SignedDigit high low v

/-- The bytes begin with a percent sign and what makes it an escape. -/
def StartsEscape (escape : UInt8 → UInt8 → UInt8 → Prop) (bytes : Bytes) : Prop :=
  ∃ high low v rest, bytes = percent :: high :: low :: rest ∧ escape high low v

/-- From the left, each escape is replaced by its byte, and every byte that begins none is copied. -/
inductive Unescaped (escape : UInt8 → UInt8 → UInt8 → Prop) : Bytes → Bytes → Prop
  | nil : Unescaped escape [] []
  | replace {high low v : UInt8} {rest out : Bytes} (h : escape high low v)
    (hrest : Unescaped escape rest out) : Unescaped escape (percent :: high :: low :: rest) (v :: out)
  | copy {b : UInt8} {rest out : Bytes} (h : ¬ StartsEscape escape (b :: rest))
    (hrest : Unescaped escape rest out) : Unescaped escape (b :: rest) (b :: out)

theorem hexDigit?_digitChar : ∀ n < 16,
    hexDigit? (UInt8.ofNat (Nat.digitChar n).toNat) = some (UInt8.ofNat n) ∧
    hexDigit? (UInt8.ofNat (Nat.digitChar n).toUpper.toNat) = some (UInt8.ofNat n) := by decide

theorem hexDigit?_range : ∀ b < 256, hexDigit? (UInt8.ofNat b) = none ∨
    ∃ n < 16, b = (Nat.digitChar n).toNat ∨ b = (Nat.digitChar n).toUpper.toNat := by
  decide +kernel

theorem DigitByte.hexDigit? {b : UInt8} {n : Nat} (h : DigitByte b n) :
    PercentEscape.hexDigit? b = some (UInt8.ofNat n) := by
  obtain ⟨c, ⟨hn, rfl | rfl⟩, rfl⟩ := h
  · exact (hexDigit?_digitChar n hn).1
  · exact (hexDigit?_digitChar n hn).2

theorem digitByte_of_hexDigit? {b d : UInt8} (h : hexDigit? b = some d) :
    ∃ n < 16, DigitByte b n ∧ d = UInt8.ofNat n := by
  have hb : UInt8.ofNat b.toNat = b := b.ofNat_toNat
  rcases hexDigit?_range b.toNat b.toNat_lt_size with hnone | ⟨n, hn, hdigit⟩
  · rw [hb, h] at hnone
    cases hnone
  · have hbyte : DigitByte b n := by
      rcases hdigit with he | he
      · exact ⟨_, ⟨hn, .inl rfl⟩, by rw [← he, hb]⟩
      · exact ⟨_, ⟨hn, .inr rfl⟩, by rw [← he, hb]⟩
    have hd := hbyte.hexDigit?
    rw [h, Option.some.injEq] at hd
    exact ⟨n, hn, hbyte, hd⟩

theorem DigitByte.ne_plus {b : UInt8} {n : Nat} (h : DigitByte b n) : b ≠ plus := by
  rintro rfl
  have hnone : PercentEscape.hexDigit? plus = none := by decide
  have hsome := h.hexDigit?
  rw [hnone] at hsome
  cases hsome

theorem DigitByte.ne_percent {b : UInt8} {n : Nat} (h : DigitByte b n) : b ≠ percent := by
  rintro rfl
  have hnone : PercentEscape.hexDigit? percent = none := by decide
  have hsome := h.hexDigit?
  rw [hnone] at hsome
  cases hsome

theorem value?_eq_some_iff {high low v : UInt8} :
    value? high low = some v ↔ Tolerated high low v := by
  constructor
  · intro h
    by_cases hplus : high = plus
    · rw [value?, if_pos hplus] at h
      obtain ⟨n, -, hn, rfl⟩ := digitByte_of_hexDigit? h
      exact .inr ⟨hplus, n, hn, rfl⟩
    · rw [value?, if_neg hplus] at h
      cases hhigh : hexDigit? high with
      | none => simp [hhigh] at h
      | some a =>
        cases hlow : hexDigit? low with
        | none => simp [hhigh, hlow] at h
        | some b =>
          simp only [hhigh, hlow, Option.some.injEq] at h
          obtain ⟨m, -, hm, rfl⟩ := digitByte_of_hexDigit? hhigh
          obtain ⟨n, -, hn, rfl⟩ := digitByte_of_hexDigit? hlow
          exact .inl ⟨m, n, hm, hn, by rw [← h]; simp⟩
  · rintro (⟨m, n, hhigh, hlow, rfl⟩ | ⟨rfl, n, hlow, rfl⟩)
    · rw [value?, if_neg hhigh.ne_plus, hhigh.hexDigit?, hlow.hexDigit?]
      simp
    · rw [value?, if_pos rfl, hlow.hexDigit?]

theorem startsEscape_iff {escape : UInt8 → UInt8 → UInt8 → Prop} {b high low : UInt8}
    {rest : Bytes} : StartsEscape escape (b :: high :: low :: rest) ↔
      b = percent ∧ ∃ v, escape high low v := by
  constructor
  · rintro ⟨_, _, v, _, he, h⟩
    cases he
    exact ⟨rfl, v, h⟩
  · rintro ⟨rfl, v, h⟩
    exact ⟨high, low, v, rest, rfl, h⟩

theorem unescaped_decodeBytes (bytes : Bytes) : Unescaped Tolerated bytes (decodeBytes bytes) := by
  fun_induction decodeBytes bytes with
  | case1 high low rest v hv ih => exact .replace (value?_eq_some_iff.mp hv) ih
  | case2 high low rest hnone ih =>
    refine .copy ?_ ih
    rw [startsEscape_iff]
    rintro ⟨-, v, hv⟩
    rw [value?_eq_some_iff.mpr hv] at hnone
    cases hnone
  | case3 b high low rest hne ih =>
    refine .copy ?_ ih
    rw [startsEscape_iff]
    exact fun h => hne h.1
  | case4 b rest hshort ih =>
    refine .copy ?_ ih
    rintro ⟨high, low, v, more, he, -⟩
    cases he
    exact hshort _ _ _ rfl
  | case5 => exact .nil

theorem Unescaped.unique {escape : UInt8 → UInt8 → UInt8 → Prop}
    (hone : ∀ high low v w, escape high low v → escape high low w → v = w)
    {bytes out other : Bytes} (h : Unescaped escape bytes out) (h' : Unescaped escape bytes other) :
    out = other := by
  induction h generalizing other with
  | nil =>
    cases h'
    rfl
  | @replace high low v rest out hv hrest ih =>
    cases h' with
    | replace hw hrest' => rw [hone high low v _ hv hw, ih hrest']
    | copy hnone hrest' => exact absurd (startsEscape_iff.mpr ⟨rfl, v, hv⟩) hnone
  | @copy b rest out hnone hrest ih =>
    cases h' with
    | @replace _ _ w _ _ hw hrest' => exact absurd (startsEscape_iff.mpr ⟨rfl, w, hw⟩) hnone
    | copy hnone' hrest' => rw [ih hrest']

theorem Tolerated.unique {high low v w : UInt8} (h : Tolerated high low v)
    (h' : Tolerated high low w) : v = w := by
  rw [← value?_eq_some_iff] at h h'
  exact Option.some.inj (h.symm.trans h')

theorem unescaped_iff {bytes out : Bytes} :
    Unescaped Tolerated bytes out ↔ out = decodeBytes bytes := by
  constructor
  · intro h
    have hone : ∀ high low v w, Tolerated high low v → Tolerated high low w → v = w :=
      fun _ _ _ _ => Tolerated.unique
    exact h.unique hone (unescaped_decodeBytes bytes)
  · rintro rfl
    exact unescaped_decodeBytes bytes

/-- Without a percent sign nothing is replaced. -/
theorem Unescaped.append_plain {escape : UInt8 → UInt8 → UInt8 → Prop} {plain rest out : Bytes}
    (hplain : percent ∉ plain) (h : Unescaped escape rest out) :
    Unescaped escape (plain ++ rest) (plain ++ out) := by
  induction plain with
  | nil => exact h
  | cons b plain ih =>
    rw [List.mem_cons, not_or] at hplain
    refine .copy ?_ (ih hplain.2)
    rintro ⟨high, low, v, more, he, -⟩
    exact hplain.1 (List.cons.inj he).1.symm

/-- Fewer escapes: the same result, where none of those left out occurs. -/
theorem Unescaped.of_imp {escape other : UInt8 → UInt8 → UInt8 → Prop} {bytes out : Bytes}
    (hless : ∀ {high low v}, other high low v → escape high low v)
    (hnone : ∀ high low v, escape high low v → ¬ other high low v →
      ¬ [percent, high, low] <:+: bytes) (h : Unescaped escape bytes out) :
    Unescaped other bytes out := by
  induction h with
  | nil => exact .nil
  | @replace high low v rest out hv hrest ih =>
    have hkept : other high low v := by
      by_contra hne
      exact hnone high low v hv hne ⟨[], rest, rfl⟩
    refine .replace hkept (ih fun high' low' v' hv' hne hin => hnone high' low' v' hv' hne ?_)
    exact hin.trans (List.suffix_append [percent, high, low] rest).isInfix
  | @copy b rest out hstart hrest ih =>
    refine .copy ?_ (ih fun high' low' v' hv' hne hin => hnone high' low' v' hv' hne ?_)
    · rintro ⟨high, low, v, more, he, hv⟩
      exact hstart ⟨high, low, v, more, he, hless hv⟩
    · exact hin.trans (List.suffix_cons b rest).isInfix

theorem infix_tail_of_not_start {sub rest : Bytes} {b : UInt8} (hin : sub <:+: b :: rest)
    (hstart : ¬ sub <+: b :: rest) : sub <:+: rest :=
  (List.infix_cons_iff.mp hin).resolve_left hstart

theorem not_prefix_percent {b high low : UInt8} {rest : Bytes} (hne : b ≠ percent) :
    ¬ [percent, high, low] <+: b :: rest := by
  rw [List.cons_prefix_cons]
  exact fun h => hne h.1.symm

theorem SignedDigit.ne_percent {high low v : UInt8} (h : SignedDigit high low v) : v ≠ percent := by
  obtain ⟨-, n, ⟨c, ⟨hn, -⟩, -⟩, rfl⟩ := h
  intro he
  have hnat := congrArg UInt8.toNat he
  rw [UInt8.toNat_ofNat'] at hnat
  change n % 256 = 37 at hnat
  omega

/-- Both readings agree only where no digit stands behind a signed percent sign: there one of them has
the digit's value, and the other a percent sign. -/
theorem Unescaped.no_signed {bytes out : Bytes} (h : Unescaped DigitPair bytes out)
    (htolerated : Unescaped Tolerated bytes out) {low v : UInt8} (hv : SignedDigit plus low v) :
    ¬ [percent, plus, low] <:+: bytes := by
  induction h with
  | nil => simp
  | @replace first second w rest out hpair hrest ih =>
    have hstarts : StartsEscape Tolerated (percent :: first :: second :: rest) :=
      startsEscape_iff.mpr ⟨rfl, w, .inl hpair⟩
    obtain ⟨m, n, hfirst, hsecond, -⟩ := hpair
    cases htolerated with
    | copy hnone _ => exact absurd hstarts hnone
    | replace _ hrest' =>
      intro hin
      have hplus : ¬ [percent, plus, low] <+: percent :: first :: second :: rest := by
        simp only [List.cons_prefix_cons]
        exact fun hstart => hfirst.ne_plus hstart.2.1.symm
      have hin := infix_tail_of_not_start hin hplus
      have hin := infix_tail_of_not_start hin (not_prefix_percent hfirst.ne_percent)
      exact ih hrest' (infix_tail_of_not_start hin (not_prefix_percent hsecond.ne_percent))
  | @copy b rest out hstart hrest ih =>
    cases htolerated with
    | @replace high second _ _ _ hw _ =>
      rcases hw with hpair | hsigned
      · exact absurd (startsEscape_iff.mpr ⟨rfl, _, hpair⟩) hstart
      · exact absurd rfl hsigned.ne_percent
    | copy hnone hrest' =>
      intro hin
      refine ih hrest' (infix_tail_of_not_start hin ?_)
      rintro ⟨more, he⟩
      exact hnone ⟨plus, low, v, more, he.symm, .inr hv⟩

theorem Unescaped.plain {escape : UInt8 → UInt8 → UInt8 → Prop} {bytes : Bytes}
    (hnone : ∀ high low v, escape high low v → ¬ [percent, high, low] <:+: bytes) :
    Unescaped escape bytes bytes := by
  induction bytes with
  | nil => exact .nil
  | cons b bytes ih =>
    refine .copy ?_ (ih fun high low v hv hin => hnone high low v hv ?_)
    · rintro ⟨high, low, v, rest, he, hv⟩
      exact hnone high low v hv (he ▸ ⟨[], rest, rfl⟩)
    · exact hin.trans (List.suffix_cons b bytes).isInfix

/-- What a path is decoded to: read from the left, each percent sign with two hexadecimal digits, or
with a plus sign and one such digit, becomes the byte that they denote, all else is copied, and the
bytes are read forgivingly, so that well-formed ones stay what they are. This is the reading that
knows escapes of two digits only just where no digit stands behind a signed percent sign. Text without
an escape of either kind stays as it is. -/
theorem decode_escapes (text : List Char) :
    let bytes := Utf8.encode text
    (∀ out, Unescaped Tolerated bytes out ↔ out = decodeBytes bytes) ∧
    (∀ out, Unescaped Tolerated bytes out → decode text = Utf8.decodeLossy out) ∧
    (∀ decoded, Unescaped Tolerated bytes (Utf8.encode decoded) → decode text = decoded) ∧
    (∀ out, Unescaped Tolerated bytes out → (Unescaped DigitPair bytes out ↔
      ∀ low v, SignedDigit plus low v → ¬ [percent, plus, low] <:+: bytes)) ∧
    ((∀ high low v, Tolerated high low v → ¬ [percent, high, low] <:+: bytes) →
      decode text = text) := by
  intro bytes
  have hlossy : ∀ out, Unescaped Tolerated bytes out → decode text = Utf8.decodeLossy out := by
    intro out h
    rw [decode, unescaped_iff.mp h]
  have hformed : ∀ decoded, Unescaped Tolerated bytes (Utf8.encode decoded) → decode text = decoded :=
    fun decoded h => (hlossy _ h).trans (Utf8.decodeLossy_encode decoded)
  refine ⟨fun out => unescaped_iff, hlossy, hformed, ?_, fun hnone => hformed text (.plain hnone)⟩
  intro out h
  constructor
  · exact fun hpair low v => hpair.no_signed h
  · intro hnone
    refine h.of_imp .inl ?_
    rintro high low v (hpair | hsigned) hne
    · exact absurd hpair hne
    · obtain ⟨rfl, -⟩ := id hsigned
      exact hnone low v hsigned

/-- The percent sign that two digits follow goes, and the other one stays. Where too few bytes follow
it, nothing changes. -/
theorem decode_escapes_at_end :
    Unescaped Tolerated (Utf8.encode "/%41%zz".toList) (Utf8.encode "/A%zz".toList) ∧
    decode "/%41%zz".toList = "/A%zz".toList ∧ decode "/a%2".toList = "/a%2".toList := by
  have hescape : Unescaped Tolerated (Utf8.encode "/%41%zz".toList) (Utf8.encode "/A%zz".toList) :=
    unescaped_iff.mpr (by decide)
  have hbytes : Utf8.encode "/a%2".toList = [47, 97, 37, 50] := by decide
  obtain ⟨-, -, hformed, -, -⟩ := decode_escapes "/%41%zz".toList
  obtain ⟨-, -, -, -, hplain⟩ := decode_escapes "/a%2".toList
  refine ⟨hescape, hformed _ hescape, hplain ?_⟩
  intro high low v _ hin
  rw [hbytes] at hin
  simp [List.infix_cons_iff, percent] at hin

/-- No two digits follow this percent sign, and yet it goes: a digit behind a plus sign is enough. -/
theorem decode_signed_digit :
    (∀ high low v, DigitPair high low v → ¬ [percent, high, low] <:+: Utf8.encode "%+5".toList) ∧
    decode "%+5".toList = ['\x05'] ∧
    ¬ Unescaped DigitPair (Utf8.encode "%+5".toList) (decodeBytes (Utf8.encode "%+5".toList)) := by
  have hbytes : Utf8.encode "%+5".toList = [percent, plus, 53] := by decide
  have hfive : SignedDigit plus 53 5 := ⟨rfl, 5, ⟨'5', ⟨by decide, .inl rfl⟩, rfl⟩, rfl⟩
  rw [hbytes]
  refine ⟨?_, by decide, ?_⟩
  · rintro high low v ⟨m, n, hhigh, -, -⟩ hin
    have he := hin.eq_of_length rfl
    exact hhigh.ne_plus (List.cons.inj (List.cons.inj he).2).1
  · intro h
    exact h.no_signed (unescaped_decodeBytes _) hfive (List.infix_refl _)

end PooledHttp.PercentEscape
