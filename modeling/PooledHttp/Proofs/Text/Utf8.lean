import Mathlib.Data.List.Basic
import PooledHttp.Text.Utf8

/-! An ASCII byte stands for itself wherever it occurs: what comes before it and what comes after
are read as if each stood alone. -/

namespace PooledHttp.Utf8

/-- No byte below 0x80 continues a character. -/
def Partial.IsLate (p : Partial) : Prop := 0x80 ≤ p.low

theorem lead?_isLate {b : UInt8} {p : Partial} (h : lead? b = some p) : p.IsLate := by
  unfold lead? at h
  split_ifs at h <;> cases h <;> simp [Partial.IsLate]

theorem start_isLate {b : UInt8} {p : Partial} (h : (start b).2 = some p) : p.IsLate := by
  unfold start at h
  split at h
  · cases h
  · split at h
    · next q hq =>
      cases h
      exact lead?_isLate hq
    · cases h

theorem step_isLate {p q : Partial} {b : UInt8} (h : (step (some p) b).2 = some q) : q.IsLate := by
  unfold step at h
  simp only at h
  split at h
  · split at h
    · cases h
    · cases h
      exact UInt8.le_refl 0x80
  · exact start_isLate h

theorem start_ascii {c : UInt8} (hc : c < 0x80) : start c = ([some (Char.ofNat c.toNat)], none) := by
  rw [start, if_pos hc]

theorem Partial.IsLate.step_ascii {p : Partial} (hp : p.IsLate) {c : UInt8} (hc : c < 0x80) :
    step (some p) c = ([none, some (Char.ofNat c.toNat)], none) := by
  have hlow : ¬ (p.low ≤ c ∧ c ≤ p.high) := by
    rintro ⟨hle, -⟩
    exact absurd (UInt8.le_trans hp hle) (UInt8.not_le.mpr hc)
  simp only [step, if_neg hlow, start_ascii hc]

theorem scanFrom_ascii {c : UInt8} (hc : c < 0x80) (front back : Bytes) (p : Option Partial)
    (hp : ∀ q ∈ p, q.IsLate) :
    scanFrom p (front ++ c :: back) =
      scanFrom p front ++ some (Char.ofNat c.toNat) :: scan back := by
  induction front generalizing p with
  | nil =>
    cases p with
    | none => simp [scanFrom, step, start_ascii hc, scan]
    | some q => simp [scanFrom, (hp q rfl).step_ascii hc, scan]
  | cons b front ih =>
    have hnext : ∀ q ∈ (step p b).2, q.IsLate := by
      intro q hq
      cases p with
      | none => exact start_isLate hq
      | some late => exact step_isLate hq
    simp only [List.cons_append, scanFrom]
    rw [ih _ hnext, List.append_assoc]

theorem scan_ascii {c : UInt8} (hc : c < 0x80) (front back : Bytes) :
    scan (front ++ c :: back) = scan front ++ some (Char.ofNat c.toNat) :: scan back :=
  scanFrom_ascii hc front back none nofun

/-- Text with an ASCII byte in it is well-formed where both parts around the byte are. -/
theorem decode?_ascii {c : UInt8} (hc : c < 0x80) (front back : Bytes) :
    decode? (front ++ c :: back) =
      (decode? front).bind fun before =>
        (decode? back).map fun after => before ++ Char.ofNat c.toNat :: after := by
  rw [decode?, scan_ascii hc, List.mapM_append]
  change ((decode? front).bind fun before =>
    (List.mapM id (some (Char.ofNat c.toNat) :: scan back)).bind fun after =>
      some (before ++ after)) = _
  rw [List.mapM_cons]
  change ((decode? front).bind fun before =>
    ((decode? back).bind fun after => some (Char.ofNat c.toNat :: after)).bind fun after =>
      some (before ++ after)) = _
  cases decode? front <;> cases decode? back <;> rfl

end PooledHttp.Utf8
