import PooledHttp.Proofs.Checked.Reading
import PooledHttp.Proofs.Text.Encoding

/-! Parsing a request the way it is computed, with every index and every sum checked. What has been read
is far too short for a sum to pass the largest number, even where each character takes four bytes. -/

namespace PooledHttp

namespace Checked

/-- Two digits, of which neither need be ASCII. -/
def escaped? : Bytes → Option UInt8
  | [high, low] => PercentEscape.value? high low
  | _ => none

/-- The sum is only computed behind a percent sign. -/
def mayEscape (bytes : Bytes) (i : Nat) (b : UInt8) : Checked Bool :=
  if b = PercentEscape.percent then (add i 2).map fun last => decide (last < bytes.length)
  else .ok false

/-- The next byte, and the index behind what it took. -/
def decodeStep (bytes : Bytes) (i : Nat) : Checked (UInt8 × Nat) := do
  let b ← get bytes i
  let escape ← mayEscape bytes i b
  if escape then
    let first ← add i 1
    let behind ← add i 3
    let digits ← slice bytes first behind
    match escaped? digits with
    | some value =>
      let next ← add i 3
      return (value, next)
    | none =>
      let next ← add i 1
      return (b, next)
  else
    let next ← add i 1
    return (b, next)

theorem decodeStep_lt {bytes : Bytes} {i next : Nat} {b : UInt8}
    (h : decodeStep bytes i = .ok (b, next)) : i < next := by
  have hadvance : ∀ {d : Nat} {value : UInt8}, 0 < d →
      ((add i d).bind fun next => .ok (value, next)) = .ok (b, next) → i < next := by
    intro d value hd he
    obtain ⟨sum, hsum, he⟩ := bind_eq_ok he
    cases he
    rw [add_eq hsum]
    omega
  obtain ⟨c, -, h⟩ := bind_eq_ok h
  obtain ⟨escape, -, h⟩ := bind_eq_ok h
  cases escape with
  | false => exact hadvance (by decide) h
  | true =>
    obtain ⟨first, -, h⟩ := bind_eq_ok h
    obtain ⟨behind, -, h⟩ := bind_eq_ok h
    obtain ⟨digits, -, h⟩ := bind_eq_ok h
    split at h
    · exact hadvance (by decide) h
    · exact hadvance (by decide) h

def decodeFrom (bytes : Bytes) (i : Nat) : Checked Bytes :=
  if i < bytes.length then
    match _stepped : decodeStep bytes i with
    | .error fault => .error fault
    | .ok (b, next) => (decodeFrom bytes next).map (b :: ·)
  else .ok []
termination_by bytes.length - i
decreasing_by
  have := decodeStep_lt _stepped
  omega

theorem decodeBytes_cons {b : UInt8} {rest : Bytes}
    (h : b ≠ PercentEscape.percent ∨ rest.length < 2) :
    PercentEscape.decodeBytes (b :: rest) = b :: PercentEscape.decodeBytes rest := by
  match rest with
  | [] => rfl
  | [_] => rfl
  | high :: low :: rest =>
    have hne : b ≠ PercentEscape.percent := by
      refine h.resolve_right ?_
      simp only [List.length_cons]
      omega
    rw [PercentEscape.decodeBytes, if_neg hne]

/-- A step takes one byte, or the three of an escape, and never looks beyond the end. -/
theorem decodeStep_ok {bytes : Bytes} {i : Nat} (hsize : bytes.length ≤ Allocator.largest)
    (hi : i < bytes.length) :
    ∃ b next, decodeStep bytes i = .ok (b, next) ∧ i < next ∧
      PercentEscape.decodeBytes (bytes.drop i) =
        b :: PercentEscape.decodeBytes (bytes.drop next) := by
  have hroom : Allocator.largest + 3 ≤ Decimal.max64 := by decide
  have hget : get bytes i = .ok bytes[i] := get_ok (List.getElem?_eq_getElem hi)
  have hdrop : bytes.drop i = bytes[i] :: bytes.drop (i + 1) := List.drop_eq_getElem_cons hi
  have hone : add i 1 = .ok (i + 1) := add_ok (by omega)
  have htwo : add i 2 = .ok (i + 2) := add_ok (by omega)
  have hthree : add i 3 = .ok (i + 3) := add_ok (by omega)
  by_cases hescape : bytes[i] = PercentEscape.percent ∧ i + 2 < bytes.length
  · obtain ⟨hpercent, hlast⟩ := hescape
    have hmay : mayEscape bytes i bytes[i] = .ok true := by
      rw [mayEscape, if_pos hpercent, htwo]
      exact congrArg _ (decide_eq_true hlast)
    have hnext : bytes.drop (i + 1) = bytes[i + 1] :: bytes[i + 2] :: bytes.drop (i + 3) := by
      rw [List.drop_eq_getElem_cons (Nat.lt_of_succ_lt hlast), List.drop_eq_getElem_cons hlast]
    have hslice : slice bytes (i + 1) (i + 3) = .ok [bytes[i + 1], bytes[i + 2]] := by
      rw [slice_ok (by omega) (by omega), hnext]
      rw [Nat.add_sub_add_left]
      rfl
    rw [decodeStep, hget, ok_bind, hmay, ok_bind, if_pos rfl, hone, ok_bind, hthree, ok_bind, hslice,
      ok_bind, hdrop, hnext, PercentEscape.decodeBytes, if_pos hpercent, escaped?]
    cases PercentEscape.value? bytes[i + 1] bytes[i + 2] with
    | some value => exact ⟨value, i + 3, rfl, by omega, rfl⟩
    | none => exact ⟨bytes[i], i + 1, rfl, by omega, by rw [hnext]⟩
  · have hmay : mayEscape bytes i bytes[i] = .ok false := by
      by_cases hpercent : bytes[i] = PercentEscape.percent
      · rw [mayEscape, if_pos hpercent, htwo]
        exact congrArg _ (decide_eq_false fun hlast => hescape ⟨hpercent, hlast⟩)
      · exact if_neg hpercent
    have hcons : bytes[i] ≠ PercentEscape.percent ∨ (bytes.drop (i + 1)).length < 2 := by
      by_cases hpercent : bytes[i] = PercentEscape.percent
      · refine .inr ?_
        rw [List.length_drop]
        have hshort : ¬ i + 2 < bytes.length := fun hlast => hescape ⟨hpercent, hlast⟩
        omega
      · exact .inl hpercent
    rw [decodeStep, hget, ok_bind, hmay, ok_bind, if_neg (by decide), hone, hdrop,
      decodeBytes_cons hcons]
    exact ⟨bytes[i], i + 1, rfl, by omega, rfl⟩

theorem decodeFrom_ok {bytes : Bytes} (hsize : bytes.length ≤ Allocator.largest) (i : Nat) :
    decodeFrom bytes i = .ok (PercentEscape.decodeBytes (bytes.drop i)) := by
  rw [decodeFrom.eq_def]
  by_cases hi : i < bytes.length
  · obtain ⟨b, next, hstep, hlt, hdecode⟩ := decodeStep_ok hsize hi
    have hrest := decodeFrom_ok hsize next
    rw [if_pos hi]
    split
    · next fault he =>
      rw [hstep] at he
      cases he
    · next b' next' he =>
      rw [hstep] at he
      cases he
      rw [hrest, hdecode]
      rfl
  · rw [if_neg hi, List.drop_of_length_le (Nat.le_of_not_lt hi)]
    rfl
termination_by bytes.length - i

end Checked

theorem length_le_of_mem_splitOnP {α : Type} {p : α → Bool} {xs piece : List α}
    (h : piece ∈ xs.splitOnP p) : piece.length ≤ xs.length := by
  induction xs generalizing piece with
  | nil =>
    rw [List.splitOnP_nil, List.mem_singleton] at h
    rw [h]
  | cons x xs ih =>
    rw [List.splitOnP_cons_eq_if_modifyHead] at h
    rw [List.length_cons]
    split at h
    · rcases List.mem_cons.mp h with rfl | h
      · exact Nat.zero_le _
      · exact Nat.le_succ_of_le (ih h)
    · obtain ⟨first, rest, hsplit⟩ := List.exists_cons_of_ne_nil (List.splitOnP_ne_nil p xs)
      rw [hsplit, List.modifyHead_cons, List.mem_cons] at h
      rcases h with rfl | h
      · have hfirst := ih (hsplit ▸ List.mem_cons_self)
        rw [List.length_cons]
        omega
      · exact Nat.le_succ_of_le (ih (hsplit ▸ List.mem_cons_of_mem _ h))

namespace Utf8

/-- A character takes one byte at least, and four at most. -/
theorem encode_length (text : List Char) :
    text.length ≤ (encode text).length ∧ (encode text).length ≤ 4 * text.length := by
  induction text with
  | nil => exact ⟨Nat.le_refl 0, Nat.le_refl 0⟩
  | cons c text ih =>
    have hmin := c.utf8Size_pos
    have hmax := c.utf8Size_le_four
    rw [encode] at ih
    rw [encode, List.flatMap_cons, List.length_append, String.length_utf8EncodeChar,
      List.length_cons]
    omega

end Utf8

namespace Request

theorem length_le_of_mem_requestLines {text line : List Char} (h : line ∈ requestLines text) :
    line.length ≤ text.length := by
  obtain ⟨piece, hpiece, rfl⟩ := List.mem_map.mp h
  have hle := length_le_of_mem_splitOnP hpiece
  have hdrop := (List.dropWhile_sublist (· == '\r') (l := piece.reverse)).length_le
  rw [List.length_reverse] at hdrop ⊢
  omega

theorem length_le_of_mem_words {line word : List Char} (h : word ∈ Blank.words line) :
    word.length ≤ line.length := length_le_of_mem_splitOnP (List.mem_filter.mp h).1

theorem uri_mem_words {first : List Char} {line : RequestLine}
    (h : RequestLine.read first = .ok line) : line.uri ∈ Blank.words first := by
  rw [RequestLine.read] at h
  split at h
  · next methodToken uri versionToken hwords =>
    split at h
    · cases h
    · split at h
      · cases h
      · cases h
        rw [hwords]
        exact List.mem_cons_of_mem _ List.mem_cons_self
  · cases h

/-- The path before the first question mark. -/
def rawPath (line : RequestLine) : List Char := ((cutAt? '?' line.uri).getD (line.uri, [])).1

theorem rawPath_length_le (line : RequestLine) : (rawPath line).length ≤ line.uri.length := by
  rw [rawPath, cutAt?]
  split
  · exact (List.takeWhile_sublist _).length_le
  · exact Nat.le_refl _

end Request

namespace Checked

def readLine (line : List Char) : Checked (Except RequestError RequestLine) := do
  let parts := Blank.words line
  if parts.length ≠ 3 then return .error .requestLine
  let methodToken ← get parts 0
  match Method.ofToken? methodToken with
  | none => return .error (.unsupportedMethod (String.ofList methodToken))
  | some method =>
    let versionToken ← get parts 2
    match Version.ofToken? versionToken with
    | none => return .error (.version (String.ofList versionToken))
    | some version =>
      let uri ← get parts 1
      return .ok ⟨method, uri, version⟩

theorem readLine_eq (line : List Char) : readLine line = .ok (RequestLine.read line) := by
  unfold readLine RequestLine.read
  match Blank.words line with
  | [] => rfl
  | [_] => rfl
  | [_, _] => rfl
  | [methodToken, uri, versionToken] =>
    have hfirst : get [methodToken, uri, versionToken] 0 = .ok methodToken := rfl
    have hlast : get [methodToken, uri, versionToken] 2 = .ok versionToken := rfl
    dsimp only [List.length_cons, List.length_nil]
    rw [if_neg (by decide), hfirst, ok_bind, hlast]
    cases Method.ofToken? methodToken with
    | none => rfl
    | some method =>
      dsimp only
      rw [ok_bind]
      cases Version.ofToken? versionToken <;> rfl
  | _ :: _ :: _ :: _ :: _ => rfl

open Request in
def ofText (text : List Char) : Checked (Except RequestError Request) := do
  if isBlankLine text then return .error .empty
  match requestLines text with
  | [] => return .error .requestLine
  | first :: rest =>
    let read ← readLine first
    match read with
    | .error e => return .error e
    | .ok line =>
      let path ← decodeFrom (Utf8.encode (rawPath line)) 0
      match (rest.takeWhile fun l => !isBlankLine l).mapM readHeader with
      | .error e => return .error e
      | .ok headers =>
        return .ok { ofLine line headers with path := String.ofList (Utf8.decodeLossy path) }

def parse (raw : Bytes) : Checked (Except RequestError Request) :=
  match Utf8.decode? raw with
  | none => .ok (.error .requestLine)
  | some text => ofText text

theorem ofText_eq {text : List Char} (hsize : 4 * text.length ≤ Allocator.largest) :
    ofText text = .ok (Request.ofText text) := by
  unfold ofText Request.ofText
  by_cases hblank : isBlankLine text = true
  · rw [if_pos hblank, if_pos hblank]
    rfl
  · rw [if_neg hblank, if_neg hblank]
    cases hlines : requestLines text with
    | nil => rfl
    | cons first rest =>
      have hfirst : first.length ≤ text.length :=
        Request.length_le_of_mem_requestLines (hlines ▸ List.mem_cons_self)
      dsimp only
      rw [readLine_eq, ok_bind]
      cases hread : RequestLine.read first with
      | error e => rfl
      | ok line =>
        have huri := Request.length_le_of_mem_words (Request.uri_mem_words hread)
        have hpath := Request.rawPath_length_le line
        have hencoded := Utf8.encode_length (Request.rawPath line)
        dsimp only
        rw [decodeFrom_ok (by omega), ok_bind]
        cases (rest.takeWhile fun l => !isBlankLine l).mapM readHeader <;> rfl

theorem parse_eq {raw : Bytes} (hsize : 4 * raw.length ≤ Allocator.largest) :
    parse raw = .ok (Request.parse raw) := by
  unfold parse Request.parse
  cases htext : Utf8.decode? raw with
  | none => rfl
  | some text =>
    have hlength := Utf8.encode_length text
    rw [Utf8.encode_of_decode? htext] at hlength
    exact ofText_eq (by omega)

end Checked

end PooledHttp
