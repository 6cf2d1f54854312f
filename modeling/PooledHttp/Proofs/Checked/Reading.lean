import PooledHttp.Log.Buffer
import PooledHttp.Proofs.Request.Delivery

/-! Reading a request the way it is computed, index by index, where every index, slice, sum and
difference is checked and a failed check ends the thread. No check fails, and what comes out is what
is read. -/

namespace PooledHttp

/-- What would end a thread. -/
inductive Fault
  | overflow
  | underflow
  | outOfRange
  /-- A read with no room for a byte would look like the end of the stream. -/
  | emptyBuffer
deriving DecidableEq, Repr

abbrev Checked := Except Fault

namespace Checked

variable {α β : Type}

def add (a b : Nat) : Checked Nat :=
  if a + b ≤ Decimal.max64 then .ok (a + b) else .error .overflow

def sub (a b : Nat) : Checked Nat := if b ≤ a then .ok (a - b) else .error .underflow

def get (xs : List α) (i : Nat) : Checked α :=
  match xs[i]? with
  | some x => .ok x
  | none => .error .outOfRange

def slice (xs : List α) (first last : Nat) : Checked (List α) :=
  if first ≤ last ∧ last ≤ xs.length then .ok ((xs.drop first).take (last - first))
  else .error .outOfRange

/-- All slices of this size, from left to right. -/
def windows (xs : List α) (size : Nat) : Checked (List (List α)) :=
  if size = 0 then .error .outOfRange
  else (List.range (xs.length + 1 - size)).mapM fun i => slice xs i (i + size)

theorem ok_bind (a : α) (f : α → Checked β) : (Except.ok a >>= f) = f a := rfl

theorem bind_eq_ok {x : Checked α} {f : α → Checked β} {b : β} (h : (x >>= f) = .ok b) :
    ∃ a, x = .ok a ∧ f a = .ok b := by
  cases x with
  | error fault => cases h
  | ok a => exact ⟨a, rfl, h⟩

theorem add_eq {a b sum : Nat} (h : add a b = .ok sum) : sum = a + b := by
  rw [add] at h
  split at h
  · cases h
    rfl
  · cases h

theorem add_ok {a b : Nat} (h : a + b ≤ Decimal.max64) : add a b = .ok (a + b) := if_pos h

theorem sub_ok {a b : Nat} (h : b ≤ a) : sub a b = .ok (a - b) := if_pos h

theorem get_ok {xs : List α} {i : Nat} {x : α} (h : xs[i]? = some x) : get xs i = .ok x := by
  rw [get, h]

theorem slice_ok {xs : List α} {first last : Nat} (h : first ≤ last) (hlast : last ≤ xs.length) :
    slice xs first last = .ok ((xs.drop first).take (last - first)) := if_pos ⟨h, hlast⟩

theorem mapM_ok {xs : List α} {f : α → Checked β} {g : α → β} (h : ∀ x ∈ xs, f x = .ok (g x)) :
    xs.mapM f = .ok (xs.map g) := by
  induction xs with
  | nil => rfl
  | cons x xs ih =>
    obtain ⟨hx, hxs⟩ := List.forall_mem_cons.mp h
    rw [List.mapM_cons, hx, ok_bind, ih hxs, ok_bind]
    rfl

theorem windows_ok (xs : List α) {size : Nat} (h : size ≠ 0) :
    windows xs size =
      .ok ((List.range (xs.length + 1 - size)).map fun i => (xs.drop i).take size) := by
  rw [windows, if_neg h]
  refine mapM_ok fun i hi => ?_
  have hlt := List.mem_range.mp hi
  rw [slice_ok (by omega) (by omega), Nat.add_sub_cancel_left]

theorem mem_windows_iff (xs mark : List α) :
    mark ∈ ((List.range (xs.length + 1 - mark.length)).map fun i => (xs.drop i).take mark.length) ↔
      ∃ front back, xs = front ++ (mark ++ back) := by
  rw [List.mem_map]
  refine ⟨?_, ?_⟩
  · rintro ⟨i, -, hwindow⟩
    refine ⟨xs.take i, (xs.drop i).drop mark.length, ?_⟩
    have hsplit := List.take_append_drop mark.length (xs.drop i)
    rw [hwindow] at hsplit
    rw [hsplit, List.take_append_drop]
  · rintro ⟨front, back, rfl⟩
    refine ⟨front.length, ?_, ?_⟩
    · rw [List.mem_range]
      simp only [List.length_append]
      omega
    · rw [List.drop_left, List.take_left]

open RequestReader

def hasHeaderEnd (raw : Bytes) : Checked Bool := do
  let fours ← windows raw 4
  if fours.any (· == [13, 10, 13, 10]) then return true
  let twos ← windows raw 2
  return twos.any (· == [10, 10])

theorem hasHeaderEnd_eq (raw : Bytes) :
    hasHeaderEnd raw = .ok (RequestReader.hasHeaderEnd raw) := by
  have hfour := mem_windows_iff raw [13, 10, 13, 10]
  have htwo := mem_windows_iff raw [10, 10]
  have hends := hasHeaderEnd_iff raw
  have hmarks : RequestReader.hasHeaderEnd raw = true ↔
      (∃ front back, raw = front ++ ([13, 10, 13, 10] ++ back)) ∨
        ∃ front back, raw = front ++ ([10, 10] ++ back) := by
    rw [hends, terminators]
    simp only [List.mem_cons, List.not_mem_nil, or_false]
    refine ⟨?_, ?_⟩
    · rintro ⟨front, mark, rfl | rfl, back, he⟩
      · exact .inl ⟨front, back, he⟩
      · exact .inr ⟨front, back, he⟩
    · rintro (⟨front, back, he⟩ | ⟨front, back, he⟩)
      · exact ⟨front, _, .inl rfl, back, he⟩
      · exact ⟨front, _, .inr rfl, back, he⟩
  rw [← hfour, ← htwo, ← List.contains_iff_mem, ← List.contains_iff_mem, ← Bool.or_eq_true,
    ← Bool.eq_iff_iff] at hmarks
  rw [hasHeaderEnd, windows_ok raw (by decide), ok_bind, windows_ok raw (by decide), ok_bind,
    List.any_beq', List.any_beq', hmarks]
  cases List.contains ((List.range (raw.length + 1 - 4)).map fun i => (raw.drop i).take 4)
    [13, 10, 13, 10] <;> rfl

/-- How many bytes a read is offered. -/
def offer (raw : Bytes) : Checked Nat := do
  let room ← sub maxRequestSize raw.length
  let buffer ← slice (List.replicate chunkSize (0 : UInt8)) 0 (min chunkSize room)
  if buffer.isEmpty then .error .emptyBuffer else return buffer.length

/-- What a read has left in the buffer, as far as it says that it has. -/
def taken (bytes : Bytes) (size : Nat) : Checked Bytes :=
  slice (bytes.take size ++ List.replicate (chunkSize - size) 0) 0 (min bytes.length size)

def goesOn (raw : Bytes) : Checked Bool :=
  if raw.length < maxRequestSize then (hasHeaderEnd raw).map (!·) else .ok false

theorem offer_eq {raw : Bytes} (h : raw.length ≤ maxRequestSize) :
    offer raw = if limit raw = 0 then .error .emptyBuffer else .ok (limit raw) := by
  have hchunk : limit raw ≤ (List.replicate chunkSize (0 : UInt8)).length := by
    rw [List.length_replicate]
    exact Nat.min_le_left _ _
  have hbuffer : ((List.replicate chunkSize (0 : UInt8)).drop 0).take (limit raw - 0) =
      List.replicate (limit raw) 0 := by
    rw [List.length_replicate] at hchunk
    rw [List.drop_zero, Nat.sub_zero, List.take_replicate, Nat.min_eq_left hchunk]
  have hslice := slice_ok (Nat.zero_le (limit raw)) hchunk
  rw [hbuffer] at hslice
  rw [offer, sub_ok h, ok_bind]
  change (slice _ 0 (limit raw) >>= _) = _
  rw [hslice, ok_bind, List.isEmpty_replicate, List.length_replicate]
  cases limit raw <;> rfl

theorem offer_pos {raw : Bytes} {size : Nat} (h : offer raw = .ok size) : 0 < size := by
  by_cases hle : raw.length ≤ maxRequestSize
  · rw [offer_eq hle] at h
    split at h
    · cases h
    · cases h
      omega
  · rw [offer, sub, if_neg hle] at h
    cases h

def readFrom (raw : Bytes) (events : List ReadEvent) :
    Checked (Except SystemError Bytes × List ReadEvent) :=
  match goesOn raw with
  | .error fault => .error fault
  | .ok false => .ok (.ok raw, events)
  | .ok true =>
    match _offered : offer raw with
    | .error fault => .error fault
    | .ok size =>
      match events with
      | [] => .ok (.ok raw, [])
      | .interrupted :: rest => readFrom raw rest
      | .failed cause :: rest => .ok (.error cause, rest)
      | .data bytes :: rest =>
        if _empty : bytes = [] then .ok (.ok raw, rest)
        else
          match taken bytes size with
          | .error fault => .error fault
          | .ok more =>
            if bytes.length ≤ size then readFrom (raw ++ more) rest
            else readFrom (raw ++ more) (.data (bytes.drop size) :: rest)
termination_by unread events + events.length
decreasing_by
  · simp only [unread, List.length_cons]
    omega
  · simp only [unread, List.length_cons]
    omega
  · have := offer_pos _offered
    simp only [unread, List.length_cons, List.length_drop]
    omega

theorem taken_eq (bytes : Bytes) {size : Nat} : taken bytes size = .ok (bytes.take size) := by
  have hlength : (bytes.take size).length = min bytes.length size := by
    rw [List.length_take, Nat.min_comm]
  have hle : min bytes.length size ≤
      (bytes.take size ++ List.replicate (chunkSize - size) 0).length := by
    rw [List.length_append, hlength]
    omega
  rw [taken, slice_ok (Nat.zero_le _) hle, List.drop_zero, Nat.sub_zero, ← hlength, List.take_left]

theorem goesOn_eq (raw : Bytes) : goesOn raw = .ok (!isComplete raw) := by
  rw [goesOn, hasHeaderEnd_eq, isComplete]
  by_cases hlt : raw.length < maxRequestSize
  · have hnot : decide (maxRequestSize ≤ raw.length) = false := decide_eq_false (Nat.not_le.mpr hlt)
    rw [if_pos hlt, hnot, Bool.false_or]
    rfl
  · have hfull : decide (maxRequestSize ≤ raw.length) = true := decide_eq_true (Nat.le_of_not_lt hlt)
    rw [if_neg hlt, hfull]
    rfl

theorem offer_ok {raw : Bytes} (h : isComplete raw = false) : offer raw = .ok (limit raw) := by
  rw [isComplete, Bool.or_eq_false_iff, decide_eq_false_iff_not, Nat.not_le] at h
  have hpos : limit raw ≠ 0 := by
    simp only [limit, chunkSize]
    omega
  rw [offer_eq (Nat.le_of_lt h.1), if_neg hpos]

theorem readFrom_complete {raw : Bytes} (h : isComplete raw = true) (events : List ReadEvent) :
    readFrom raw events = .ok (.ok raw, events) := by
  rw [readFrom, goesOn_eq, h]
  rfl

/-- One pass of the reading loop. -/
theorem readFrom_pass {raw : Bytes} (h : isComplete raw = false) (events : List ReadEvent) :
    readFrom raw events =
      match events with
      | [] => .ok (.ok raw, [])
      | .interrupted :: rest => readFrom raw rest
      | .failed cause :: rest => .ok (.error cause, rest)
      | .data bytes :: rest =>
        if bytes = [] then .ok (.ok raw, rest)
        else if bytes.length ≤ limit raw then readFrom (raw ++ bytes.take (limit raw)) rest
        else readFrom (raw ++ bytes.take (limit raw)) (.data (bytes.drop (limit raw)) :: rest) := by
  have hoffer := offer_ok h
  rw [readFrom.eq_def]
  simp only [goesOn_eq, h, Bool.not_false]
  split
  · next fault he =>
    rw [hoffer] at he
    cases he
  · next size he =>
    rw [hoffer] at he
    cases he
    simp only [taken_eq]
    cases events with
    | nil => rfl
    | cons event rest =>
      cases event with
      | interrupted => rfl
      | failed cause => rfl
      | data bytes => rfl

/-- Reading ends no thread, whatever the reads bring. -/
theorem readFrom_eq (raw : Bytes) (events : List ReadEvent) :
    readFrom raw events = .ok (RequestReader.readFrom raw events) := by
  induction raw, events using RequestReader.readFrom.induct with
  | case1 raw events hdone =>
    rw [readFrom_complete hdone, RequestReader.readFrom.eq_def, dif_pos hdone]
  | case2 raw hdone =>
    rw [readFrom_pass (eq_false_of_ne_true hdone), RequestReader.readFrom.eq_def, dif_neg hdone]
  | case3 raw hdone rest ih =>
    rw [readFrom_pass (eq_false_of_ne_true hdone), RequestReader.readFrom.eq_def, dif_neg hdone]
    exact ih
  | case4 raw hdone cause rest =>
    rw [readFrom_pass (eq_false_of_ne_true hdone), RequestReader.readFrom.eq_def, dif_neg hdone]
  | case5 raw hdone rest =>
    rw [readFrom_pass (eq_false_of_ne_true hdone), RequestReader.readFrom.eq_def, dif_neg hdone]
    rfl
  | case6 raw hdone bytes rest hne hshort ih =>
    rw [readFrom_pass (eq_false_of_ne_true hdone), RequestReader.readFrom.eq_def, dif_neg hdone]
    simp only [hne, hshort, if_true, if_false, dite_false, List.take_of_length_le]
    exact ih
  | case7 raw hdone bytes rest hne hlong ih =>
    rw [readFrom_pass (eq_false_of_ne_true hdone), RequestReader.readFrom.eq_def, dif_neg hdone]
    simp only [hne, hlong, if_false, dite_false]
    exact ih

end Checked

theorem RequestReader.readFrom_length_le {raw out : Bytes} {events rest : List ReadEvent}
    (hle : raw.length ≤ maxRequestSize) (h : readFrom raw events = (.ok out, rest)) :
    out.length ≤ maxRequestSize := by
  fun_induction readFrom raw events with
  | case1 raw events hdone =>
    cases h
    exact hle
  | case2 raw hdone =>
    cases h
    exact hle
  | case3 raw hdone rest ih => exact ih hle h
  | case4 raw hdone cause rest => cases h
  | case5 raw hdone rest =>
    cases h
    exact hle
  | case6 raw hdone bytes rest hne hshort ih =>
    have hlimit := limit_add_le hle
    refine ih ?_ h
    rw [List.length_append]
    omega
  | case7 raw hdone bytes rest hne hlong ih =>
    have hlimit := limit_add_le hle
    refine ih ?_ h
    rw [List.length_append, List.length_take]
    omega

end PooledHttp
