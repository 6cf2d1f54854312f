import Mathlib.Data.List.Induction
import PooledHttp.Proofs.Checked.Reading

/-! When the reading of a request stops. It takes the results of its reads up to the first moment at
which the headers have ended in what they brought, the largest size is reached, or the stream is over.
A failure counts if it comes before that moment, and then nothing else does. -/

namespace PooledHttp

def ReadEvent.bytes : ReadEvent → Bytes
  | .data bytes => bytes
  | .interrupted | .failed _ => []

namespace RequestReader

/-- What so many reads have brought, put together. -/
def gathered (results : List ReadEvent) : Bytes := results.flatMap ReadEvent.bytes

/-- After these results there is nothing left to wait for. -/
def Settled (results : List ReadEvent) : Prop :=
  [13, 10, 13, 10] <:+: gathered results ∨ [10, 10] <:+: gathered results ∨
    maxRequestSize ≤ (gathered results).length ∨ .data [] ∈ results

/-- After these results the reader asks for another one. -/
structure Pending (results : List ReadEvent) : Prop where
  unsettled : ¬ Settled results
  sound : ∀ cause, .failed cause ∉ results

/-- No read brings more than the buffer that it was offered. -/
def Offered (results : List ReadEvent) : Prop :=
  ∀ before bytes after, results = before ++ .data bytes :: after → Pending before →
    bytes.length ≤ limit (gathered before)

/-- The results up to the first moment at which nothing is left to wait for, with those after it. A
list of results ends with the stream. -/
structure StopsAt (before after : List ReadEvent) : Prop where
  settled : Settled before ∨ after = []
  first : ∀ earlier, earlier <+: before → earlier ≠ before → ¬ Settled earlier
  sound : ∀ cause, .failed cause ∉ before

variable {before after results : List ReadEvent} {event : ReadEvent}

theorem gathered_append (before after : List ReadEvent) :
    gathered (before ++ after) = gathered before ++ gathered after := List.flatMap_append

theorem gathered_concat (before : List ReadEvent) (event : ReadEvent) :
    gathered (before ++ [event]) = gathered before ++ event.bytes := by
  rw [gathered_append, gathered.eq_def [event], List.flatMap_singleton]

theorem hasHeaderEnd_iff_contains (raw : Bytes) :
    hasHeaderEnd raw = true ↔ [13, 10, 13, 10] <:+: raw ∨ [10, 10] <:+: raw := by
  rw [hasHeaderEnd_iff]
  constructor
  · rintro ⟨front, mark, hmark, back, rfl⟩
    have hinfix : mark <:+: front ++ (mark ++ back) := ⟨front, back, List.append_assoc _ _ _⟩
    simp only [terminators, List.mem_cons, List.not_mem_nil, or_false] at hmark
    rcases hmark with rfl | rfl
    · exact .inl hinfix
    · exact .inr hinfix
  · rintro (⟨front, back, rfl⟩ | ⟨front, back, rfl⟩)
    · exact ⟨front, _, .head _, back, List.append_assoc _ _ _⟩
    · exact ⟨front, _, .tail _ (.head _), back, List.append_assoc _ _ _⟩

theorem settled_iff (results : List ReadEvent) :
    Settled results ↔ isComplete (gathered results) = true ∨ .data [] ∈ results := by
  rw [isComplete, Bool.or_eq_true, decide_eq_true_eq, hasHeaderEnd_iff_contains, Settled]
  tauto

theorem Settled.append (h : Settled before) (after : List ReadEvent) : Settled (before ++ after) := by
  have hgathered : gathered before <+: gathered (before ++ after) :=
    gathered_append before after ▸ List.prefix_append _ _
  rcases h with h | h | h | h
  · exact .inl (h.trans hgathered.isInfix)
  · exact .inr (.inl (h.trans hgathered.isInfix))
  · exact .inr (.inr (.inl (h.trans hgathered.length_le)))
  · exact .inr (.inr (.inr (List.mem_append_left after h)))

theorem Pending.of_append (h : Pending (before ++ after)) : Pending before :=
  ⟨fun hs => h.unsettled (hs.append after), fun cause hc => h.sound cause (List.mem_append_left after hc)⟩

theorem Pending.isComplete_eq (h : Pending results) : isComplete (gathered results) = false :=
  Bool.eq_false_iff.mpr fun hc => h.unsettled ((settled_iff results).mpr (.inl hc))

theorem pending_nil : Pending [] := by
  refine ⟨?_, fun cause hc => absurd hc List.not_mem_nil⟩
  rw [settled_iff]
  rintro (h | h)
  · exact absurd h (by decide)
  · cases h

/-- Interrupted reads bring nothing, and settle nothing. -/
theorem settled_interrupted (before : List ReadEvent) :
    Settled (before ++ [.interrupted]) ↔ Settled before := by
  rw [settled_iff, settled_iff, gathered_concat, ReadEvent.bytes, List.append_nil]
  simp

theorem readFrom_nil (raw : Bytes) : readFrom raw [] = (.ok raw, []) := by
  rw [readFrom.eq_def]
  split <;> rfl

variable {raw : Bytes}

theorem readFrom_interrupted (h : isComplete raw = false) (after : List ReadEvent) :
    readFrom raw (.interrupted :: after) = readFrom raw after := by
  rw [readFrom.eq_def, dif_neg (Bool.eq_false_iff.mp h)]

theorem readFrom_failed (h : isComplete raw = false) (cause : SystemError) (after : List ReadEvent) :
    readFrom raw (.failed cause :: after) = (.error cause, after) := by
  rw [readFrom.eq_def, dif_neg (Bool.eq_false_iff.mp h)]

theorem readFrom_ended (h : isComplete raw = false) (after : List ReadEvent) :
    readFrom raw (.data [] :: after) = (.ok raw, after) := by
  rw [readFrom.eq_def, dif_neg (Bool.eq_false_iff.mp h)]
  rfl

/-- One result more, where the reader asks for it and for the next. -/
theorem Pending.readFrom_cons (h : Pending (before ++ [event]))
    (ho : Offered (before ++ event :: after)) :
    readFrom (gathered before) (event :: after) = readFrom (gathered (before ++ [event])) after := by
  have hc := h.of_append.isComplete_eq
  rw [gathered_concat]
  cases event with
  | interrupted => rw [readFrom_interrupted hc, ReadEvent.bytes, List.append_nil]
  | failed cause => exact absurd (List.mem_append_right before (.head _)) (h.sound cause)
  | data bytes =>
    have hne : bytes ≠ [] := by
      rintro rfl
      exact h.unsettled (.inr (.inr (.inr (List.mem_append_right before (.head _)))))
    exact readFrom_data hc hne (ho before bytes after rfl h.of_append) after

/-- While nothing settles, the reader goes on with what it has gathered. -/
theorem Pending.read_append (h : Pending before) (ho : Offered (before ++ after)) :
    read (before ++ after) = readFrom (gathered before) after := by
  induction before using List.reverseRecOn generalizing after with
  | nil => rfl
  | append_singleton before event ih =>
    rw [List.append_assoc, List.singleton_append] at ho ⊢
    rw [ih h.of_append ho, h.readFrom_cons ho]

/-- The result that settles it is the last one that is taken. -/
theorem Pending.read_settled (h : Pending before) (hs : Settled (before ++ [event]))
    (hsound : ∀ cause, event ≠ .failed cause) (ho : Offered (before ++ event :: after)) :
    read (before ++ event :: after) = (.ok (gathered (before ++ [event])), after) := by
  have hc := h.isComplete_eq
  rw [h.read_append ho, gathered_concat]
  cases event with
  | interrupted => exact absurd ((settled_interrupted before).mp hs) h.unsettled
  | failed cause => exact absurd rfl (hsound cause)
  | data bytes =>
    by_cases hne : bytes = []
    · subst hne
      rw [readFrom_ended hc, ReadEvent.bytes, List.append_nil]
    · rw [readFrom_data hc hne (ho before bytes after rfl h)]
      refine readFrom_complete ?_ after
      rw [settled_iff, gathered_concat, List.mem_append, List.mem_singleton] at hs
      rcases hs with hs | hs | hs
      · exact hs
      · exact absurd (.inr (.inr (.inr hs))) h.unsettled
      · exact absurd (ReadEvent.data.inj hs).symm hne

theorem StopsAt.read_eq (h : StopsAt before after) (ho : Offered (before ++ after)) :
    read (before ++ after) = (.ok (gathered before), after) := by
  by_cases hs : Settled before
  · rcases List.eq_nil_or_concat' before with rfl | ⟨earlier, event, rfl⟩
    · exact absurd hs pending_nil.unsettled
    · have hne : earlier ≠ earlier ++ [event] := by simp
      have hpending : Pending earlier :=
        ⟨h.first earlier (List.prefix_append _ _) hne,
          fun cause hc => h.sound cause (List.mem_append_left _ hc)⟩
      have hsound : ∀ cause, event ≠ .failed cause := by
        rintro cause rfl
        exact h.sound cause (List.mem_append_right _ (.head _))
      rw [List.append_assoc, List.singleton_append] at ho ⊢
      exact hpending.read_settled hs hsound ho
  · obtain rfl : after = [] := h.settled.resolve_left hs
    have hpending : Pending before := ⟨hs, h.sound⟩
    rw [hpending.read_append ho, readFrom_nil]

theorem Pending.read_failed (h : Pending before) {cause : SystemError}
    (ho : Offered (before ++ .failed cause :: after)) :
    read (before ++ .failed cause :: after) = (.error cause, after) := by
  rw [h.read_append ho, readFrom_failed h.isComplete_eq]

theorem Pending.stopsAt (h : Pending before) (hs : Settled (before ++ [event]) ∨ after = [])
    (hsound : ∀ cause, event ≠ .failed cause) : StopsAt (before ++ [event]) after := by
  refine ⟨hs, ?_, ?_⟩
  · intro earlier hprefix hne hsettled
    rcases List.prefix_concat_iff.mp hprefix with he | ⟨more, rfl⟩
    · exact hne he
    · exact h.unsettled (hsettled.append more)
  · intro cause hc
    rcases List.mem_append.mp hc with hc | hc
    · exact h.sound cause hc
    · exact hsound cause (List.mem_singleton.mp hc).symm

theorem Pending.stopsAt_end (h : Pending before) : StopsAt before [] := by
  refine ⟨.inr rfl, ?_, h.sound⟩
  rintro earlier ⟨more, rfl⟩ -
  exact h.of_append.unsettled

/-- From where the reader asks for more, there is such a first moment, or a failure before it. -/
theorem Pending.exists_stop (h : Pending before) (after : List ReadEvent) :
    ∃ front back, before ++ after = front ++ back ∧
      (StopsAt front back ∨ Pending front ∧ ∃ cause rest, back = .failed cause :: rest) := by
  induction after generalizing before with
  | nil => exact ⟨before, [], rfl, .inl h.stopsAt_end⟩
  | cons event after ih =>
    by_cases hfailed : ∃ cause, event = .failed cause
    · obtain ⟨cause, rfl⟩ := hfailed
      exact ⟨before, _, rfl, .inr ⟨h, cause, after, rfl⟩⟩
    · rw [not_exists] at hfailed
      rw [List.append_cons]
      by_cases hs : Settled (before ++ [event])
      · exact ⟨_, after, rfl, .inl (h.stopsAt (.inl hs) hfailed)⟩
      · have hstops : StopsAt (before ++ [event]) [] := h.stopsAt (.inr rfl) hfailed
        exact ih ⟨hs, hstops.sound⟩

theorem read_cases (ho : Offered results) :
    (∃ before after, results = before ++ after ∧ StopsAt before after ∧
      read results = (.ok (gathered before), after)) ∨
    ∃ before cause after, results = before ++ .failed cause :: after ∧ Pending before ∧
      read results = (.error cause, after) := by
  obtain ⟨before, after, he, hstop⟩ := pending_nil.exists_stop results
  obtain rfl : results = before ++ after := he
  rcases hstop with hstop | ⟨hpending, cause, rest, rfl⟩
  · exact .inl ⟨before, after, rfl, hstop, hstop.read_eq ho⟩
  · exact .inr ⟨before, cause, rest, rfl, hpending, hpending.read_failed ho⟩

theorem read_ok_iff (ho : Offered results) {rest : List ReadEvent} :
    read results = (.ok raw, rest) ↔
      ∃ before, results = before ++ rest ∧ gathered before = raw ∧ StopsAt before rest := by
  constructor
  · intro h
    rcases read_cases ho with ⟨before, after, he, hstop, hread⟩ | ⟨_, _, _, _, _, hread⟩
    · cases hread.symm.trans h
      exact ⟨before, he, rfl, hstop⟩
    · cases hread.symm.trans h
  · rintro ⟨before, rfl, rfl, hstop⟩
    exact hstop.read_eq ho

theorem read_error_iff (ho : Offered results) {cause : SystemError} {rest : List ReadEvent} :
    read results = (.error cause, rest) ↔
      ∃ before, results = before ++ .failed cause :: rest ∧ Pending before := by
  constructor
  · intro h
    rcases read_cases ho with ⟨_, _, _, _, hread⟩ | ⟨before, other, after, he, hpending, hread⟩
    · cases hread.symm.trans h
    · cases hread.symm.trans h
      exact ⟨before, he, hpending⟩
  · rintro ⟨before, rfl, hpending⟩
    exact hpending.read_failed ho

/-- Reading is the same without the interrupted reads. -/
theorem readFrom_uninterrupted (raw : Bytes) (results : List ReadEvent) :
    (readFrom raw (results.filter (· ≠ .interrupted))).1 = (readFrom raw results).1 := by
  fun_induction readFrom raw results with
  | case1 raw events hdone => rw [readFrom_complete hdone]
  | case2 raw hdone => rw [List.filter_nil, readFrom_nil]
  | case3 raw hdone rest ih => rwa [List.filter_cons_of_neg (by simp)]
  | case4 raw hdone cause rest =>
    rw [List.filter_cons_of_pos (by simp), readFrom_failed (Bool.eq_false_iff.mpr hdone)]
  | case5 raw hdone rest =>
    rw [List.filter_cons_of_pos (by simp), readFrom_ended (Bool.eq_false_iff.mpr hdone)]
  | case6 raw hdone bytes rest hne hfits ih =>
    rw [List.filter_cons_of_pos (by simp), readFrom_data (Bool.eq_false_iff.mpr hdone) hne hfits, ih]
  | case7 raw hdone bytes rest hne hlong ih =>
    rw [List.filter_cons_of_pos (by simp)] at ih ⊢
    rw [readFrom.eq_def, dif_neg hdone]
    simp only [dif_neg hne, if_neg hlong, ih]

/-- Reads that bring no more than the largest size in all are offered room for what they bring. -/
theorem offered_of_room (hchunk : ∀ bytes, .data bytes ∈ results → bytes.length ≤ chunkSize)
    (htotal : (gathered results).length ≤ maxRequestSize) : Offered results := by
  rintro before bytes after rfl -
  have hbytes := hchunk bytes (List.mem_append_right before (.head _))
  rw [List.append_cons, gathered_append, gathered_concat, ReadEvent.bytes, List.length_append,
    List.length_append] at htotal
  rw [limit]
  omega

/-- What reading makes of the results of the reads, as far as these keep to the room that they are
offered. It takes them up to the first moment at which the headers have ended in what was brought,
wherever the reads cut it, or it has the largest size, or the stream is over; it gives just what was
brought till then, never more than the largest size, and leaves the results behind that moment. It
fails where a failure comes before that moment, with this failure. Interrupted reads make no
difference. -/
theorem read_until_settled (ho : Offered results) :
    (∀ raw rest, read results = (.ok raw, rest) ↔
      ∃ before, results = before ++ rest ∧ gathered before = raw ∧ StopsAt before rest) ∧
    (∀ cause rest, read results = (.error cause, rest) ↔
      ∃ before, results = before ++ .failed cause :: rest ∧ Pending before) ∧
    (∀ raw rest, read results = (.ok raw, rest) → raw.length ≤ maxRequestSize) ∧
    (read (results.filter (· ≠ .interrupted))).1 = (read results).1 :=
  ⟨fun _ _ => read_ok_iff ho, fun _ _ => read_error_iff ho,
    fun _ _ h => readFrom_length_le (Nat.zero_le _) h, readFrom_uninterrupted [] results⟩

/-- The end of the headers in two reads, with an interrupted one between them and a failure behind. -/
theorem read_until_settled_cut_end :
    let front := Utf8.ofString "GET / HTTP/1.0\r\n\r"
    let back := Utf8.ofString "\nX"
    let results := [.data front, .interrupted, .data back, .failed .connectionReset]
    Offered results ∧ read results = (.ok (front ++ back), [.failed .connectionReset]) := by
  intro front back results
  have ho : Offered results := by
    refine offered_of_room ?_ (by decide +kernel)
    intro bytes hb
    simp only [results, List.mem_cons, ReadEvent.data.injEq, reduceCtorEq, List.not_mem_nil, false_or,
      or_false] at hb
    rcases hb with rfl | rfl <;> decide +kernel
  have hpending : Pending [.data front, .interrupted] := by
    refine ⟨?_, by simp⟩
    rw [settled_iff]
    rintro (h | h)
    · exact absurd h (by decide +kernel)
    · exact absurd h (by decide +kernel)
  have hsettled : Settled [.data front, .interrupted, .data back] :=
    (settled_iff _).mpr (.inl (by decide +kernel))
  have hstops : StopsAt [.data front, .interrupted, .data back] [.failed .connectionReset] :=
    hpending.stopsAt (.inl hsettled) nofun
  exact ⟨ho, ((read_until_settled ho).1 _ _).mpr ⟨_, rfl, rfl, hstops⟩⟩

end RequestReader

end PooledHttp
