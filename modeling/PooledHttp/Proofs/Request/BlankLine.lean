import PooledHttp.Proofs.Request.Grammar
import PooledHttp.Proofs.Request.Stopping

/-! Where the headers end for the one who reads them, and where for the one who takes them apart. To
the parser a line is blank if it holds nothing but carriage returns, however many. The reader sees
the end at a blank line of a line feed alone, and at one of CR LF behind a line that ends the same
way; at any other it goes on reading, although nothing that comes can change the request. -/

namespace PooledHttp

namespace RequestReader

/-- Up to the end of a blank line: the line feed of the line before, so many carriage returns, and a
line feed. -/
def toBlankLine (front : Bytes) (returns : Nat) : Bytes :=
  front ++ 10 :: (List.replicate returns 13 ++ [10])

/-- The blank line ends as a pattern does that the reader looks for. -/
def Evident (front : Bytes) (returns : Nat) : Prop :=
  returns = 0 ∨ returns = 1 ∧ front.getLast? = some 13

/-- The first blank line behind another line. -/
structure FirstBlank (raw front : Bytes) (returns : Nat) (back : Bytes) : Prop where
  bytes : raw = toBlankLine front returns ++ back
  first : ∀ other count after, raw = toBlankLine other count ++ after → front.length ≤ other.length

variable {raw front back other after : Bytes} {returns count : Nat}

theorem toBlankLine_append (front : Bytes) (returns : Nat) (back : Bytes) :
    toBlankLine front returns ++ back = front ++ 10 :: (List.replicate returns 13 ++ 10 :: back) := by
  simp [toBlankLine]

theorem exists_firstBlank (h : raw = toBlankLine front returns ++ back) :
    ∃ front returns back, FirstBlank raw front returns back := by
  induction hk : front.length using Nat.strongRecOn generalizing front returns back with
  | _ k ih =>
    by_cases hshorter : ∃ other count after, raw = toBlankLine other count ++ after ∧ other.length < k
    · obtain ⟨other, count, after, hother, hlt⟩ := hshorter
      exact ih other.length hlt hother rfl
    · refine ⟨front, returns, back, h, fun other count after hother => ?_⟩
      by_contra hlt
      exact hshorter ⟨other, count, after, hother, by omega⟩

/-- The end of the headers, as the reader looks for it, is the end of a blank line. -/
theorem hasHeaderEnd_iff_evident (raw : Bytes) :
    hasHeaderEnd raw = true ↔
      ∃ front returns back, raw = toBlankLine front returns ++ back ∧ Evident front returns := by
  rw [hasHeaderEnd_iff_contains]
  constructor
  · rintro (⟨front, back, rfl⟩ | ⟨front, back, rfl⟩)
    · refine ⟨front ++ [13], 1, back, ?_, .inr ⟨rfl, List.getLast?_concat⟩⟩
      simp [toBlankLine]
    · refine ⟨front, 0, back, ?_, .inl rfl⟩
      simp [toBlankLine]
  · rintro ⟨front, returns, back, rfl, rfl | ⟨rfl, hlast⟩⟩
    · exact .inr ⟨front, back, by simp [toBlankLine]⟩
    · obtain ⟨before, rfl⟩ := List.getLast?_eq_some_iff.mp hlast
      exact .inl ⟨before, back, by simp [toBlankLine]⟩

/-- What has a line feed in it ends no sooner than the carriage returns before the first one. -/
theorem returns_prefix {middle rest : Bytes}
    (h : List.replicate returns 13 ++ 10 :: back = middle ++ 10 :: rest) :
    ∃ more, middle = List.replicate returns 13 ++ more := by
  induction returns generalizing middle with
  | zero => exact ⟨middle, rfl⟩
  | succ n ih =>
    rw [List.replicate_succ, List.cons_append] at h
    cases middle with
    | nil => cases h
    | cons b middle =>
      obtain ⟨rfl, hrest⟩ := List.cons.inj h
      obtain ⟨more, rfl⟩ := ih hrest
      exact ⟨more, rfl⟩

/-- Two blank lines have no more in common than the line feed between them. -/
theorem blankLines_apart (h : toBlankLine front returns ++ back = toBlankLine other count ++ after)
    (hle : front.length ≤ other.length) :
    front = other ∧ returns = count ∨
      ∃ more, other = front ++ 10 :: (List.replicate returns 13 ++ more) := by
  rw [toBlankLine_append, toBlankLine_append] at h
  obtain ⟨middle, rfl⟩ : front <+: other :=
    List.prefix_of_prefix_length_le (List.prefix_append front _) (h ▸ List.prefix_append other _) hle
  rw [List.append_assoc, List.append_cancel_left_eq] at h
  cases middle with
  | nil =>
    rw [List.nil_append, List.cons.injEq] at h
    obtain ⟨more, hmore⟩ := returns_prefix h.2
    obtain ⟨less, hless⟩ := returns_prefix h.2.symm
    have hcount := congrArg List.length hmore
    have hreturns := congrArg List.length hless
    simp only [List.length_append, List.length_replicate] at hcount hreturns
    exact .inl ⟨(List.append_nil front).symm, by omega⟩
  | cons b middle =>
    obtain ⟨rfl, hrest⟩ := List.cons.inj h
    obtain ⟨more, rfl⟩ := returns_prefix hrest
    exact .inr ⟨more, rfl⟩

/-- The reader sees the end at the first blank line, or at a later one. -/
theorem FirstBlank.hasHeaderEnd_iff (h : FirstBlank raw front returns back) :
    hasHeaderEnd raw = true ↔
      Evident front returns ∨ hasHeaderEnd (List.replicate returns 13 ++ 10 :: back) = true := by
  constructor
  · intro hend
    obtain ⟨other, count, after, hother, hevident⟩ := (hasHeaderEnd_iff_evident raw).mp hend
    rcases blankLines_apart (h.bytes.symm.trans hother) (h.first _ _ _ hother) with
      ⟨rfl, rfl⟩ | ⟨more, rfl⟩
    · exact .inl hevident
    · refine .inr ((hasHeaderEnd_iff_evident _).mpr
        ⟨List.replicate returns 13 ++ more, count, after, ?_, ?_⟩)
      · have he := h.bytes.symm.trans hother
        simpa [toBlankLine] using he
      · refine hevident.imp_right fun hreturn => ⟨hreturn.1, ?_⟩
        have hlast := hreturn.2
        rw [List.getLast?_append, List.getLast?_cons] at hlast
        cases hl : (List.replicate returns 13 ++ more).getLast? with
        | none => simp [hl] at hlast
        | some b => simpa [hl] using hlast
  · rintro (hevident | hlater)
    · exact (hasHeaderEnd_iff_evident raw).mpr ⟨front, returns, back, h.bytes, hevident⟩
    · rw [hasHeaderEnd_iff_contains] at hlater ⊢
      have hsuffix : List.replicate returns 13 ++ 10 :: back <:+ raw := by
        rw [h.bytes, toBlankLine_append]
        exact ⟨front ++ [10], List.append_assoc _ _ _⟩
      exact hlater.imp (·.trans hsuffix.isInfix) (·.trans hsuffix.isInfix)

/-- Where nothing is left behind the first blank line, this is the only one. -/
theorem FirstBlank.hasHeaderEnd_here (h : FirstBlank raw front returns back) :
    hasHeaderEnd (toBlankLine front returns) = true ↔ Evident front returns := by
  have hhere : FirstBlank (toBlankLine front returns) front returns [] := by
    refine ⟨(List.append_nil _).symm, fun other count after hother => ?_⟩
    refine h.first other count (after ++ back) ?_
    rw [h.bytes, hother, List.append_assoc]
  rw [hhere.hasHeaderEnd_iff, or_iff_left]
  intro hend
  obtain ⟨other, count, after, hother, -⟩ := (hasHeaderEnd_iff_evident _).mp hend
  have hfeeds := congrArg (List.count 10) hother
  simp [toBlankLine, List.count_replicate] at hfeeds
  omega

end RequestReader

namespace Request

open Blank RequestReader

/-- A blank line of a text, as the parser takes it apart. -/
theorem Lines.exists_blank {text first : List Char} {rest : List (List Char)}
    (h : Lines text (first :: rest)) (hblank : [] ∈ rest.dropLast) :
    ∃ front returns back, text = front ++ '\n' :: (List.replicate returns '\r' ++ '\n' :: back) := by
  induction rest generalizing text first with
  | nil => cases hblank
  | cons line rest ih =>
    cases h with
    | @more piece _ later _ hpiece hline hrest =>
      cases rest with
      | nil => cases hblank
      | cons next rest =>
        rw [List.dropLast_cons_cons, List.mem_cons] at hblank
        rcases hblank with rfl | hblank
        · cases hrest with
          | @more _ _ back _ _ hchopped _ =>
            obtain ⟨-, returns, rfl⟩ := hchopped
            exact ⟨piece, returns, back, rfl⟩
        · obtain ⟨front, returns, back, rfl⟩ := ih hrest hblank
          exact ⟨piece ++ '\n' :: front, returns, back, by simp⟩

theorem encode_returns (n : Nat) : Utf8.encode (List.replicate n '\r') = List.replicate n 13 := by
  induction n with
  | zero => rfl
  | succ n ih =>
    rw [List.replicate_succ, List.replicate_succ, ← ih]
    rfl

theorem encode_toBlankLine (front back : List Char) (returns : Nat) :
    Utf8.encode (front ++ '\n' :: (List.replicate returns '\r' ++ '\n' :: back)) =
      toBlankLine (Utf8.encode front) returns ++ Utf8.encode back := by
  rw [toBlankLine_append, ← encode_returns, Utf8.encode_append, ← List.singleton_append,
    Utf8.encode_append, Utf8.encode_append, ← List.singleton_append, Utf8.encode_append]
  rfl

theorem decode?_toBlankLine (front back : Bytes) (returns : Nat) :
    Utf8.decode? (toBlankLine front returns ++ back) =
      (Utf8.decode? front).bind fun before => (Utf8.decode? back).map fun later =>
        before ++ '\n' :: (List.replicate returns '\r' ++ '\n' :: later) := by
  rw [toBlankLine_append, Utf8.decode?_ascii (by decide), Utf8.decode?_ascii (by decide),
    ← encode_returns, Utf8.decode?_encode]
  cases Utf8.decode? front <;> cases Utf8.decode? back <;> rfl

/-- The lines of the headers end at a blank line, whatever comes behind it. -/
theorem opens_toBlankLine {front first : List Char} {rest : List (List Char)} (returns : Nat)
    (h : requestLines front = first :: rest) (back : List Char) :
    Opens (front ++ '\n' :: (List.replicate returns '\r' ++ '\n' :: back)) first
      (rest.takeWhile fun line => !isBlankLine line) := by
  have hreturns : requestLines (List.replicate returns '\r') = [[]] := by
    refine requestLines_piece (fun hmem => ?_) ⟨nofun, returns, rfl⟩
    cases List.eq_of_mem_replicate hmem
  refine ⟨rest ++ [] :: requestLines back, ?_, ?_⟩
  · rw [← requestLines_eq_iff, requestLines_append, requestLines_append, hreturns, h]
    rfl
  · rw [← head_iff, takeWhile_append_stop rest (requestLines back) (by decide)]

/-- Behind a blank line there is nothing that the parser would look at. -/
theorem parse_toBlankLine {front back : Bytes} {returns : Nat} {text first : List Char}
    {rest : List (List Char)} {line : RequestLine}
    (hdecode : Utf8.decode? (toBlankLine front returns ++ back) = some text)
    (hlines : requestLines text = first :: rest) (hline : RequestLine.read first = .ok line) :
    parse (toBlankLine front returns ++ back) = parse (toBlankLine front returns) := by
  have hhere := decode?_toBlankLine front [] returns
  rw [List.append_nil] at hhere
  rw [parse, parse, hdecode, hhere]
  rw [decode?_toBlankLine] at hdecode
  obtain ⟨before, hbefore, hlater⟩ := Option.bind_eq_some_iff.mp hdecode
  obtain ⟨later, -, rfl⟩ := Option.map_eq_some_iff.mp hlater
  obtain ⟨start, others, hstart⟩ := List.exists_cons_of_ne_nil (l := requestLines before)
    (by simp [requestLines, List.splitOn_ne_nil])
  have hopens := opens_toBlankLine returns hstart
  obtain ⟨all, hall, -⟩ := hopens later
  obtain rfl : start = first := by
    rw [hall.requestLines_eq] at hlines
    exact (List.cons.inj hlines).1
  -- a line with a method on it is not blank
  have hsome : ∀ tail, ¬ AllBlank
      (before ++ '\n' :: (List.replicate returns '\r' ++ '\n' :: tail)) := by
    intro tail hblank
    have hnone := ((hopens tail).allBlank hblank).words
    rw [RequestLine.read, hnone] at hline
    cases hline
  rw [hbefore]
  exact ((hopens later).ofText_eq (hsome later)).trans ((hopens []).ofText_eq (hsome [])).symm

/-- The first blank line behind a request line ends what the parser looks at. Where it is one that the
reader looks for, a line feed alone or CR LF behind CR LF, the reader stops there, whatever else is to
come. Where it is another, nothing but a later blank line shows the reader an end of the headers: it
asks for more, and fails with the next read. -/
theorem reader_stops_at_blank_line {raw : Bytes} {text first : List Char} {rest : List (List Char)}
    {line : RequestLine} (hdecode : Utf8.decode? raw = some text)
    (hlines : requestLines text = first :: rest) (hline : RequestLine.read first = .ok line)
    (hblank : [] ∈ rest.dropLast) :
    ∃ front returns back, FirstBlank raw front returns back ∧
      parse raw = parse (toBlankLine front returns) ∧
      (hasHeaderEnd raw = true ↔ Evident front returns ∨
        hasHeaderEnd (List.replicate returns 13 ++ 10 :: back) = true) ∧
      (Evident front returns → ∀ events,
        readFrom (toBlankLine front returns) events = (.ok (toBlankLine front returns), events)) ∧
      (¬ Evident front returns → (toBlankLine front returns).length < maxRequestSize →
        ∀ cause events, readFrom (toBlankLine front returns) (.failed cause :: events) =
          (.error cause, events)) := by
  obtain ⟨before, count, later, rfl⟩ := (requestLines_eq_iff.mp hlines).exists_blank hblank
  have hraw : raw = toBlankLine (Utf8.encode before) count ++ Utf8.encode later := by
    rw [← encode_toBlankLine, Utf8.encode_of_decode? hdecode]
  obtain ⟨front, returns, back, hfirst⟩ := exists_firstBlank hraw
  have hbytes := hfirst.bytes
  refine ⟨front, returns, back, hfirst, ?_, hfirst.hasHeaderEnd_iff, ?_, ?_⟩
  · rw [hbytes] at hdecode ⊢
    exact parse_toBlankLine hdecode hlines hline
  · intro hevident events
    refine readFrom_complete ?_ events
    rw [isComplete, hfirst.hasHeaderEnd_here.mpr hevident, Bool.or_true]
  · intro hevident hshort cause events
    refine readFrom_failed ?_ cause events
    rw [isComplete, Bool.or_eq_false_iff, decide_eq_false_iff_not, Nat.not_le]
    exact ⟨hshort, Bool.eq_false_iff.mpr (mt hfirst.hasHeaderEnd_here.mp hevident)⟩

/-- A line that ends in CR LF, and behind it a blank one of a line feed alone. -/
theorem reader_stops_at_blank_line_mixed :
    let raw := Utf8.ofString "GET / HTTP/1.0\r\n\nX"
    let first := "GET / HTTP/1.0".toList
    let rest := [[], ['X']]
    Utf8.decode? raw = some "GET / HTTP/1.0\r\n\nX".toList ∧
      requestLines "GET / HTTP/1.0\r\n\nX".toList = first :: rest ∧
      RequestLine.read first = .ok ⟨.get, ['/'], .http10⟩ ∧ [] ∈ rest.dropLast ∧
      ∃ front returns back, FirstBlank raw front returns back ∧
        parse raw = parse (toBlankLine front returns) := by
  intro raw first rest
  have hdecode : Utf8.decode? raw = some "GET / HTTP/1.0\r\n\nX".toList := Utf8.decode?_encode _
  have hlines : requestLines "GET / HTTP/1.0\r\n\nX".toList = first :: rest := by decide +kernel
  have hline : RequestLine.read first = .ok ⟨.get, ['/'], .http10⟩ := by decide +kernel
  have hblank : [] ∈ rest.dropLast := by decide
  obtain ⟨front, returns, back, hfirst, hparse, -⟩ :=
    reader_stops_at_blank_line hdecode hlines hline hblank
  exact ⟨hdecode, hlines, hline, hblank, front, returns, back, hfirst, hparse⟩

/-- A request that is complete, down to its blank line, and for which the reader wants to see more: the
request line ends in a line feed alone, and the blank line in CR LF. -/
theorem reader_misses_blank_line :
    let raw := Utf8.ofString "GET / HTTP/1.0\n\r\n"
    let first := "GET / HTTP/1.0".toList
    let rest := [[], []]
    Utf8.decode? raw = some "GET / HTTP/1.0\n\r\n".toList ∧
      requestLines "GET / HTTP/1.0\n\r\n".toList = first :: rest ∧
      RequestLine.read first = .ok ⟨.get, ['/'], .http10⟩ ∧ [] ∈ rest.dropLast ∧
      parse raw = .ok ⟨.get, "/", "/", "", .http10, []⟩ ∧ hasHeaderEnd raw = false ∧
      RequestReader.read [.data raw, .failed .timedOut] = (.error .timedOut, []) := by
  intro raw first rest
  have hend : hasHeaderEnd raw = false := by decide +kernel
  have hread : RequestReader.read [.data raw, .failed .timedOut] = (.error .timedOut, []) := by
    rw [RequestReader.read, readFrom_data rfl (by decide) (by decide), List.nil_append,
      readFrom_failed (by decide +kernel)]
  exact ⟨Utf8.decode?_encode _, by decide +kernel, by decide +kernel, by decide, by decide +kernel,
    hend, hread⟩

end Request

end PooledHttp
