import PooledHttp.Proofs.Request.Headers
import PooledHttp.Proofs.Text.Utf8
import PooledHttp.RequestReader

/-! How the cut of a stream into reads shows in the request. The read that brings the end of the
headers may bring more. What it brings beyond that end changes nothing, unless it is ill-formed text,
as where the read ends inside a character, or the first text after a head of white space. -/

namespace PooledHttp

namespace RequestReader

theorem hasHeaderEnd_iff (raw : Bytes) :
    hasHeaderEnd raw = true ↔
      ∃ front, ∃ mark ∈ terminators, ∃ back, raw = front ++ (mark ++ back) := by
  induction raw with
  | nil =>
    refine ⟨nofun, ?_⟩
    rintro ⟨front, mark, hm, back, he⟩
    have hnil : mark = [] := by simp_all
    exact absurd hm (by simp [hnil, terminators])
  | cons b rest ih =>
    rw [hasHeaderEnd, Bool.or_eq_true, ih, List.any_eq_true]
    refine ⟨?_, ?_⟩
    · rintro (⟨mark, hm, hpre⟩ | ⟨front, mark, hm, back, rfl⟩)
      · obtain ⟨back, hb⟩ := List.isPrefixOf_iff_prefix.mp hpre
        exact ⟨[], mark, hm, back, hb.symm⟩
      · exact ⟨b :: front, mark, hm, back, rfl⟩
    · rintro ⟨front, mark, hm, back, he⟩
      cases front with
      | nil => exact .inl ⟨mark, hm, List.isPrefixOf_iff_prefix.mpr ⟨back, he.symm⟩⟩
      | cons c front => exact .inr ⟨front, mark, hm, back, (List.cons.inj he).2⟩

/-- Goes on from `seen` to where the headers end for the first time, or to the end. -/
def headAfter (seen : Bytes) : Bytes → Bytes
  | [] => seen
  | b :: rest => if hasHeaderEnd seen then seen else headAfter (seen ++ [b]) rest

def window (stream : Bytes) : Bytes := stream.take maxRequestSize

/-- The shortest part of a stream that must be read for an answer. -/
def head (stream : Bytes) : Bytes := headAfter [] (window stream)

theorem headAfter_prefix (seen rest : Bytes) : headAfter seen rest <+: seen ++ rest := by
  induction rest generalizing seen with
  | nil => exact List.prefix_append seen []
  | cons b rest ih =>
    rw [headAfter]
    split
    · exact List.prefix_append seen (b :: rest)
    · simpa only [List.append_assoc, List.singleton_append] using ih (seen ++ [b])

theorem headAfter_ends (seen rest : Bytes) :
    hasHeaderEnd (headAfter seen rest) = true ∨ headAfter seen rest = seen ++ rest := by
  induction rest generalizing seen with
  | nil => exact .inr (List.append_nil seen).symm
  | cons b rest ih =>
    rw [headAfter]
    split
    · next hs => exact .inl hs
    · simpa only [List.append_assoc, List.singleton_append] using ih (seen ++ [b])

theorem headAfter_le {seen rest other : Bytes} (hseen : seen <+: other)
    (hother : other <+: seen ++ rest) (h : hasHeaderEnd other = true) :
    headAfter seen rest <+: other := by
  induction rest generalizing seen with
  | nil => exact hseen
  | cons b rest ih =>
    rw [headAfter]
    split
    · exact hseen
    · next hs =>
      obtain ⟨more, rfl⟩ := hseen
      have hmore : more <+: b :: rest := (List.prefix_append_right_inj seen).mp hother
      cases more with
      | nil => exact absurd (by simpa using h) hs
      | cons c more =>
        obtain ⟨rfl, hrest⟩ := List.cons_prefix_cons.mp hmore
        have hassoc : seen ++ c :: more = (seen ++ [c]) ++ more := List.append_cons seen c more
        refine ih ?_ ?_
        · rw [hassoc]
          exact List.prefix_append (seen ++ [c]) more
        · rw [hassoc]
          exact (List.prefix_append_right_inj (seen ++ [c])).mpr hrest

/-- The events are the stream in reads that are not empty. Interrupted reads may lie between. -/
inductive Delivers : List ReadEvent → Bytes → Prop
  | ended : Delivers [] []
  | interrupted {events stream} (h : Delivers events stream) :
    Delivers (.interrupted :: events) stream
  | data {bytes events stream} (hne : bytes ≠ []) (h : Delivers events stream) :
    Delivers (.data bytes :: events) (bytes ++ stream)

theorem limit_add_le {raw : Bytes} (h : raw.length ≤ maxRequestSize) :
    raw.length + limit raw ≤ maxRequestSize := by
  simp only [limit]
  omega

theorem window_append {raw : Bytes} (hle : raw.length ≤ maxRequestSize) (stream : Bytes) :
    window (raw ++ stream) = raw ++ stream.take (maxRequestSize - raw.length) := by
  rw [window, List.take_append, List.take_of_length_le hle]

/-- What the reader may have when it goes on from `raw`: it stops at an end of headers, or with all
that it is to read. -/
structure Stops (raw stream out : Bytes) : Prop where
  onward : raw <+: out
  within : out <+: window (raw ++ stream)
  stops : hasHeaderEnd out = true ∨ out = window (raw ++ stream)

theorem stops_now {raw stream : Bytes} (hle : raw.length ≤ maxRequestSize)
    (h : isComplete raw = true ∨ stream = []) : Stops raw stream raw := by
  have hw := window_append hle stream
  refine ⟨List.prefix_rfl, hw ▸ List.prefix_append raw _, ?_⟩
  rcases h with h | rfl
  · rw [isComplete, Bool.or_eq_true, decide_eq_true_eq] at h
    rcases h with hfull | hend
    · have hz : maxRequestSize - raw.length = 0 := by omega
      rw [hz, List.take_zero, List.append_nil] at hw
      exact .inr hw.symm
    · exact .inl hend
  · exact .inr (by rw [hw, List.take_nil, List.append_nil])

theorem Stops.of_append {raw front back out : Bytes} (h : Stops (raw ++ front) back out) :
    Stops raw (front ++ back) out := by
  obtain ⟨honward, hwithin, hstops⟩ := h
  rw [List.append_assoc] at hwithin hstops
  exact ⟨(List.prefix_append raw front).trans honward, hwithin, hstops⟩

theorem Delivers.readFrom {events : List ReadEvent} {stream : Bytes} (h : Delivers events stream)
    {raw : Bytes} (hle : raw.length ≤ maxRequestSize) :
    ∃ out, (readFrom raw events).1 = .ok out ∧ Stops raw stream out := by
  fun_induction RequestReader.readFrom raw events generalizing stream with
  | case1 raw events hdone => exact ⟨raw, rfl, stops_now hle (.inl hdone)⟩
  | case2 raw hdone =>
    cases h
    exact ⟨raw, rfl, stops_now hle (.inr rfl)⟩
  | case3 raw hdone rest ih =>
    cases h with
    | interrupted h => exact ih h hle
  | case4 raw hdone cause rest => cases h
  | case5 raw hdone rest =>
    cases h with
    | data hne h => exact absurd rfl hne
  | case6 raw hdone bytes rest hne hfits ih =>
    cases h with
    | data _ h =>
      have hlen : (raw ++ bytes).length ≤ maxRequestSize := by
        rw [List.length_append]
        exact (Nat.add_le_add_left hfits _).trans (limit_add_le hle)
      obtain ⟨out, hout, hstops⟩ := ih h hlen
      exact ⟨out, hout, hstops.of_append⟩
  | case7 raw hdone bytes rest hne hlong ih =>
    cases h with
    | @data _ _ stream _ h =>
      have hlen : (raw ++ bytes.take (limit raw)).length ≤ maxRequestSize := by
        rw [List.length_append]
        exact (Nat.add_le_add_left (List.length_take_le _ _) _).trans (limit_add_le hle)
      have hrest : bytes.drop (limit raw) ≠ [] := by
        rw [ne_eq, List.drop_eq_nil_iff]
        exact hlong
      obtain ⟨out, hout, hstops⟩ := ih (.data hrest h) hlen
      have hmerge := hstops.of_append
      rw [← List.append_assoc, List.take_append_drop] at hmerge
      exact ⟨out, hout, hmerge⟩

/-- A delivery is read up to the end of its headers at least. -/
theorem Delivers.read {events : List ReadEvent} {stream : Bytes} (h : Delivers events stream) :
    ∃ extra, (read events).1 = .ok (head stream ++ extra) ∧
      head stream ++ extra <+: window stream := by
  have hnil : ([] : Bytes).length ≤ maxRequestSize := Nat.zero_le _
  obtain ⟨out, hout, hstops⟩ := h.readFrom hnil
  have hhead : head stream <+: out := by
    rcases hstops.stops with hend | hall
    · exact headAfter_le List.nil_prefix hstops.within hend
    · rw [hall]
      exact headAfter_prefix [] (window stream)
  obtain ⟨extra, rfl⟩ := hhead
  exact ⟨extra, hout, hstops.within⟩

theorem readFrom_complete {raw : Bytes} (hc : isComplete raw = true) (events : List ReadEvent) :
    readFrom raw events = (.ok raw, events) := by
  rw [readFrom.eq_def, dif_pos hc]

theorem readFrom_data {raw bytes : Bytes} (hc : isComplete raw = false) (hne : bytes ≠ [])
    (hle : bytes.length ≤ limit raw) (events : List ReadEvent) :
    readFrom raw (.data bytes :: events) = readFrom (raw ++ bytes) events := by
  rw [readFrom.eq_def, dif_neg (Bool.eq_false_iff.mp hc)]
  simp only [dif_neg hne, if_pos hle]

end RequestReader

namespace Request

open Blank RequestReader

/-- What comes after the head makes the request another one. -/
def spoils (front extra : Bytes) : Bool :=
  match Utf8.decode? extra with
  | none => true
  | some text => !isBlankLine text && (Utf8.decode? front).any isBlankLine

theorem decode?_marked {front mark : Bytes} (hm : mark ∈ terminators) :
    (∀ extra, Utf8.decode? (front ++ mark ++ extra) = none) ∨
    ∃ before line, IsBare line ∧ ∀ extra, Utf8.decode? (front ++ mark ++ extra) =
      (Utf8.decode? extra).map fun after => before ++ '\n' :: (line ++ '\n' :: after) := by
  simp only [terminators, List.mem_cons, List.not_mem_nil, or_false] at hm
  cases hf : Utf8.decode? front with
  | none =>
    refine .inl ?_
    intro extra
    rcases hm with rfl | rfl <;>
      rw [List.append_assoc, List.cons_append, Utf8.decode?_ascii (by decide), hf, Option.bind_none]
  | some before =>
    refine .inr ?_
    rcases hm with rfl | rfl
    · refine ⟨before ++ ['\r'], ['\r'], .inr rfl, ?_⟩
      intro extra
      rw [List.append_assoc]
      change Utf8.decode? (front ++ 13 :: ([] ++ 10 :: ([] ++ 13 :: ([] ++ 10 :: extra)))) = _
      rw [Utf8.decode?_ascii (by decide), Utf8.decode?_ascii (by decide),
        Utf8.decode?_ascii (by decide), Utf8.decode?_ascii (by decide), hf]
      cases Utf8.decode? extra <;> simp [Utf8.decode?, Utf8.scan, Utf8.scanFrom]
    · refine ⟨before, [], .inl rfl, ?_⟩
      intro extra
      rw [List.append_assoc]
      change Utf8.decode? (front ++ 10 :: ([] ++ 10 :: extra)) = _
      rw [Utf8.decode?_ascii (by decide), Utf8.decode?_ascii (by decide), hf]
      cases Utf8.decode? extra <;> simp [Utf8.decode?, Utf8.scan, Utf8.scanFrom]

/-- What stands behind the end of the headers shows in two ways only, and both make the request one
without a request line. -/
theorem parse_marked {front mark : Bytes} (hm : mark ∈ terminators) (extra : Bytes) :
    parse (front ++ mark ++ extra) =
      if spoils (front ++ mark) extra then .error .requestLine else parse (front ++ mark) := by
  have hempty : Utf8.decode? [] = some [] := rfl
  rcases @decode?_marked front mark hm with hnone | ⟨before, line, hl, hsome⟩
  · have hhead : Utf8.decode? (front ++ mark) = none := by simpa using hnone []
    rw [parse, parse, hnone extra, hhead, ite_self]
  · have hhead : Utf8.decode? (front ++ mark) = some (before ++ '\n' :: (line ++ '\n' :: [])) := by
      simpa [hempty] using hsome []
    have hfront : isBlankLine (before ++ '\n' :: (line ++ '\n' :: [])) = true ↔ AllBlank before := by
      rw [isBlankLine_iff, allBlank_past_iff hl]
      exact and_iff_left allBlank_nil
    rw [parse, parse, hhead, hsome extra, spoils, hhead]
    cases hextra : Utf8.decode? extra with
    | none => rfl
    | some after =>
      simp only [Option.map_some, Option.any_some]
      by_cases hbefore : AllBlank before
      · rw [hfront.mpr hbefore]
        by_cases hafter : AllBlank after
        · rw [(isBlankLine_iff after).mpr hafter, ofText_blank ((allBlank_past_iff hl).mpr ⟨hbefore, hafter⟩),
            ofText_blank ((allBlank_past_iff hl).mpr ⟨hbefore, allBlank_nil⟩)]
          rfl
        · rw [Bool.eq_false_iff.mpr (mt (isBlankLine_iff after).mp hafter),
            ofText_blank_front hl hbefore hafter]
          rfl
      · rw [Bool.eq_false_iff.mpr (mt hfront.mp hbefore), Bool.and_false, ofText_past hl hbefore]
        rfl

theorem parse_head_append {stream extra : Bytes}
    (hw : head stream ++ extra <+: window stream) :
    parse (head stream ++ extra) =
      if spoils (head stream) extra then .error .requestLine else parse (head stream) := by
  rcases headAfter_ends [] (window stream) with hend | hall
  · -- the shortest part with an end of headers ends where the headers end
    obtain ⟨front, mark, hm, back, he⟩ := (hasHeaderEnd_iff _).mp hend
    change head stream = front ++ (mark ++ back) at he
    have hmarked : hasHeaderEnd (front ++ mark) = true :=
      (hasHeaderEnd_iff _).mpr ⟨front, mark, hm, [], by rw [List.append_nil]⟩
    have hshort : front ++ mark <+: head stream := by
      rw [he, ← List.append_assoc]
      exact List.prefix_append (front ++ mark) back
    have hle : head stream <+: front ++ mark :=
      headAfter_le List.nil_prefix (hshort.trans ((List.prefix_append _ extra).trans hw)) hmarked
    rw [hle.eq_of_length_le hshort.length_le]
    exact parse_marked hm extra
  · have hhead : head stream = window stream := hall
    have hnil : extra = [] := by
      have hlen := hw.length_le
      rw [hhead, List.length_append] at hlen
      exact List.length_eq_zero_iff.mp (by omega)
    rw [hnil, List.append_nil]
    rfl

/-- What the bytes that a connection delivers are taken for. -/
def received (events : List ReadEvent) : Except SystemError (Except RequestError Request) :=
  (read events).1.map parse

/-- Two deliveries of a stream bring the same request or the same error, except where one of them is
spoiled by what its last read brought behind the end of the headers, the other is not, and the head
that they share has a request line. -/
theorem received_eq_iff {stream : Bytes} {events others : List ReadEvent}
    (h : Delivers events stream) (h' : Delivers others stream) :
    ∃ extra extra', (read events).1 = .ok (head stream ++ extra) ∧
      (read others).1 = .ok (head stream ++ extra') ∧
      (received events = received others ↔
        (spoils (head stream) extra = spoils (head stream) extra' ∨
          parse (head stream) = .error .requestLine)) := by
  obtain ⟨extra, he, hw⟩ := h.read
  obtain ⟨extra', he', hw'⟩ := h'.read
  refine ⟨extra, extra', he, he', ?_⟩
  have hparse : received events = .ok (parse (head stream ++ extra)) := by
    rw [received, he, Except.map]
  have hparse' : received others = .ok (parse (head stream ++ extra')) := by
    rw [received, he', Except.map]
  rw [hparse, hparse', Except.ok.injEq, parse_head_append hw, parse_head_append hw']
  cases spoils (head stream) extra <;> cases spoils (head stream) extra' <;>
    simp [eq_comm]

/-- A report request with one character of two bytes behind its headers. -/
def postWithBody : Bytes := Utf8.ofString "POST / HTTP/1.0\r\n\r\né"

theorem delivers_cut (n : Nat) (h : postWithBody.take n ≠ []) (h' : postWithBody.drop n ≠ []) :
    Delivers [.data (postWithBody.take n), .data (postWithBody.drop n)] postWithBody := by
  have hd := Delivers.data h (.data h' .ended)
  rwa [List.append_nil, List.take_append_drop] at hd

theorem read_whole : (read [.data postWithBody]).1 = .ok postWithBody := by
  rw [RequestReader.read, readFrom_data rfl (by decide) (by decide), readFrom_complete (by decide +kernel)]
  rfl

theorem read_cut_line :
    (read [.data (postWithBody.take 9), .data (postWithBody.drop 9)]).1 = .ok postWithBody := by
  rw [RequestReader.read, readFrom_data rfl (by decide) (by decide),
    readFrom_data (by decide +kernel) (by decide) (by decide),
    readFrom_complete (by decide +kernel), List.nil_append, List.take_append_drop]

/-- Cut inside the request line, the stream brings what it brings uncut. -/
theorem received_eq_iff_cut_line :
    Delivers [.data postWithBody] postWithBody ∧
    Delivers [.data (postWithBody.take 9), .data (postWithBody.drop 9)] postWithBody ∧
    received [.data postWithBody] =
      received [.data (postWithBody.take 9), .data (postWithBody.drop 9)] := by
  have hwhole : Delivers [.data postWithBody] postWithBody := by
    have hd := Delivers.data (show postWithBody ≠ [] by decide) .ended
    rwa [List.append_nil] at hd
  have hcut := delivers_cut 9 (by decide) (by decide)
  refine ⟨hwhole, hcut, ?_⟩
  obtain ⟨extra, extra', he, he', hiff⟩ := received_eq_iff hwhole hcut
  have hread : (read [.data postWithBody]).1 =
      (read [.data (postWithBody.take 9), .data (postWithBody.drop 9)]).1 := by
    rw [read_whole, read_cut_line]
  rw [he, he', Except.ok.injEq, List.append_cancel_left_eq] at hread
  exact hiff.mpr (.inl (by rw [hread]))

/-- The same stream is a request, or is none, as the reads cut it: where the read that brings the
end of the headers ends inside a character, what was read is ill-formed text. -/
theorem received_depends_on_cut :
    Delivers [.data (postWithBody.take 9), .data (postWithBody.drop 9)] postWithBody ∧
    Delivers [.data (postWithBody.take 20), .data (postWithBody.drop 20)] postWithBody ∧
    received [.data (postWithBody.take 9), .data (postWithBody.drop 9)] =
      .ok (.ok ⟨.post, "/", "/", "", .http10, []⟩) ∧
    received [.data (postWithBody.take 20), .data (postWithBody.drop 20)] =
      .ok (.error .requestLine) ∧
    received [.data (postWithBody.take 9), .data (postWithBody.drop 9)] ≠
      received [.data (postWithBody.take 20), .data (postWithBody.drop 20)] := by
  have hline : received [.data (postWithBody.take 9), .data (postWithBody.drop 9)] =
      .ok (.ok ⟨.post, "/", "/", "", .http10, []⟩) := by
    have hparse : parse postWithBody = .ok ⟨.post, "/", "/", "", .http10, []⟩ := by decide +kernel
    rw [received, read_cut_line, Except.map, hparse]
  have hcharacter : received [.data (postWithBody.take 20), .data (postWithBody.drop 20)] =
      .ok (.error .requestLine) := by
    have hparse : parse ([] ++ postWithBody.take 20) = .error .requestLine := by decide +kernel
    rw [received, RequestReader.read, readFrom_data rfl (by decide) (by decide),
      readFrom_complete (by decide +kernel), Except.map, hparse]
  refine ⟨delivers_cut 9 (by decide) (by decide), delivers_cut 20 (by decide) (by decide), hline,
    hcharacter, ?_⟩
  rw [hline, hcharacter]
  simp

end Request

end PooledHttp
