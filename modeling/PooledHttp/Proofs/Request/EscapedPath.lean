import PooledHttp.Proofs.Request.Grammar
import PooledHttp.Proofs.Text.PercentEscape

/-! Every text can be asked for as a path: character by character it is written as it stands or in
percent escapes. The parser gives it back, whichever way each character was written. -/

namespace PooledHttp

namespace PercentEscape

open Blank

/-- Each byte as a percent sign and two hexadecimal digits. -/
inductive HexBytes : Bytes → List Char → Prop
  | nil : HexBytes [] []
  | cons {b : UInt8} {bytes : Bytes} {high low : Char} {m n : Nat} {code : List Char}
    (hhigh : HexDigit high m) (hlow : HexDigit low n) (hb : b.toNat = m * 16 + n)
    (hrest : HexBytes bytes code) : HexBytes (b :: bytes) ('%' :: high :: low :: code)

/-- Some characters stand for themselves, and the bytes of the others are escaped. -/
inductive Escaped : List Char → List Char → Prop
  | nil : Escaped [] []
  | literal {c : Char} {path escaped : List Char} (hpercent : c ≠ '%') (hmark : c ≠ '?')
    (hblank : isBlank c = false) (hrest : Escaped path escaped) : Escaped (c :: path) (c :: escaped)
  | hex {c : Char} {code path escaped : List Char}
    (hcode : HexBytes (String.utf8EncodeChar c) code) (hrest : Escaped path escaped) :
    Escaped (c :: path) (code ++ escaped)

theorem digitChar_plain : ∀ n < 16,
    ((Nat.digitChar n).toNat < 0x80 ∧ Nat.digitChar n ≠ '?' ∧ isBlank (Nat.digitChar n) = false) ∧
      (Nat.digitChar n).toUpper.toNat < 0x80 ∧ (Nat.digitChar n).toUpper ≠ '?' ∧
      isBlank (Nat.digitChar n).toUpper = false := by decide

theorem HexDigit.plain {c : Char} {n : Nat} (h : HexDigit c n) :
    c.toNat < 0x80 ∧ c ≠ '?' ∧ isBlank c = false := by
  obtain ⟨hn, rfl | rfl⟩ := h
  · exact (digitChar_plain n hn).1
  · exact (digitChar_plain n hn).2

theorem exists_hexBytes (bytes : Bytes) : ∃ code, HexBytes bytes code := by
  induction bytes with
  | nil => exact ⟨[], .nil⟩
  | cons b bytes ih =>
    obtain ⟨code, hcode⟩ := ih
    have hb := b.toNat_lt_size
    have hhigh : b.toNat / 16 < 16 := Nat.div_lt_of_lt_mul hb
    have hlow : b.toNat % 16 < 16 := Nat.mod_lt _ (by decide)
    exact ⟨_, .cons ⟨hhigh, .inl rfl⟩ ⟨hlow, .inl rfl⟩ (Nat.div_add_mod' b.toNat 16).symm hcode⟩

theorem exists_escaped (path : List Char) : ∃ escaped, Escaped path escaped := by
  induction path with
  | nil => exact ⟨[], .nil⟩
  | cons c path ih =>
    obtain ⟨escaped, hrest⟩ := ih
    obtain ⟨code, hcode⟩ := exists_hexBytes (String.utf8EncodeChar c)
    exact ⟨_, .hex hcode hrest⟩

theorem HexBytes.plain {bytes : Bytes} {code : List Char} (h : HexBytes bytes code) :
    ∀ c ∈ code, c ≠ '?' ∧ isBlank c = false := by
  induction h with
  | nil => exact List.forall_mem_nil _
  | cons hhigh hlow _ _ ih =>
    simp only [List.forall_mem_cons]
    exact ⟨by decide, hhigh.plain.2, hlow.plain.2, ih⟩

/-- So it is one word, and no question mark ends it. -/
theorem Escaped.plain {path escaped : List Char} (h : Escaped path escaped) :
    ∀ c ∈ escaped, c ≠ '?' ∧ isBlank c = false := by
  induction h with
  | nil => exact List.forall_mem_nil _
  | literal _ hmark hblank _ ih => exact List.forall_mem_cons.mpr ⟨⟨hmark, hblank⟩, ih⟩
  | hex hcode _ ih => exact List.forall_mem_append.mpr ⟨hcode.plain, ih⟩

theorem HexBytes.unescaped {bytes rest out : Bytes} {code : List Char} (h : HexBytes bytes code)
    (hrest : Unescaped Tolerated rest out) :
    Unescaped Tolerated (Utf8.encode code ++ rest) (bytes ++ out) := by
  induction h with
  | nil => exact hrest
  | @cons b bytes high low m n code hhigh hlow hb _ ih =>
    have hcode : Utf8.encode ('%' :: high :: low :: code) =
        percent :: UInt8.ofNat high.toNat :: UInt8.ofNat low.toNat :: Utf8.encode code := by
      have hpercent : ('%').toNat < 0x80 := by decide
      simp only [Utf8.encode, List.flatMap_cons, Utf8.encodeChar_low hpercent,
        Utf8.encodeChar_low hhigh.plain.1, Utf8.encodeChar_low hlow.plain.1]
      rfl
    have hbyte : b = UInt8.ofNat (m * 16 + n) := by rw [← hb, UInt8.ofNat_toNat]
    rw [hcode]
    exact .replace (.inl ⟨m, n, ⟨high, hhigh, rfl⟩, ⟨low, hlow, rfl⟩, hbyte⟩) ih

theorem Escaped.unescaped {path escaped : List Char} (h : Escaped path escaped) :
    Unescaped Tolerated (Utf8.encode escaped) (Utf8.encode path) := by
  induction h with
  | nil => exact .nil
  | @literal c path escaped hpercent _ _ _ ih =>
    have hplain : percent ∉ String.utf8EncodeChar c := by
      intro hmem
      have hone : UInt8.ofNat ('%').toNat ∈ Utf8.encode [c] := by
        rw [Utf8.encode, List.flatMap_singleton]
        exact hmem
      exact hpercent (List.mem_singleton.mp (Utf8.mem_of_mem_encode (by decide) hone)).symm
    exact ih.append_plain hplain
  | hex hcode _ ih =>
    rw [Utf8.encode_append]
    exact hcode.unescaped ih

theorem Escaped.decode_eq {path escaped : List Char} (h : Escaped path escaped) :
    decode escaped = path := by
  rw [decode, ← unescaped_iff.mp h.unescaped, Utf8.decodeLossy_encode]

end PercentEscape

theorem Method.text_plain (m : Method) :
    m.text.toList ≠ [] ∧ ∀ c ∈ m.text.toList, Blank.isBlank c = false := by
  cases m <;> exact ⟨by decide, Blank.noBlank_of_all (by decide)⟩

theorem Version.text_plain (v : Version) :
    v.text.toList ≠ [] ∧ v.text.toList.getLast? ≠ some '\r' ∧
      ∀ c ∈ v.text.toList, Blank.isBlank c = false := by
  cases v <;> exact ⟨by decide, by decide, Blank.noBlank_of_all (by decide)⟩

namespace Request

open Blank PercentEscape

/-- One space on each side of the target. -/
def line (method : Method) (uri : List Char) (version : Version) : List Char :=
  method.text.toList ++ ' ' :: (uri ++ ' ' :: version.text.toList)

theorem words_line (method : Method) {uri : List Char} (version : Version) (hne : uri ≠ [])
    (huri : ∀ c ∈ uri, isBlank c = false) :
    Words (line method uri version) [method.text.toList, uri, version.text.toList] := by
  have hspace : isBlank ' ' = true := by decide
  have hlongest : ∀ rest : List Char, ∀ c ∈ (' ' :: rest).head?, isBlank c = true := by
    rintro rest c hc
    cases hc
    exact hspace
  obtain ⟨hmethod, hmethodPlain⟩ := Method.text_plain method
  obtain ⟨hversion, -, hversionPlain⟩ := Version.text_plain version
  have hlast : words version.text.toList = [version.text.toList] := by
    have h := @words_word _ [] hversion hversionPlain nofun
    rwa [List.append_nil] at h
  rw [← words_eq_iff, line, words_word hmethod hmethodPlain (hlongest _), words_cons_blank hspace,
    words_word hne huri (hlongest _), words_cons_blank hspace, hlast]

theorem opens_line (method : Method) {uri : List Char} (version : Version)
    (huri : ∀ c ∈ uri, isBlank c = false) :
    Opens (line method uri version ++ ['\r', '\n', '\r', '\n']) (line method uri version) [] := by
  obtain ⟨-, hmethod⟩ := Method.text_plain method
  obtain ⟨hne, hlast, hversion⟩ := Version.text_plain version
  have hpiece : '\n' ∉ line method uri version ++ ['\r'] := by
    have hfeed : ∀ text : List Char, (∀ c ∈ text, isBlank c = false) → '\n' ∉ text :=
      fun text htext hmem => absurd (htext '\n' hmem) (by decide)
    simp only [line, List.mem_append, List.mem_cons, not_or]
    exact ⟨⟨hfeed _ hmethod, by decide, hfeed _ huri, by decide, hfeed _ hversion⟩, by decide,
      List.not_mem_nil⟩
  have hline : Chopped (line method uri version ++ ['\r']) (line method uri version) := by
    refine ⟨?_, 1, rfl⟩
    have hback : line method uri version =
        (method.text.toList ++ ' ' :: (uri ++ [' '])) ++ version.text.toList := by
      simp only [line, List.append_assoc, List.cons_append, List.nil_append]
    rwa [hback, List.getLast?_append_of_ne_nil _ hne]
  have hempty : Chopped ['\r'] [] := ⟨nofun, 1, rfl⟩
  have hnone : Chopped [] [] := ⟨nofun, 0, rfl⟩
  have hlines : Lines ((line method uri version ++ ['\r']) ++ '\n' :: (['\r'] ++ '\n' :: []))
      [line method uri version, [], []] :=
    .more hpiece hline (.more (by decide) hempty (.last List.not_mem_nil hnone))
  refine ⟨[[], []], ?_, List.forall_mem_nil _, .inr ⟨[], [[]], allBlank_nil, rfl⟩⟩
  rwa [List.append_assoc] at hlines

/-- Every path can be written, and is read back from each of its written forms, beside the query as it
stands. -/
theorem parse_escaped_path (method : Method) (path query : String)
    (hquery : ∀ c ∈ query.toList, isBlank c = false) :
    (∃ escaped : String, Escaped path.toList escaped.toList) ∧
    ∀ escaped : String, Escaped path.toList escaped.toList →
      parse (Utf8.ofString
          (method.text ++ " " ++ escaped ++ "?" ++ query ++ " HTTP/1.0" ++ "\r\n\r\n")) =
        .ok ⟨method, escaped ++ "?" ++ query, path, query, .http10, []⟩ := by
  constructor
  · obtain ⟨escaped, h⟩ := exists_escaped path.toList
    exact ⟨String.ofList escaped, by rwa [String.toList_ofList]⟩
  · intro escaped h
    let uri := escaped.toList ++ '?' :: query.toList
    have huri : ∀ c ∈ uri, isBlank c = false := by
      refine List.forall_mem_append.mpr ⟨fun c hc => (h.plain c hc).2, ?_⟩
      exact List.forall_mem_cons.mpr ⟨by decide, hquery⟩
    have htarget : Target uri path query := by
      have hasked := @Target.asked escaped.toList query.toList fun hmark => (h.plain _ hmark).1 rfl
      rwa [h.decode_eq, String.ofList_toList, String.ofList_toList] at hasked
    have htext : (method.text ++ " " ++ escaped ++ "?" ++ query ++ " HTTP/1.0" ++
        "\r\n\r\n").toList = line method uri .http10 ++ ['\r', '\n', '\r', '\n'] := by
      simp [line, uri, Version.text]
    have hname : (escaped ++ "?" ++ query).toList = uri := by
      simp [uri]
    rw [Utf8.ofString, htext, parse_encode]
    refine Spells.ofText_eq ⟨_, [], opens_line method .http10 huri, ?_, ?_, .nil⟩
    · rw [hname]
      exact words_line method .http10 (by simp [uri]) huri
    · rw [hname]
      exact htarget

/-- Escapes in both cases beside plain characters, and one for each byte of a longer character. -/
theorem parse_escaped_path_mixed :
    (∀ c ∈ "x=%41?".toList, isBlank c = false) ∧
    Escaped "/é b".toList "/%C3%a9%20b".toList ∧
    parse (Utf8.ofString "HEAD /%C3%a9%20b?x=%41? HTTP/1.0\r\n\r\n") =
      .ok ⟨.head, "/%C3%a9%20b?x=%41?", "/é b", "x=%41?", .http10, []⟩ := by
  have hquery : ∀ c ∈ "x=%41?".toList, isBlank c = false := noBlank_of_all (by decide)
  have heacute : HexBytes (String.utf8EncodeChar 'é') "%C3%a9".toList :=
    .cons (m := 12) (n := 3) ⟨by decide, .inr rfl⟩ ⟨by decide, .inl rfl⟩ rfl
      (.cons (m := 10) (n := 9) ⟨by decide, .inl rfl⟩ ⟨by decide, .inl rfl⟩ rfl .nil)
  have hspace : HexBytes (String.utf8EncodeChar ' ') "%20".toList :=
    .cons (m := 2) (n := 0) ⟨by decide, .inl rfl⟩ ⟨by decide, .inl rfl⟩ rfl .nil
  have hb : Escaped ['b'] ['b'] := .literal (by decide) (by decide) (by decide) .nil
  have hescaped : Escaped "/é b".toList "/%C3%a9%20b".toList :=
    .literal (by decide) (by decide) (by decide) (.hex heacute (.hex hspace hb))
  have htext : Method.head.text ++ " " ++ "/%C3%a9%20b" ++ "?" ++ "x=%41?" ++ " HTTP/1.0" ++
      "\r\n\r\n" = "HEAD /%C3%a9%20b?x=%41? HTTP/1.0\r\n\r\n" := by decide
  have huri : "/%C3%a9%20b" ++ "?" ++ "x=%41?" = "/%C3%a9%20b?x=%41?" := by decide
  have hread := (parse_escaped_path .head "/é b" "x=%41?" hquery).2 _ hescaped
  rw [htext, huri] at hread
  exact ⟨hquery, hescaped, hread⟩

end Request

end PooledHttp
