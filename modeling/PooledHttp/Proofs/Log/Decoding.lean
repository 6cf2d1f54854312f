import Mathlib
import PooledHttp.Proofs.Log.Entry
import PooledHttp.Proofs.Text.Encoding
import PooledHttp.Proofs.Text.Words

/-! A log read back. Cut at its line feeds into groups of seven lines, it gives back what its entries show:
two times in whole microseconds, the number of a worker and four counters. Nothing else shows in it. -/

namespace PooledHttp

namespace Decimal

theorem digit?_eq {c : Char} (h : c.isDigit = true) : digit? c = some (c.toNat - '0'.toNat) := by
  rw [Char.isDigit, Bool.and_eq_true, decide_eq_true_eq, decide_eq_true_eq] at h
  exact if_pos ⟨h.1, h.2⟩

theorem ofDigits?_eq {text : List Char} (hne : text ≠ []) (h : ∀ c ∈ text, c.isDigit = true) :
    ofDigits? text = some (Nat.ofDigitChars 10 text 0) := by
  have hfold : ∀ n, text.foldlM (fun n c => (digit? c).map (n * 10 + ·)) n =
      some (Nat.ofDigitChars 10 text n) := by
    clear hne
    induction text with
    | nil => exact fun _ => rfl
    | cons c text ih =>
      obtain ⟨hc, htext⟩ := List.forall_mem_cons.mp h
      intro n
      rw [List.foldlM_cons, digit?_eq hc, Option.map_some, Nat.ofDigitChars_cons, Nat.mul_comm 10 n]
      exact ih htext _
  rw [ofDigits?, if_neg (by simpa using hne), hfold]

theorem ofDigits?_digits (n : Nat) : ofDigits? (digits n) = some n := by
  have hne : digits n ≠ [] := List.ne_nil_of_length_pos Nat.length_toDigits_pos
  rw [ofDigits?_eq hne fun _ => digits_isDigit, digits, Nat.ofDigitChars_ten_toDigits]

theorem padded_length {width n : Nat} (hwidth : 0 < width) (h : n < 10 ^ width) :
    (padded width n).length = width := by
  have hle : (digits n).length ≤ width := (Nat.length_toDigits_le_iff (by decide) hwidth).mpr h
  rw [padded, List.length_leftpad, Nat.max_eq_left hle]

theorem ofDigits?_padded (width n : Nat) : ofDigits? (padded width n) = some n := by
  have hne : padded width n ≠ [] := by
    have hpos : 0 < (digits n).length := Nat.length_toDigits_pos
    refine List.ne_nil_of_length_pos ?_
    rw [padded, List.length_leftpad]
    exact Nat.lt_of_lt_of_le hpos (Nat.le_max_right _ _)
  rw [ofDigits?_eq hne fun _ => padded_isDigit, padded, List.leftpad, Nat.ofDigitChars_append,
    Nat.ofDigitChars_replicate_zero, Nat.mul_zero, digits, Nat.ofDigitChars_ten_toDigits]

end Decimal

/-- Seconds, a point and six decimals. -/
def readMicros? (text : List Char) : Option Nat := do
  let (whole, decimals) ← cutAt? '.' text
  let seconds ← Decimal.ofDigits? whole
  let micros ← Decimal.ofDigits? decimals
  if decimals.length = 6 then some (seconds * 1000000 + micros) else none

theorem decimals_length (micros : Nat) : (Decimal.padded 6 (micros % 1000000)).length = 6 :=
  Decimal.padded_length (by decide) (Nat.mod_lt _ (by decide))

theorem readMicros?_microsText (micros : Nat) : readMicros? (microsText micros) = some micros := by
  have hpoint : '.' ∉ Decimal.digits (micros / 1000000) :=
    fun hmem => absurd (Decimal.digits_isDigit hmem) (by decide)
  have hcut : cutAt? '.' (microsText micros) =
      some (Decimal.digits (micros / 1000000), Decimal.padded 6 (micros % 1000000)) :=
    cutAt?_eq_some_iff.mpr ⟨rfl, hpoint⟩
  simp only [readMicros?, hcut, Decimal.ofDigits?_digits, Decimal.ofDigits?_padded,
    Option.bind_eq_bind, Option.bind_some]
  rw [if_pos (decimals_length micros), Nat.div_add_mod']

/-- Seconds without padding, a point, and the rest in exactly six decimals. -/
def ShowsMicros (text : String) (micros : Nat) : Prop :=
  ∃ decimals, text.toList = Decimal.digits (micros / 1000000) ++ '.' :: decimals ∧
    decimals.length = 6 ∧ (∀ c ∈ decimals, c.isDigit = true) ∧
    Decimal.ofDigits? decimals = some (micros % 1000000)

theorem showsMicros_microsText (micros : Nat) :
    ShowsMicros (String.ofList (microsText micros)) micros :=
  ⟨_, String.toList_ofList, decimals_length micros, fun _ => Decimal.padded_isDigit,
    Decimal.ofDigits?_padded 6 _⟩

namespace LogReading

/-- What stands behind a name on its line. -/
def value? (name : String) (line : Bytes) : Option (List Char) :=
  (Utf8.decode? line).bind fun text => text.dropPrefix? (name ++ ": ").toList

theorem value?_line (name value : String) : value? name (line name value) = some value.toList := by
  rw [value?, line, Utf8.ofString, Utf8.decode?_encode, Option.bind_some, String.toList_append]
  exact List.dropPrefix?_append_of_beq _ (by simp)

def time? (name : String) (line : Bytes) : Option Nat := (value? name line).bind readMicros?

def number? (name : String) (line : Bytes) : Option Nat := (value? name line).bind Decimal.ofDigits?

theorem time?_line (name : String) (micros : Nat) :
    time? name (line name (String.ofList (microsText micros))) = some micros := by
  rw [time?, value?_line, Option.bind_some, String.toList_ofList, readMicros?_microsText]

theorem number?_line (name : String) (n : Nat) : number? name (line name (toString n)) = some n := by
  have hdigits : (toString n).toList = Decimal.digits n := String.toList_ofList
  rw [number?, value?_line, Option.bind_some, hdigits, Decimal.ofDigits?_digits]

def ofLines? : List Bytes → Option LogReading
  | [arrival, wait, worker, total, static, dynamic, post] => do
    let arrival ← time? "Stat-Req-Arrival:" arrival
    let wait ← time? "Stat-Req-Dispatch:" wait
    let worker ← number? "Stat-Thread-Id:" worker
    let total ← number? "Stat-Thread-Count:" total
    let static ← number? "Stat-Thread-Static:" static
    let dynamic ← number? "Stat-Thread-Dynamic:" dynamic
    let post ← number? "Stat-Thread-Post:" post
    return ⟨arrival, wait, worker, total, static, dynamic, post⟩
  | _ => none

theorem ofLines?_lines (r : LogReading) : ofLines? r.lines = some r := by
  simp only [lines, fields, List.map_cons, List.map_nil, ofLines?, time?_line, number?_line]
  rfl

/-- Seven lines make an entry. -/
def ofGroups? : List Bytes → Option (List LogReading)
  | [] => some []
  | arrival :: wait :: worker :: total :: static :: dynamic :: post :: rest => do
    let first ← ofLines? [arrival, wait, worker, total, static, dynamic, post]
    let more ← ofGroups? rest
    return first :: more
  | _ => none

theorem ofGroups?_append (r : LogReading) (rest : List Bytes) :
    ofGroups? (r.lines ++ rest) = (ofGroups? rest).map (r :: ·) := by
  have hfirst := ofLines?_lines r
  simp only [lines, fields, List.map_cons, List.map_nil] at hfirst
  simp only [lines, fields, List.map_cons, List.map_nil, List.cons_append, List.nil_append, ofGroups?,
    hfirst, Option.bind_eq_bind, Option.bind_some]
  cases ofGroups? rest <;> rfl

theorem ofGroups?_lines (readings : List LogReading) :
    ofGroups? (readings.flatMap lines) = some readings := by
  induction readings with
  | nil => rfl
  | cons r readings ih => rw [List.flatMap_cons, ofGroups?_append, ih, Option.map_some]

/-- A log is cut at its line feeds, and nothing may stand behind the last. -/
def read? (log : Bytes) : Option (List LogReading) :=
  let lines := log.splitOn 10
  if lines.getLast? = some [] then ofGroups? lines.dropLast else none

end LogReading

namespace LogEntry

theorem flatMap_lines (entries : List LogEntry) :
    entries.flatMap lines = (entries.map shown).flatMap LogReading.lines := by
  rw [List.flatMap_map]
  exact congrArg (entries.flatMap ·) (funext lines_eq)

theorem read?_log (entries : List LogEntry) :
    LogReading.read? (entries.flatMap bytes) = some (entries.map shown) := by
  rw [LogReading.read?, splitOn_log, List.getLast?_concat, if_pos rfl, List.dropLast_concat,
    flatMap_lines, LogReading.ofGroups?_lines]

theorem shown_eq {entries others : List LogEntry}
    (h : entries.flatMap bytes = others.flatMap bytes) : entries.map shown = others.map shown := by
  apply Option.some.inj
  rw [← read?_log, ← read?_log, h]

/-- What entries show of the counters can be read off the log. -/
theorem tallies_eq {entries others : List LogEntry}
    (h : entries.flatMap bytes = others.flatMap bytes) :
    entries.map tally = others.map tally := by
  have htallies := congrArg (List.map LogReading.tally) (shown_eq h)
  rwa [List.map_map, List.map_map] at htallies

/-- A log tells of its entries what they show, and no more. Cut at the line feeds into groups of seven
lines it gives back the arrivals and the waits in whole microseconds, never rounded up, and all counters,
in their order; so two logs are one and the same just where their entries show the same. Times are
written with exactly six decimals. -/
theorem log_readable (entries : List LogEntry) :
    let log := entries.flatMap bytes
    LogReading.read? log = some (entries.map shown) ∧
    (∀ others : List LogEntry,
      others.flatMap bytes = log ↔ others.map shown = entries.map shown) ∧
    ∀ e : LogEntry, ShowsMicros e.timing.arrival.text e.shown.arrival ∧
      ShowsMicros e.timing.wait.text e.shown.wait := by
  intro log
  refine ⟨read?_log entries, fun others => ⟨shown_eq, fun h => ?_⟩, fun e => ⟨?_, ?_⟩⟩
  · rw [flatMap_bytes, flatMap_lines, h, ← flatMap_lines, ← flatMap_bytes]
  · rw [e.arrival_text]
    exact showsMicros_microsText _
  · rw [Span.text_eq]
    exact showsMicros_microsText _

end LogEntry

end PooledHttp
