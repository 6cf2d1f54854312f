import PooledHttp.Proofs.Http.Response
import PooledHttp.Proofs.Text.Lines

/-! What is shown of a request: two times and five numbers. An answer has them as seven headers, and the
log as an entry of seven lines, which come back from a log that consists of entries. -/

namespace PooledHttp

namespace StatBlock

/-- No name and no value of a block leaves its line. -/
theorem build_oneLine (timing : Timing) (tally : Tally) :
    ∀ field ∈ build timing tally, IsOneLine field.1 ∧ IsOneLine field.2 := by
  have hnames : ∀ name ∈ names, IsOneLine name := by decide
  intro field hmem
  refine ⟨hnames _ (build_names timing tally ▸ List.mem_map_of_mem hmem), ?_⟩
  simp only [build, Tally.fields, List.map_cons, List.map_nil, List.mem_cons, List.not_mem_nil,
    or_false] at hmem
  rcases hmem with rfl | rfl | rfl | rfl | rfl | rfl | rfl
  · exact Span.text_oneLine _
  · exact Span.text_oneLine _
  all_goals exact Decimal.text_oneLine _

end StatBlock

/-- Microseconds as seconds with six decimals. -/
def microsText (micros : Nat) : List Char :=
  Nat.toDigits 10 (micros / 1000000) ++ '.' :: (Nat.toDigits 10 (micros % 1000000)).leftpad 6 '0'

theorem Span.text_eq (d : Span) : d.text = String.ofList (microsText (d.nanos / 1000)) := by
  have hseconds : d.seconds = d.nanos / 1000 / 1000000 := by
    rw [Span.seconds, Span.second]
    omega
  have hmicros : d.subsecond / 1000 = d.nanos / 1000 % 1000000 := by
    rw [Span.subsecond, Span.second]
    omega
  rw [Span.text, hseconds, hmicros]
  rfl

/-- What an entry shows: times in whole microseconds, and the counters of its worker. -/
structure LogReading where
  arrival : Nat
  wait : Nat
  tally : Tally
deriving DecidableEq

namespace LogReading

/-- The seven statistics that show this. -/
def fields (r : LogReading) : List (String × String) :=
  [("Stat-Req-Arrival:", String.ofList (microsText r.arrival)),
   ("Stat-Req-Dispatch:", String.ofList (microsText r.wait)),
   ("Stat-Thread-Id:", toString r.tally.worker),
   ("Stat-Thread-Count:", toString r.tally.total),
   ("Stat-Thread-Static:", toString r.tally.static),
   ("Stat-Thread-Dynamic:", toString r.tally.dynamic),
   ("Stat-Thread-Post:", toString r.tally.post)]

example : (LogReading.mk 1700000000123456 210 ⟨1, 3, 2, 0, 1⟩).fields =
    [("Stat-Req-Arrival:", "1700000000.123456"), ("Stat-Req-Dispatch:", "0.000210"),
      ("Stat-Thread-Id:", "1"), ("Stat-Thread-Count:", "3"), ("Stat-Thread-Static:", "2"),
      ("Stat-Thread-Dynamic:", "0"), ("Stat-Thread-Post:", "1")] := by decide

def line (name value : String) : Bytes := Utf8.ofString (name ++ ": " ++ value)

/-- The seven lines of an entry that shows this. -/
def lines (r : LogReading) : List Bytes := r.fields.map fun (name, value) => line name value

/-- Each line ends in a line feed. -/
def bytes (r : LogReading) : Bytes := r.lines.flatMap (· ++ [10])

end LogReading

/-- What an entry of the log tells. -/
structure LogEntry where
  timing : Timing
  tally : Tally

namespace LogEntry

/-- A time before the epoch shows as none, and of the others whole microseconds show. -/
def shown (e : LogEntry) : LogReading :=
  ⟨e.timing.arrival.nanos.toNat / 1000, e.timing.wait.nanos / 1000, e.tally⟩

theorem arrival_text (e : LogEntry) :
    e.timing.arrival.text = String.ofList (microsText e.shown.arrival) := by
  have hsince : (e.timing.arrival.since .epoch).nanos = e.timing.arrival.nanos.toNat :=
    congrArg Int.toNat (Int.sub_zero _)
  rw [Instant.text, Span.text_eq, hsince, shown]

def block (e : LogEntry) : StatBlock := StatBlock.build e.timing e.tally

def bytes (e : LogEntry) : Bytes := Utf8.ofString e.block.entry

/-- A name, two colons and a value on each line, without the line feed. -/
def lines (e : LogEntry) : List Bytes :=
  e.block.map fun (name, value) => Utf8.ofString (name ++ ": " ++ value)

theorem lines_length (e : LogEntry) : e.lines.length = 7 := rfl

theorem block_eq (e : LogEntry) : e.block = e.shown.fields := by
  have hblock : e.block = ("Stat-Req-Arrival:", e.timing.arrival.text) ::
      ("Stat-Req-Dispatch:", e.timing.wait.text) :: e.shown.fields.drop 2 := rfl
  rw [hblock, e.arrival_text, Span.text_eq]
  rfl

/-- What an entry shows makes up its lines. -/
theorem lines_eq (e : LogEntry) : e.lines = e.shown.lines := by
  rw [lines, block_eq]
  rfl

theorem bytes_eq (e : LogEntry) : e.bytes = e.lines.flatMap (· ++ [10]) := by
  have hentry : ∀ block : StatBlock, Utf8.ofString block.entry =
      (block.map fun (name, value) => Utf8.ofString (name ++ ": " ++ value)).flatMap (· ++ [10]) := by
    intro block
    induction block with
    | nil => rfl
    | cons field block ih =>
      rw [StatBlock.entry, List.map_cons, String.join_cons, Utf8.ofString_append,
        Utf8.ofString_append]
      exact congrArg _ ih
  exact hentry e.block

theorem bytes_shown (e : LogEntry) : e.bytes = e.shown.bytes := by
  rw [bytes_eq, lines_eq, LogReading.bytes]

theorem bytes_ne_nil (e : LogEntry) : e.bytes ≠ [] := by
  rw [bytes_eq, lines, block, StatBlock.build, List.map_cons, List.flatMap_cons, List.append_assoc]
  exact List.append_ne_nil_of_right_ne_nil _ (List.cons_ne_nil _ _)

theorem lines_no_lf (e : LogEntry) : ∀ line ∈ e.lines, 10 ∉ line := by
  intro line hmem
  obtain ⟨field, hfield, rfl⟩ := List.mem_map.mp hmem
  obtain ⟨hname, hvalue⟩ := StatBlock.build_oneLine e.timing e.tally field hfield
  have hcolon : IsOneLine ": " := by decide
  exact ((hname.append hcolon).append hvalue).no_lf

theorem flatMap_bytes (entries : List LogEntry) :
    entries.flatMap bytes = (entries.flatMap lines).flatMap (· ++ [10]) := by
  rw [List.flatMap_assoc]
  exact congrArg (entries.flatMap ·) (funext bytes_eq)

/-- Read line by line, a log of entries is their lines. -/
theorem splitOn_log (entries : List LogEntry) :
    (entries.flatMap bytes).splitOn 10 = entries.flatMap lines ++ [[]] := by
  rw [flatMap_bytes]
  refine splitOn_lines fun line hmem => ?_
  obtain ⟨e, -, hline⟩ := List.mem_flatMap.mp hmem
  exact e.lines_no_lf line hline

end LogEntry

end PooledHttp
