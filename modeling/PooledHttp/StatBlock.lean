import PooledHttp.Clock
import PooledHttp.Http.Response
import PooledHttp.Tally

/-! The seven statistics of an answer, as headers and as a log entry. Their names end in a colon of
their own, so both forms show two colons. -/

namespace PooledHttp

structure Timing where
  arrival : Instant
  wait : Span
deriving DecidableEq, Repr

abbrev StatBlock := List (String × String)

namespace StatBlock

def build (timing : Timing) (tally : Tally) : StatBlock :=
  ("Stat-Req-Arrival:", timing.arrival.text) ::
  ("Stat-Req-Dispatch:", timing.wait.text) ::
  tally.fields.map fun (name, value) => (name ++ ":", value)

def entry (block : StatBlock) : String :=
  String.join (block.map fun (name, value) => name ++ ": " ++ value ++ "\n")

end StatBlock

end PooledHttp
