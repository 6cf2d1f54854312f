import PooledHttp.Handler
import PooledHttp.Pool

/-! A client connection as the workers see it, and the handler that answers requests on it. -/

namespace PooledHttp

structure Connection where
  incoming : List ReadEvent
  /-- How many bytes the client takes before it hangs up, if it does. -/
  capacity : Option Nat
  written : Bytes
deriving DecidableEq, Repr

namespace Connection

def ofReads (events : List ReadEvent) : Connection := ⟨events, none, []⟩

/-- A client that hangs up gets what it took until then; nobody else notices. -/
def write (c : Connection) (output : Bytes) : Connection :=
  match c.capacity with
  | none => { c with written := c.written ++ output }
  | some room =>
    { c with written := c.written ++ output.take room, capacity := some (room - output.length) }

def serve (site : Site) (allocate : Allocator) (timing : Timing) (tally : Tally) (log : LogBuffer)
    (c : Connection) : Except TallyOverflow Exchange × Connection :=
  let (result, rest) := respond site allocate timing tally log c.incoming
  let c := { c with incoming := rest }
  match result with
  | .error e => (.error e, c)
  | .ok exchange => (.ok exchange, c.write exchange.output)

end Connection

/-- The handler of a site. A counter that is full ends the worker. -/
def Site.handler (site : Site) (allocate : Allocator) : RequestHandler Connection :=
  fun connection arrival wait tally log =>
    match connection.serve site allocate ⟨arrival, wait⟩ tally log with
    | (.ok exchange, connection) => .returned connection exchange.tally exchange.log
    | (.error _, _) => .failed log

end PooledHttp
