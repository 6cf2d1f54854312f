import PooledHttp.Arguments
import PooledHttp.Diagnostics.Filter
import PooledHttp.Server.Session

/-! What becomes of a call of the program: it informs, refuses, or serves until it is stopped. -/

namespace PooledHttp.CommandLine

def configured : Diagnostics.Event :=
  ⟨"stat_server::config", .info,
    ["message", "address", "threads", "queue_size", "admission", "document_root", "log_capacity"]⟩

def workerStarted : Diagnostics.Event :=
  ⟨"stat_server::workers::pool", .debug, ["message", "worker_id"]⟩

def poolStarted : Diagnostics.Event := ⟨"stat_server::workers::pool", .info, ["message", "workers"]⟩

def listening : Diagnostics.Event :=
  ⟨"stat_server::server::tcp", .info,
    ["message", "address", "threads", "queue_size", "admission"]⟩

def startFailed : Diagnostics.Event := ⟨"stat_server", .error, ["message", "error"]⟩

def usage : String :=
  "Usage: stat_server [OPTIONS] <PORT> <THREADS> <QUEUE_SIZE>\n" ++
  String.join ((Setting.all.filterMap Setting.flag?).map fun flag => "  --" ++ flag ++ " <VALUE>\n")

def usageText : UsageError → String
  | .displayHelp => usage
  | .displayVersion => "stat_server 0.1.0\n"
  | .unknownArgument => "error: unexpected argument\n" ++ usage
  | .missingRequired => "error: a required argument is missing\n" ++ usage
  | .invalidValue => "error: a value is missing or not allowed\n" ++ usage
  | .valueValidation => "error: a number does not parse\n" ++ usage
  | .argumentConflict => "error: an argument was given twice\n" ++ usage
  | .tooManyValues => "error: unexpected value\n" ++ usage

inductive Outcome
  | usage (error : UsageError)
  | refused (error : ServerError)
  /-- The server did not start, which only the diagnostics say. -/
  | failed (failure : StartFailure) (events : List Diagnostics.Event)
  | serving (bound : Bound) (events : List Diagnostics.Event)

/-- A fault ends the program before it can report. -/
def eventsOfFailure : StartFailure → List Diagnostics.Event
  | .refused _ => [configured, startFailed]
  | _ => [configured]

/-- The first obstacle decides: the arguments, then their values, then the filter. -/
def prepare (arguments : List String) (environment : List (String × String)) :
    Except Outcome (Config × Diagnostics.Filter) :=
  match Config.ofArguments arguments environment with
  | .error e => .error (.usage e)
  | .ok config =>
    match config.validate with
    | .error e => .error (.refused e)
    | .ok _ =>
      match Diagnostics.install false config.logFilter with
      | .error e => .error (.refused e)
      | .ok filter => .ok (config, filter)

def launch (network : Network) (allocate : Allocator) (config : Config)
    (filter : Diagnostics.Filter) : Outcome :=
  match config.bind network allocate with
  | .error e => .failed e ((eventsOfFailure e).filter filter.shows)
  | .ok bound =>
    .serving bound ([configured, workerStarted, poolStarted, listening].filter filter.shows)

def start (network : Network) (allocate : Allocator) (arguments : List String)
    (environment : List (String × String)) : Outcome :=
  match prepare arguments environment with
  | .error outcome => outcome
  | .ok (config, filter) => launch network allocate config filter

/-- The exit code, unless the program goes on. A fault has one of its own. -/
def Outcome.exitCode? : Outcome → Option Nat
  | usage e => some (if e.isDefect then 1 else 0)
  | refused _ => some 1
  | failed (.refused _) _ => some 1
  | failed _ _ => some 101
  | serving _ _ => none

def Outcome.writesOutput : Outcome → Bool
  | usage e => !e.isDefect
  | refused _ => false
  | failed _ events => !events.isEmpty
  | serving _ events => !events.isEmpty

/-- What is written to the error stream, if it is a message of the program's own. -/
def Outcome.errorText? : Outcome → Option String
  | refused e => some ("Error: " ++ e.message ++ "\n")
  | _ => none

def Outcome.writesError : Outcome → Bool
  | usage e => e.isDefect
  | refused _ => true
  | failed (.refused _) _ => false
  | failed _ _ => true
  | serving _ _ => false

end PooledHttp.CommandLine
