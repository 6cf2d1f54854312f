import PooledHttp.CommandLine
import Std.Async.DNS
import Std.Async.TCP
import Std.Sync.Mutex
import Std.Time.DateTime.Timestamp

/-! The program: sockets, files, clocks and threads around the library. Each worker is a thread of
its own; they share the queue and the log. -/

namespace PooledHttp.Main

open Std.Async.TCP

abbrev Client := Socket.Client

structure Shared where
  config : Config
  queue : Std.Mutex (RequestQueue Client)
  notFull : Std.Condvar
  notEmpty : Std.Condvar
  log : Std.Mutex LogBuffer

def ofResult {α : Type} : Except QueueFault α → IO α
  | .ok a => return a
  | .error e => throw (IO.userError e.message)

def now : IO Instant := return ⟨(← Std.Time.Timestamp.now).toNanosecondsSinceUnixEpoch.val⟩

/-- Waits for the end of an action, even if nobody looks at its result. -/
def await {α : Type} (action : Std.Async.Async α) : IO (Except IO.Error α) := do
  IO.wait (← action.toIO)

def refusal (e : IO.Error) : SystemError := .other e.toString

/-! ## Files -/

def placeFrom (directory : Place) (path : String) : Place :=
  (FileTree.steps path.toList).foldl (fun here name =>
    if name = ['.'] then here
    else if name = Target.parent then here.dropLast
    else here ++ [name]) (FileTree.origin directory path.toList)

/-- A file that begins as a script does counts as executable. -/
def fileEntry (content : Bytes) : Entry := .file content (Program.interpreter? content).isSome

/-- What is found below a directory, down to a depth. What cannot be read is left out. -/
def readBelow : Nat → String → Place → FileTree → IO FileTree
  | 0, _, _, tree => return tree
  | depth + 1, path, place, tree => do
    let mut tree := tree.putDirectory place
    for found in ← (← IO.FS.realPath path).readDir do
      let here := place ++ [found.fileName.toList]
      try
        if ← found.path.isDir then
          tree ← readBelow depth found.path.toString here tree
        else
          tree := tree.put here (fileEntry (← IO.FS.readBinFile found.path).toList)
      catch _ => pure ()
    return tree

def deepest : Nat := 32

/-- The machine as requests find it at this moment. -/
def readMachine (root : String) : IO Machine := do
  let directory := placeFrom [] (← IO.currentDir).toString
  let tree := FileTree.empty.putBelow Program.shellPlace (.file [] true)
  let tree := tree.putDirectory directory
  return ⟨← (readBelow deepest root (placeFrom directory root) tree).catchExceptions
    fun _ => return tree, directory⟩

/-! ## The queue -/

def take (s : Shared) : IO (Option (Pending Client)) :=
  s.queue.atomicallyOnce s.notEmpty
    (do return match (← get).deliver with
      | .ok .mustWait => false
      | _ => true)
    (do match ← ofResult (← get).deliver with
      | .delivered request queue =>
        set queue
        if queue.policy = .queue then s.notFull.notifyOne
        return some request
      | _ => return none)

def put (s : Shared) (request : Pending Client) : IO Bool :=
  s.queue.atomicallyOnce s.notFull
    (do return match (← get).offer request with
      | .ok .mustWait => false
      | _ => true)
    (do match ← ofResult ((← get).offer request) with
      | .accepted queue =>
        set queue
        s.notEmpty.notifyOne
        return true
      | _ => return false)

def finish (s : Shared) : IO Unit :=
  s.queue.atomically do
    let queue ← ofResult (← get).finish
    set queue
    if queue.policy = .inFlight then s.notFull.notifyOne

/-! ## Connections -/

partial def receive (client : Client) (raw : Bytes) (events : List ReadEvent) :
    IO (List ReadEvent) := do
  if RequestReader.isComplete raw then return events
  match ← await (client.recv? (RequestReader.limit raw).toUInt64) with
  | .ok none => return events
  | .ok (some bytes) => receive client (raw ++ bytes.toList) (events ++ [.data bytes.toList])
  | .error e => return events ++ [.failed (refusal e)]

/-- Answers one request. The log is looked at and extended at once. -/
def answer (s : Shared) (tally : Tally) (request : Pending Client) : IO Tally := do
  let wait := (← now).since request.arrival
  let connection := Connection.ofReads (← receive request.connection [] [])
  let site : Site := ⟨← readMachine s.config.documentRoot, s.config.documentRoot⟩
  let (result, connection) ← s.log.atomically do
    let answered :=
      connection.serve site Allocator.ofMachine ⟨request.arrival, wait⟩ tally (← get)
    if let .ok exchange := answered.1 then set exchange.log
    return answered
  match result with
  | .error e => throw (IO.userError e.message)
  | .ok exchange =>
    let output := ByteArray.mk connection.written.toArray
    let _ ← await (request.connection.sendAll #[output])
    let _ ← await request.connection.shutdown
    return exchange.tally

/-- A worker takes requests until the queue is drained, or until a request fails. -/
partial def work (s : Shared) (tally : Tally) : IO Unit := do
  if let some request ← take s then
    let answered ← (answer s tally request).toBaseIO
    finish s
    if let .ok tally := answered then work s tally

partial def accept (s : Shared) (socket : Socket.Server) (failures : Nat) : IO Unit := do
  match ← await socket.accept with
  | .error _ =>
    let failures := Backoff.afterFailure failures
    IO.sleep (Backoff.pause failures).toUInt32
    accept s socket failures
  | .ok client => if ← put s ⟨client, ← now⟩ then accept s socket 0

/-! ## The start -/

def socketAddress? (config : Config) (host : String) : Option Std.Net.SocketAddress :=
  let port := config.port.toUInt16
  ((Std.Net.IPv4Addr.ofString host).map fun ip => .v4 ⟨ip, port⟩) <|>
    (Std.Net.IPv6Addr.ofString host).map fun ip => .v6 ⟨ip, port⟩

def findAddress (config : Config) : IO Std.Net.SocketAddress := do
  let host := String.ofList (config.host.toList.filter (fun c => c != '[' && c != ']'))
  if let some address := socketAddress? config host then return address
  let found ← (Std.Async.DNS.getAddrInfo host "").block
  match found.toList with
  | .v4 ip :: _ => return .v4 ⟨ip, config.port.toUInt16⟩
  | .v6 ip :: _ => return .v6 ⟨ip, config.port.toUInt16⟩
  | [] => throw (IO.userError "failed to lookup address information")

def pendingConnections : UInt32 := 128

def listen (config : Config) : IO Socket.Server := do
  let socket ← Socket.Server.mk
  socket.bind (← findAddress config)
  socket.listen pendingConnections
  return socket

/-- The network, now that it is known what became of listening. -/
def networkAfter {α : Type} (listened : Except IO.Error α) : Network where
  listen _ :=
    match listened with
    | .ok _ => .ok ⟨.v4 [0, 0, 0, 0], 0, 0⟩
    | .error e => .error (refusal e)
  connect _ := .error .networkUnreachable

def showEvents (events : List Diagnostics.Event) : IO Unit :=
  events.forM fun e => IO.println (e.level.name ++ " " ++ e.target)

def serve (config : Config) (bound : Bound) (socket : Socket.Server) : IO Unit := do
  let s : Shared :=
    { config
      queue := ← Std.Mutex.new (← ofResult (RequestQueue.create config.queueSize config.admission))
      notFull := ← Std.Condvar.new
      notEmpty := ← Std.Condvar.new
      log := ← Std.Mutex.new bound.log }
  for i in [0:bound.workers] do
    let _ ← IO.asTask (work s (Tally.start (i + 1))) Task.Priority.dedicated
  accept s socket 0

def readEnvironment : IO (List (String × String)) :=
  Setting.all.filterMapM fun setting => do
    return (← IO.getEnv setting.variableName).map fun value => (setting.variableName, value)

/-- Says what the outcome has to say, and gives the exit code if there is nothing left to do. -/
def report (outcome : CommandLine.Outcome) : IO UInt32 := do
  match outcome with
  | .usage e => (if e.isDefect then IO.eprint else IO.print) (CommandLine.usageText e)
  | .refused _ => IO.eprint (outcome.errorText?.getD "")
  | .failed failure events =>
    showEvents events
    if outcome.writesError then IO.eprintln failure.message
  | .serving _ events => showEvents events
  return (outcome.exitCode?.getD 0).toUInt32

def run (arguments : List String) : IO UInt32 := do
  match CommandLine.prepare arguments (← readEnvironment) with
  | .error outcome => report outcome
  | .ok (config, filter) =>
    let listened ← (listen config).toBaseIO
    let outcome := CommandLine.launch (networkAfter listened) Allocator.ofMachine config filter
    let code ← report outcome
    if let (.serving bound _, .ok socket) := (outcome, listened) then serve config bound socket
    return code

end PooledHttp.Main

def main (arguments : List String) : IO UInt32 := PooledHttp.Main.run arguments
