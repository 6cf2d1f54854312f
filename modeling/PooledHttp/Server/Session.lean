import PooledHttp.Connection
import PooledHttp.Server.Address
import PooledHttp.Server.Basic

/-! A server from its first step to its last: bind, serve some clients one after the other, shut
down. The network is whatever the machine at hand makes of it. -/

namespace PooledHttp

/-- Whether a server can listen at an address text, and whether a client can reach it there. -/
structure Network where
  listen : String → Except SystemError SocketAddress
  connect : SocketAddress → Except SystemError Unit

namespace Network

/-- The one name of a host that is known without asking anybody, and its address. -/
def localName : List Char × List Char := ("localhost".toList, "127.0.0.1".toList)

def withoutName (address : List Char) : List Char :=
  if (localName.1 ++ [':']).isPrefixOf address then
    localName.2 ++ address.drop localName.1.length
  else address

def freePort : Nat := 32768

/-- A machine without a network. It lets a server listen on any address of its own or of another
machine, and lets nobody connect. -/
def isolated : Network where
  listen text :=
    match SocketAddress.readText? (withoutName text.toList) with
    | some address =>
      .ok { address with port := if address.port = 0 then freePort else address.port }
    | none =>
      .error (.other "failed to lookup address information: Temporary failure in name resolution")
  connect _ := .error .networkUnreachable

end Network

inductive StartFailure
  | refused (error : ServerError)
  | fault (cause : QueueFault)
  /-- The slots of the queue would not fit into memory. -/
  | memory (cause : Refusal)
deriving DecidableEq, Repr

def StartFailure.message : StartFailure → String
  | refused cause => cause.message
  | fault cause => cause.message
  | memory .beyondLimit => "capacity overflow"
  | memory .exhausted => Refusal.exhausted.message

structure Bound where
  address : SocketAddress
  queue : RequestQueue Connection
  log : LogBuffer
  workers : Nat

/-- The bytes that one slot of a queue of connections takes. -/
def slotSize : Nat := 24

/-- Makes the queue, then the log. -/
def Config.equip (c : Config) (allocate : Allocator) (address : SocketAddress) :
    Except StartFailure Bound :=
  match allocate (slotSize * c.queueSize) with
  | some cause => .error (.memory cause)
  | none =>
    match RequestQueue.create c.queueSize c.admission with
    | .error fault => .error (.fault fault)
    | .ok queue =>
      match LogBuffer.create allocate c.logCapacity with
      | .error cause => .error (.refused (.log cause))
      | .ok log => .ok ⟨address, queue, log, c.threads⟩

/-- Opens the socket before anything else. The first step that fails decides. -/
def Config.bind (c : Config) (network : Network) (allocate : Allocator) :
    Except StartFailure Bound :=
  match network.listen c.address with
  | .error cause => .error (.refused (.bind c.address cause))
  | .ok address => c.equip allocate address

namespace Bound

def server (b : Bound) : Server Connection := .start (.start b.workers b.queue b.log)

end Bound

inductive SessionFailure
  | start (failure : StartFailure)
  | unreachable (cause : SystemError)
  | fault (cause : QueueFault)
deriving DecidableEq, Repr

structure SessionReport where
  address : SocketAddress
  capacity : Nat
  policy : AdmissionPolicy
  responses : List Bytes
  results : List Tally
  log : LogBuffer

namespace Server

def actAll {α : Type} (handler : RequestHandler α) (s : Server α) (actions : List (Action α)) :
    Except QueueFault (Server α) :=
  actions.foldlM (act handler) s

def serveOne {α : Type} (handler : RequestHandler α) (now : Instant) (s : Server α)
    (connection : α) : Except QueueFault (Server α) :=
  s.actAll handler
    ([.receive (.connection connection), .advance now, .advance now] ++
      List.replicate 4 (.work now 0))

/-- A shutdown, the connection that wakes the acceptor, and the end of every worker. -/
def finish {α : Type} (handler : RequestHandler α) (now : Instant) (wake : Incoming α)
    (s : Server α) : Except QueueFault (Server α) :=
  s.actAll handler
    ([.raiseStop, .closeQueue, .receive wake, .advance now, .advance now] ++
      (List.range s.pool.workers.length).map (.work now) ++ [.advance now])

end Server

/-- Clients that come one after the other; each waits for its answer. -/
def Config.session (c : Config) (network : Network) (allocate : Allocator) (machine : Machine)
    (now : Instant) (clients : List (List Bytes)) : Except SessionFailure SessionReport :=
  match c.bind network allocate with
  | .error e => .error (.start e)
  | .ok bound =>
    match clients.mapM fun _ => network.connect bound.address with
    | .error cause => .error (.unreachable cause)
    | .ok _ =>
      let handler := Site.handler ⟨machine, c.documentRoot⟩ allocate
      let connections := clients.map fun chunks => Connection.ofReads (chunks.map .data)
      match connections.foldlM (Server.serveOne handler now) bound.server with
      | .error fault => .error (.fault fault)
      | .ok server =>
        match server.finish handler now (.connection (Connection.ofReads [])) with
        | .error fault => .error (.fault fault)
        | .ok last =>
          .ok
            { address := bound.address
              capacity := bound.queue.capacity
              policy := bound.queue.policy
              responses := last.pool.closed.map (·.connection.written)
              results := last.pool.results
              log := last.pool.log }

end PooledHttp
