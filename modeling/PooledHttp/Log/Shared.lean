import PooledHttp.Lock.Basic
import PooledHttp.Log.Buffer

/-! The log that all workers share: a buffer behind a readers-writer lock. An access that has to
wait is `none`. -/

namespace PooledHttp

structure SharedLog where
  lock : LockCounters
  buffer : LogBuffer
deriving DecidableEq, Repr

namespace SharedLog

def create (allocate : Allocator) (capacity : Nat) : Except AllocationError SharedLog :=
  (LogBuffer.create allocate capacity).map fun buffer => ⟨.free, buffer⟩

def view {α : Type} (log : SharedLog) (look : LogBuffer → α) : Option (α × SharedLog) :=
  log.lock.enterRead?.map fun held => (look log.buffer, { log with lock := held.leaveRead.1 })

/-- Extends the buffer with exclusive access. Without data there is nothing to ask access for. -/
def append (allocate : Allocator) (log : SharedLog) (data : Bytes) :
    Option (Except AllocationError Unit × SharedLog) :=
  if data.isEmpty then some (.ok (), log)
  else
    log.lock.announceWrite.enterWrite?.map fun held =>
      match log.buffer.append allocate data with
      | .ok buffer => (.ok (), { lock := held.leaveWrite.1, buffer })
      | .error e => (.error e, { log with lock := held.leaveWrite.1 })

end SharedLog

end PooledHttp
