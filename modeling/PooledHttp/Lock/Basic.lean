/-! The counters of a readers-writer lock that prefers writers. A reader waits while a writer is
inside or waits; a writer announces itself first and then waits for everyone inside. Each function
is one critical section, or the part of one up to where it waits. -/

namespace PooledHttp

structure LockCounters where
  readers : Nat
  writers : Nat
  waiting : Nat
deriving DecidableEq, Repr

inductive Wake
  | nobody
  | oneWriter
  | allReaders
deriving DecidableEq, Repr

namespace LockCounters

def free : LockCounters := ⟨0, 0, 0⟩

def enterRead? (c : LockCounters) : Option LockCounters :=
  if c.writers = 0 ∧ c.waiting = 0 then some { c with readers := c.readers + 1 } else none

def announceWrite (c : LockCounters) : LockCounters := { c with waiting := c.waiting + 1 }

def enterWrite? (c : LockCounters) : Option LockCounters :=
  if c.readers = 0 ∧ c.writers = 0 then some { c with writers := 1, waiting := c.waiting - 1 }
  else none

/-- The last reader to leave awakens a writer. -/
def leaveRead (c : LockCounters) : LockCounters × Wake :=
  ({ c with readers := c.readers - 1 }, if c.readers - 1 = 0 then .oneWriter else .nobody)

/-- Readers are awakened only when no writer waits. -/
def leaveWrite (c : LockCounters) : LockCounters × Wake :=
  ({ c with writers := 0 }, if 0 < c.waiting then .oneWriter else .allReaders)

end LockCounters

end PooledHttp
