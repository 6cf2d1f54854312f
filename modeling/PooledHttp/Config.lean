import PooledHttp.Error
import PooledHttp.Queue.Basic

/-! How a server is set up, and which set-ups are refused. -/

namespace PooledHttp

structure Config where
  port : Nat
  threads : Nat
  queueSize : Nat
  host : String
  documentRoot : String
  admission : AdmissionPolicy
  logCapacity : Nat
  logFilter : String
deriving DecidableEq, Repr

namespace Config

def standard : Config :=
  { port := 8080
    threads := 4
    queueSize := 16
    host := "0.0.0.0"
    documentRoot := "./public"
    admission := .inFlight
    logCapacity := LogBuffer.defaultCapacity
    logFilter := "info" }

def address (c : Config) : String := c.host ++ ":" ++ Decimal.text c.port

/-- Reports the first of the four numbers that is zero. -/
def validate (c : Config) : Except ServerError Unit :=
  if c.port = 0 then .error (.invalidConfig "Port must be between 1 and 65535")
  else if c.threads = 0 then .error (.invalidConfig "Threads must be >= 1")
  else if c.queueSize = 0 then .error (.invalidConfig "Queue size must be >= 1")
  else if c.logCapacity = 0 then .error (.invalidConfig "Log capacity must be >= 1")
  else .ok ()

end Config

end PooledHttp
