import PooledHttp.Log.Buffer
import PooledHttp.SystemError

/-! What keeps a server from starting. -/

namespace PooledHttp

inductive ServerError
  | invalidConfig (problem : String)
  | bind (address : String) (cause : SystemError)
  | spawn (worker : Nat) (cause : SystemError)
  | io (cause : SystemError)
  | log (cause : AllocationError)
  | diagnostics (problem : String)
deriving DecidableEq, Repr

namespace ServerError

def message : ServerError → String
  | invalidConfig problem => "invalid configuration: " ++ problem
  | bind address cause => "failed to bind " ++ address ++ ": " ++ cause.message
  | spawn worker cause =>
    "failed to spawn worker " ++ Decimal.text worker ++ ": " ++ cause.message
  | io cause => "I/O error: " ++ cause.message
  | log cause => cause.message
  | diagnostics problem => "failed to initialize logging: " ++ problem

/-- The message of what lies behind the error, if something does. An error of the log stands for
itself, so what lies behind it is the refusal of memory. -/
def source? : ServerError → Option String
  | invalidConfig _ | diagnostics _ => none
  | bind _ cause | spawn _ cause | io cause => some cause.message
  | log cause => some cause.cause.message

end ServerError

end PooledHttp
