import PooledHttp.Text.Basic

/-! The status codes that an answer can carry. -/

namespace PooledHttp

inductive Status
  | ok
  | badRequest
  | forbidden
  | notFound
  | internalServerError
  | notImplemented
deriving DecidableEq, Repr

namespace Status

def code : Status → Nat
  | ok => 200
  | badRequest => 400
  | forbidden => 403
  | notFound => 404
  | internalServerError => 500
  | notImplemented => 501

def reason : Status → String
  | ok => "OK"
  | badRequest => "Bad Request"
  | forbidden => "Forbidden"
  | notFound => "Not Found"
  | internalServerError => "Internal Server Error"
  | notImplemented => "Not Implemented"

def all : List Status :=
  [ok, badRequest, forbidden, notFound, internalServerError, notImplemented]

def ofCode? (code : Nat) : Option Status := all.find? (·.code == code)

def isSuccess (s : Status) : Bool := s == ok

def text (s : Status) : String := Decimal.text s.code ++ " " ++ s.reason

end Status

end PooledHttp
