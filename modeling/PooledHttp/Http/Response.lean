import PooledHttp.Http.Status
import PooledHttp.Text.Utf8

/-! An answer: a status, headers in the order in which their names first came, and a body. -/

namespace PooledHttp

structure Response where
  status : Status
  headers : List (String × String)
  body : Bytes
deriving DecidableEq, Repr

namespace Response

def serverName : String := "Stat Web Server"

def empty (status : Status) : Response := ⟨status, [("Server", serverName)], []⟩

/-- A name that is already there keeps its place and takes the new value. -/
def setIn (name value : String) : List (String × String) → List (String × String)
  | [] => [(name, value)]
  | (n, v) :: rest => if n = name then (n, value) :: rest else (n, v) :: setIn name value rest

def setHeader (r : Response) (name value : String) : Response :=
  { r with headers := setIn name value r.headers }

def setHeaders (r : Response) (fields : List (String × String)) : Response :=
  fields.foldl (fun r field => r.setHeader field.1 field.2) r

def withBody (r : Response) (body : Bytes) : Response :=
  { r with body }.setHeader "Content-Length" (Decimal.text body.length)

def content (mediaType : String) (body : Bytes) : Response :=
  ((empty .ok).setHeader "Content-Type" mediaType).withBody body

/-- A short page that names what went wrong and what caused it. -/
def errorPage (status : Status) (cause message : String) : String :=
  "<html><title>Server Error</title><body>\r\n" ++ Decimal.text status.code ++ ": " ++
    status.reason ++ "\r\n<p>" ++ message ++ ": " ++ cause ++ "\r\n</body></html>\r\n"

def error (status : Status) (cause message : String) : Response :=
  ((empty status).setHeader "Content-Type" "text/html").withBody
    (Utf8.ofString (errorPage status cause message))

def header? (r : Response) (name : String) : Option String := r.headers.lookup name

def statusLine (status : Status) : String := "HTTP/1.0 " ++ status.text ++ "\r\n"

def headerLine (field : String × String) : String := field.1 ++ ": " ++ field.2 ++ "\r\n"

def render (r : Response) : Bytes :=
  Utf8.ofString (statusLine r.status) ++ r.headers.flatMap (Utf8.ofString ∘ headerLine) ++
    Utf8.ofString "\r\n" ++ r.body

end Response

end PooledHttp
