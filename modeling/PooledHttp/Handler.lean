import PooledHttp.Content.Basic
import PooledHttp.Http.Request
import PooledHttp.Log.Buffer
import PooledHttp.RequestReader
import PooledHttp.StatBlock

/-! Answering one request: read it, find the answer and its kind, count it, put the statistics into
the answer, log what was served, and only then write. What this asks for in between, of files, of
the worker's counters, of the log and of the client, it asks one by one. -/

namespace PooledHttp

/-- What an answer is made from. -/
inductive Source
  | file (call : FileCall)
  | log
deriving DecidableEq, Repr

abbrev Source.Answer : Source → Type
  | file call => call.Answer
  | log => Bytes

/-- An answer before it carries statistics, with the kind of success it is, if it is one. -/
structure Draft where
  response : Response
  kind : Option Served
deriving DecidableEq, Repr

abbrev Drafting := Dialogue Source.Answer Draft

namespace Draft

def ofContent (kind : Served) : Except ContentError Response → Draft
  | .ok response => ⟨response, some kind⟩
  | .error e => ⟨e.response, none⟩

/-- A method that is known, or not, and has no answer. -/
def notImplemented (method : String) : Draft :=
  ⟨.error .notImplemented method "Method not implemented", none⟩

def ofError : RequestError → Draft
  | .unsupportedMethod method => notImplemented method
  | e => ⟨.error .badRequest e.message "Invalid request", none⟩

def ofFiles {α : Type} (content : Content α) : Dialogue Source.Answer (Except ContentError α) :=
  content.relay .file fun _ answer => answer

/-- POST reports the log, whatever existing path it names. -/
def ofRequest (root : String) (request : Request) : Drafting :=
  match request.method with
  | .get =>
    if Site.isDynamic request.path then
      (ofFiles (Content.run root request.path request.query)).map (ofContent .dynamic)
    else (ofFiles (Content.serve root request.path)).map (ofContent .static)
  | .post =>
    (ofFiles (Content.ensureExists root request.path)).bind fun
      | .error e => .done (ofContent .post (.error e))
      | .ok _ => .ask .log fun log => .done (ofContent .post (.ok (.content "text/plain" log)))
  | .head => .done (notImplemented Method.head.text)

def ofRaw (root : String) (raw : Bytes) : Drafting :=
  match Request.parse raw with
  | .ok request => ofRequest root request
  | .error e => .done (ofError e)

/-- The answer with its statistics, as they are after the count. -/
def answer (timing : Timing) (tally : Tally) (d : Draft) : Response :=
  d.response.setHeaders (StatBlock.build timing tally)

/-- Files and programs that were served are logged; reports and errors are not. -/
def isLogged (d : Draft) : Bool := d.kind == some .static || d.kind == some .dynamic

end Draft

/-- What a worker does alone. -/
inductive DeskCall
  | receive
  | file (call : FileCall)
  | count (kind : Option Served)
  | send (response : Response)
deriving DecidableEq, Repr

abbrev DeskCall.Answer : DeskCall → Type
  | receive => Except SystemError Bytes
  | file call => call.Answer
  | count _ => Tally
  | send _ => Unit

/-- What answering a request asks for: the log is shared, all else is the worker's own. -/
inductive HandlerCall
  | desk (call : DeskCall)
  | copyLog
  | appendLog (entry : Bytes)
deriving DecidableEq, Repr

abbrev HandlerCall.Answer : HandlerCall → Type
  | desk call => call.Answer
  | copyLog => Bytes
  | appendLog _ => Except AllocationError Unit

abbrev Handling := Dialogue HandlerCall.Answer (Option Status)

namespace Handling

/-- A connection that brought no request gets no answer, but counts. -/
def silent : Handling := .ask (.desk (.count none)) fun _ => .done none

def write (response : Response) : Handling :=
  .ask (.desk (.send response)) fun _ => .done (some response.status)

/-- The entry is logged before anything is written. A log that cannot grow loses it. -/
def finish (timing : Timing) (draft : Draft) : Handling :=
  .ask (.desk (.count draft.kind)) fun tally =>
    if draft.isLogged then
      .ask (.appendLog (Utf8.ofString (StatBlock.build timing tally).entry)) fun _ =>
        write (draft.answer timing tally)
    else write (draft.answer timing tally)

def source : Source → HandlerCall
  | .file call => .desk (.file call)
  | .log => .copyLog

def heard : (s : Source) → (source s).Answer → s.Answer
  | .file _, answer => answer
  | .log, answer => answer

def ofRaw (root : String) (timing : Timing) (raw : Bytes) : Handling :=
  ((Draft.ofRaw root raw).relay source heard).bind (finish timing)

/-- The answer to one request. Without one there is no status. -/
def answer (root : String) (timing : Timing) : Handling :=
  .ask (.desk .receive) fun
    | .error _ => silent
    | .ok raw => if raw.isEmpty then silent else ofRaw root timing raw

end Handling

/-- What a worker has of its own while it answers a request. -/
structure Desk where
  incoming : List ReadEvent
  output : Bytes
  tally : Tally
deriving DecidableEq, Repr

namespace Desk

def perform (machine : Machine) (desk : Desk) :
    (call : DeskCall) → Except TallyOverflow (call.Answer × Desk)
  | .receive =>
    let (raw, rest) := RequestReader.read desk.incoming
    .ok (raw, { desk with incoming := rest })
  | .file call => .ok (machine.answer call, desk)
  | .count kind => (desk.tally.count kind).map fun tally => (tally, { desk with tally })
  | .send response => .ok ((), { desk with output := desk.output ++ response.render })

/-- Answers a request while nobody else is at the log. -/
def run (machine : Machine) (allocate : Allocator) :
    Handling → Desk → LogBuffer → Except TallyOverflow (Option Status) × Desk × LogBuffer
  | .done status, desk, log => (.ok status, desk, log)
  | .ask (.desk call) next, desk, log =>
    match desk.perform machine call with
    | .error e => (.error e, desk, log)
    | .ok (answer, desk) => run machine allocate (next answer) desk log
  | .ask .copyLog next, desk, log => run machine allocate (next log.bytes) desk log
  | .ask (.appendLog entry) next, desk, log =>
    match log.append allocate entry with
    | .error e => run machine allocate (next (.error e)) desk log
    | .ok log => run machine allocate (next (.ok ())) desk log

end Desk

structure Exchange where
  status : Option Status
  output : Bytes
  tally : Tally
  log : LogBuffer
deriving DecidableEq, Repr

/-- What became of one request, and what of the connection is left unread. -/
def respond (site : Site) (allocate : Allocator) (timing : Timing) (tally : Tally)
    (log : LogBuffer) (events : List ReadEvent) :
    Except TallyOverflow Exchange × List ReadEvent :=
  match Desk.run site.machine allocate (Handling.answer site.root timing) ⟨events, [], tally⟩ log with
  | (.error e, desk, _) => (.error e, desk.incoming)
  | (.ok status, desk, log) => (.ok ⟨status, desk.output, desk.tally, log⟩, desk.incoming)

end PooledHttp
