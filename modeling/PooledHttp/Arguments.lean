import PooledHttp.Config

/-! Settings from the command line, from the environment, and by default. An argument is kept
pending until the next one settles what it means, so an unknown flag is reported before a bad value
that stands right in front of it. -/

namespace PooledHttp

/-- Why the arguments give no configuration: a request for information, or a defect. -/
inductive UsageError
  | displayHelp
  | displayVersion
  | unknownArgument
  | missingRequired
  | invalidValue
  | valueValidation
  | argumentConflict
  | tooManyValues
deriving DecidableEq, Repr

/-- Information goes to the output, a defect to the error stream. -/
def UsageError.isDefect : UsageError → Bool
  | displayHelp | displayVersion => false
  | _ => true

inductive Setting
  | port
  | threads
  | queueSize
  | host
  | documentRoot
  | admission
  | logCapacity
  | logFilter
deriving DecidableEq, Repr

namespace Setting

def all : List Setting :=
  [port, threads, queueSize, host, documentRoot, admission, logCapacity, logFilter]

/-- The settings given by place. They are also the required ones. -/
def positional : List Setting := [port, threads, queueSize]

def flag? : Setting → Option String
  | port | threads | queueSize => none
  | host => some "host"
  | documentRoot => some "root"
  | admission => some "admission"
  | logCapacity => some "log-capacity"
  | logFilter => some "log-filter"

def ofFlag? (name : String) : Option Setting := all.find? (·.flag? == some name)

def variableName : Setting → String
  | port => "SERVER_PORT"
  | threads => "SERVER_THREADS"
  | queueSize => "SERVER_QUEUE_SIZE"
  | host => "SERVER_HOST"
  | documentRoot => "DOCUMENT_ROOT"
  | admission => "SERVER_ADMISSION"
  | logCapacity => "SERVER_LOG_CAPACITY"
  | logFilter => "RUST_LOG"

def number (limit : Nat) (text : String) : Except UsageError Nat :=
  match Decimal.read? limit text.toList with
  | some n => .ok n
  | none => .error .valueValidation

def assign (setting : Setting) (text : String) (c : Config) : Except UsageError Config :=
  match setting with
  | port => (number Decimal.max16 text).map fun n => { c with port := n }
  | threads => (number Decimal.max64 text).map fun n => { c with threads := n }
  | queueSize => (number Decimal.max64 text).map fun n => { c with queueSize := n }
  | host => .ok { c with host := text }
  | documentRoot =>
    if text.isEmpty then .error .invalidValue else .ok { c with documentRoot := text }
  | admission =>
    match AdmissionPolicy.ofText? text with
    | some policy => .ok { c with admission := policy }
    | none => .error .invalidValue
  | logCapacity => (number Decimal.max64 text).map fun n => { c with logCapacity := n }
  | logFilter => .ok { c with logFilter := text }

end Setting

structure ArgumentReader where
  config : Config
  given : List Setting
  /-- A setting that is not settled yet, with its value once that has come. -/
  pending : Option (Setting × Option String)
  placed : Nat
  /-- After two dashes alone, every argument counts by its place. -/
  trailing : Bool
deriving DecidableEq, Repr

namespace ArgumentReader

def initial : ArgumentReader := ⟨.standard, [], none, 0, false⟩

/-- A missing value is noticed before a repeated setting, and that before a bad value. -/
def settle (r : ArgumentReader) : Except UsageError ArgumentReader :=
  match r.pending with
  | none => .ok r
  | some (_, none) => .error .invalidValue
  | some (setting, some text) =>
    if setting ∈ r.given then .error .argumentConflict
    else (setting.assign text r.config).map fun config =>
      { r with config, given := setting :: r.given, pending := none }

/-- One argument too many is reported before whatever is wrong with those in front of it. -/
def place (r : ArgumentReader) (text : String) : Except UsageError ArgumentReader :=
  match Setting.positional[r.placed]? with
  | none => .error .unknownArgument
  | some setting =>
    r.settle.map fun r =>
      { r with pending := some (setting, some text), placed := r.placed + 1 }

/-- A word without dashes is the value that the pending setting waits for, or counts by place. -/
def word (r : ArgumentReader) (text : String) : Except UsageError ArgumentReader :=
  match r.pending with
  | some (setting, none) => .ok { r with pending := some (setting, some text) }
  | _ => r.place text

/-- Asks for information, once what stands in front is settled. -/
def inform (r : ArgumentReader) (information : UsageError) :
    Except UsageError ArgumentReader :=
  r.settle.bind fun _ => .error information

def long (r : ArgumentReader) (name : String) (value : Option String) :
    Except UsageError ArgumentReader :=
  match Setting.ofFlag? name with
  | some setting =>
    r.settle.bind fun r =>
      let r := { r with pending := some (setting, value) }
      if value.isSome then r.settle else .ok r
  | none =>
    if name = "help" ∨ name = "version" then
      if value.isSome then .error .tooManyValues
      else r.inform (if name = "help" then .displayHelp else .displayVersion)
    else .error .unknownArgument

/-- Of letters behind one dash the first decides. -/
def short (r : ArgumentReader) (letter : Char) : Except UsageError ArgumentReader :=
  if letter = 'h' then r.inform .displayHelp
  else if letter = 'V' then r.inform .displayVersion
  else .error .unknownArgument

def read (r : ArgumentReader) (argument : String) : Except UsageError ArgumentReader :=
  if r.trailing then r.place argument
  else
    match argument.toList with
    | ['-', '-'] => .ok { r with trailing := true }
    | '-' :: '-' :: rest =>
      let name := String.ofList (rest.takeWhile (· != '='))
      let value := (rest.dropWhile (· != '=')).tail?.map String.ofList
      r.long name value
    | '-' :: letter :: _ => r.short letter
    | _ => r.word argument

/-- Settings that no argument gave are taken from the environment, even if they are empty there. -/
def readVariables (environment : List (String × String)) (r : ArgumentReader) :
    Except UsageError ArgumentReader :=
  Setting.all.foldlM (fun r setting =>
    if setting ∈ r.given then .ok r
    else
      match environment.lookup setting.variableName with
      | none => .ok r
      | some text => { r with pending := some (setting, some text) }.settle) r

/-- The three settings given by place have no default. -/
def finish (r : ArgumentReader) : Except UsageError Config :=
  if Setting.positional.all (· ∈ r.given) then .ok r.config else .error .missingRequired

end ArgumentReader

def Config.ofArguments (arguments : List String) (environment : List (String × String)) :
    Except UsageError Config :=
  (arguments.foldlM ArgumentReader.read ArgumentReader.initial).bind fun r =>
    r.settle.bind fun r =>
      (r.readVariables environment).bind ArgumentReader.finish

end PooledHttp
