import PooledHttp.Error
import PooledHttp.Text.Basic

/-! Which diagnostic events are shown. A filter is a list of directives; each may name a target, a
span, fields, and the most detailed level it lets through. The directive with the most specific
target decides. -/

namespace PooledHttp.Diagnostics

/-- From the levels that say least to those that say most. -/
inductive Level
  | off
  | error
  | warn
  | info
  | debug
  | trace
deriving DecidableEq, Repr

namespace Level

def detail : Level → Nat
  | off => 0
  | error => 1
  | warn => 2
  | info => 3
  | debug => 4
  | trace => 5

def name : Level → String
  | off => "off"
  | error => "error"
  | warn => "warn"
  | info => "info"
  | debug => "debug"
  | trace => "trace"

def all : List Level := [off, error, warn, info, debug, trace]

/-- A level is given by its number or by its name, in letters of either case. -/
def ofText? (text : List Char) : Option Level :=
  match Decimal.read? Decimal.max64 text with
  | some n => all.find? (·.detail == n)
  | none => all.find? fun level => level.name.toList == text.map Char.toLower

end Level

structure Directive where
  target : Option (List Char)
  span : Option (List Char)
  fields : List (List Char)
  level : Level
deriving DecidableEq, Repr

inductive FilterError
  | directive
  | level
deriving DecidableEq, Repr

def FilterError.message : FilterError → String
  | directive => "invalid filter directive"
  | level => "error parsing level filter: expected one of \"off\", \"error\", \"warn\", " ++
      "\"info\", \"debug\", \"trace\", or a number 0-5"

namespace Directive

/-- Where in a directive the reader stands, with the text of the part it is in. -/
inductive Part
  | start
  | levelOrTarget (text : List Char)
  | span (text : List Char)
  | field (text : List Char)
  | fieldsEnd
  | spanEnd
  | level (text : List Char)
deriving DecidableEq, Repr

/-- Letters, digits and three marks may begin a directive. Beyond ASCII every character counts as
a letter. -/
def canBegin (c : Char) : Bool := c.isAlphanum || c == '-' || c == ':' || c == '_' || 128 ≤ c.toNat

def feed (d : Directive) (part : Part) (c : Char) : Except FilterError (Directive × Part) :=
  match part with
  | .start =>
    if c = '[' then .ok (d, .span [])
    else if canBegin c then .ok (d, .levelOrTarget [c])
    else .error .directive
  | .levelOrTarget text =>
    if c = '=' then .ok ({ d with target := some text }, .level [])
    else if c = '[' then .ok ({ d with target := some text }, .span [])
    else .ok (d, .levelOrTarget (text ++ [c]))
  | .span text =>
    if c = ']' then .ok ({ d with span := some text }, .spanEnd)
    else if c = '\x7b' then
      .ok ({ d with span := if text.isEmpty then none else some text }, .field [])
    else .ok (d, .span (text ++ [c]))
  | .field text =>
    if c = '\x7d' then
      if text.isEmpty then .error .directive
      else .ok ({ d with fields := d.fields ++ [text] }, .fieldsEnd)
    else .ok (d, .field (text ++ [c]))
  | .fieldsEnd => if c = ']' then .ok (d, .spanEnd) else .error .directive
  | .spanEnd => if c = '=' then .ok (d, .level []) else .error .directive
  | .level text => .ok (d, .level (text ++ [c]))

/-- A text that is no level is a target of which everything is shown. -/
def finish (d : Directive) : Part → Except FilterError Directive
  | .levelOrTarget text =>
    match Level.ofText? text with
    | some level => .ok { d with level }
    | none => .ok { d with target := some text }
  | .level text =>
    if text.isEmpty then .ok d
    else
      match Level.ofText? text with
      | some level => .ok { d with level }
      | none => .error .level
  | .spanEnd => .ok d
  | _ => .error .directive

def read (text : List Char) : Except FilterError Directive :=
  match (Blank.trim text).foldlM (fun s c => feed s.1 s.2 c)
      ((⟨none, none, [], .trace⟩ : Directive), Part.start) with
  | .error e => .error e
  | .ok (d, part) => d.finish part

/-- Directives that look at spans or at the values of fields concern no event outside a span. -/
def isStatic (d : Directive) : Bool := d.span.isNone && d.fields.all (fun f => '=' ∉ f)

end Directive

structure Event where
  target : String
  level : Level
  fields : List String
deriving DecidableEq, Repr

abbrev Filter := List Directive

namespace Filter

def standard : Filter := [⟨none, none, [], .error⟩]

/-- Directives are separated by commas; empty ones are passed over. -/
def read (text : String) : Except FilterError Filter :=
  (((text.toList.splitOn ',').filter (fun piece => !piece.isEmpty)).mapM Directive.read).map
    fun directives => if directives.isEmpty then standard else directives

def concerns (d : Directive) (e : Event) : Bool :=
  d.isStatic && (d.target.getD []).isPrefixOf e.target.toList &&
    d.fields.all fun f => e.fields.any (·.toList == f)

/-- Longer targets and more fields are more specific. -/
def rank (d : Directive) : Nat × Nat :=
  ((d.target.map fun t => t.length + 1).getD 0, d.fields.length)

/-- Of equally specific directives the later one prevails. -/
def moreSpecific (best : Option Directive) (d : Directive) : Option Directive :=
  match best with
  | none => some d
  | some b =>
    if (rank d).1 < (rank b).1 ∨ (rank d).1 = (rank b).1 ∧ (rank d).2 < (rank b).2 then some b
    else some d

def shows (f : Filter) (e : Event) : Bool :=
  match (f.filter (concerns · e)).foldl moreSpecific none with
  | none => false
  | some d => e.level.detail ≤ d.level.detail

end Filter

/-- Sets the filter up, which can be done once in a process. -/
def install (installed : Bool) (filter : String) : Except ServerError Filter :=
  match Filter.read filter with
  | .error e =>
    .error (.diagnostics ("invalid filter '" ++ filter ++ "': " ++ e.message))
  | .ok f =>
    if installed then
      .error (.diagnostics "a global default trace dispatcher has already been set")
    else .ok f

end PooledHttp.Diagnostics
