import PooledHttp.SystemError
import PooledHttp.Text.Utf8

/-! Reading a request from a connection: up to the end of the headers, the end of the stream, or a
largest size, in reads of bounded length. -/

namespace PooledHttp

/-- What a connection has in store for the reads to come. Data may take several reads; empty data
is an end of the stream. -/
inductive ReadEvent
  | data (bytes : Bytes)
  | interrupted
  | failed (cause : SystemError)
deriving DecidableEq, Repr

namespace RequestReader

def maxRequestSize : Nat := 8192

def chunkSize : Nat := 1024

def terminators : List Bytes := [[13, 10, 13, 10], [10, 10]]

def hasHeaderEnd : Bytes → Bool
  | [] => false
  | b :: rest => terminators.any (·.isPrefixOf (b :: rest)) || hasHeaderEnd rest

def isComplete (raw : Bytes) : Bool := maxRequestSize ≤ raw.length || hasHeaderEnd raw

def limit (raw : Bytes) : Nat := min chunkSize (maxRequestSize - raw.length)

/-- Reads on from `raw`, and gives the result and what is left unread. Interrupted reads are tried
again. -/
def readFrom (raw : Bytes) (events : List ReadEvent) :
    Except SystemError Bytes × List ReadEvent :=
  if _done : isComplete raw then (.ok raw, events)
  else
    match events with
    | [] => (.ok raw, [])
    | .interrupted :: rest => readFrom raw rest
    | .failed cause :: rest => (.error cause, rest)
    | .data bytes :: rest =>
      if _empty : bytes = [] then (.ok raw, rest)
      else if bytes.length ≤ limit raw then readFrom (raw ++ bytes) rest
      else readFrom (raw ++ bytes.take (limit raw)) (.data (bytes.drop (limit raw)) :: rest)
termination_by (maxRequestSize - raw.length, events.length)
decreasing_by
  · exact Prod.Lex.right _ (by simp)
  all_goals
    have := List.length_pos_iff.2 _empty
    simp only [isComplete, Bool.or_eq_true, decide_eq_true_eq, not_or, Nat.not_le] at _done
    refine Prod.Lex.left _ _ ?_
    simp only [List.length_append, List.length_take, limit, chunkSize]
    omega

def read (events : List ReadEvent) : Except SystemError Bytes × List ReadEvent :=
  readFrom [] events

def unread : List ReadEvent → Nat
  | [] => 0
  | .data bytes :: rest => bytes.length + unread rest
  | _ :: rest => unread rest

end RequestReader

end PooledHttp
