import ScopeLex.Diagnostic.Basic
import ScopeLex.Symbol.Change

/-!
# The log of a run

One record for each token, each change of the table and each diagnostic, in
the order in which they happen, and one that closes the scan.
-/
namespace ScopeLex

inductive Record where
  | token (t : Token)
  | entered (level : Nat)
  | exited (level : Nat)
  | registered (s : Symbol)
  | diagnostic (d : Diagnostic)
  /-- The scan is over; how much it found so far. -/
  | scanned (tokens symbols diagnostics : Nat)
  deriving DecidableEq, Repr

/-- How much a record matters. -/
inductive Verbosity where
  | trace | debug | warn
  deriving DecidableEq, Repr

def Verbosity.name : Verbosity → String
  | .trace => "TRACE"
  | .debug => "DEBUG"
  | .warn => "WARN"

namespace Record

def verbosity : Record → Verbosity
  | .token _ => .trace
  | .entered _ | .exited _ | .registered _ | .scanned .. => .debug
  | .diagnostic _ => .warn

def text : Record → String
  | .token t => t.describe
  | .entered level => "entered scope level " ++ toString level
  | .exited level => "exited to scope level " ++ toString level
  | .registered s =>
    "registered `" ++ s.name ++ "` as " ++ s.category.name ++ " at level " ++ toString s.level ++
      ", address " ++ toString s.address
  | .diagnostic d => d.describe
  | .scanned tokens symbols diagnostics =>
    "tokenized " ++ toString tokens ++ " tokens, " ++ toString symbols ++ " symbols, " ++
      toString diagnostics ++ " diagnostics"

def describe (r : Record) : String := r.verbosity.name ++ " " ++ r.text

/-- The record of an outcome; a refusal is recorded as its diagnostic. -/
def ofOutcome (line : Nat) : Outcome → Record
  | .entered level => .entered level
  | .exited level => .exited level
  | .registered s => .registered s
  | .refused fault => .diagnostic (.ofFault fault line none)

end Record

end ScopeLex
