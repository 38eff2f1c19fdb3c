/-!
# What can be wrong with a program

Faults are causes; their wording is in `Fault.message` and `Fault.tip`.
-/
namespace ScopeLex

inductive Severity where
  | warning | error
  deriving DecidableEq, Repr

def Severity.name : Severity → String
  | .warning => "warning"
  | .error => "error"

inductive Fault where
  /-- A character at which no token begins. -/
  | strayCharacter (c : Char)
  /-- A name that the current block already holds. -/
  | redeclared (name : String)
  /-- A variable whose name is not an identifier. -/
  | malformedName (name : String)
  /-- A block is closed where none is open. -/
  | unmatchedClose
  deriving DecidableEq, Repr

namespace Fault

/-- The short name of the kind of fault. -/
def label : Fault → String
  | .strayCharacter _ => "UnrecognisedToken"
  | .redeclared _ => "AlreadyDeclared"
  | .malformedName _ => "InvalidIdentifier"
  | .unmatchedClose => "GlobalScopeExit"

def severity : Fault → Severity
  | .strayCharacter _ | .malformedName _ => .error
  | .redeclared _ | .unmatchedClose => .warning

def message : Fault → String
  | .strayCharacter c => "unrecognized token near: '" ++ String.singleton c ++ "'"
  | .redeclared name => "redeclaration of symbol '" ++ name ++ "' in the current scope"
  | .malformedName name => "invalid identifier '" ++ name ++ "', identifiers must be lowercase"
  | .unmatchedClose => "attempted to exit the global scope"

/-- Advice on mending the fault. -/
def tip : Fault → Option String
  | .strayCharacter _ => none
  | .redeclared name =>
    some ("`" ++ name ++ "` is already declared in this block, the earlier declaration is kept")
  | .malformedName name =>
    some ("rename `" ++ name ++
      "` so it starts with a lowercase letter followed by lowercase letters, digits or underscores")
  | .unmatchedClose => some "is there an unmatched `\x7d`?"

end Fault

end ScopeLex
