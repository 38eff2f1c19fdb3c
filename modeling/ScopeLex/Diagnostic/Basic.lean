import ScopeLex.Fault
import ScopeLex.Text.Layout

/-!
# Diagnostics

A diagnostic is a message tied to a line and, where it is known, to a column.
Diagnostics are collected in the order in which they arise.
-/
namespace ScopeLex

open Text (Caption)

structure Diagnostic where
  line : Nat
  column : Option Nat
  severity : Severity
  message : String
  deriving DecidableEq, Repr

namespace Diagnostic

/-- A fault found on a line. -/
def ofFault (fault : Fault) (line : Nat) (column : Option Nat) : Diagnostic :=
  ⟨line, column, fault.severity, fault.message⟩

/-- One line: severity, place and message. -/
def describe (d : Diagnostic) : String :=
  let place := match d.column with
    | some column => toString d.line ++ ":" ++ toString column
    | none => toString d.line
  d.severity.name ++ ":" ++ place ++ ": " ++ d.message

def caption (d : Diagnostic) : Caption := .sentence d.describe

end Diagnostic

def Severity.caption (severity : Severity) : Caption := .sentence severity.name

/-- The diagnostics of a run, oldest first. -/
structure Diagnostics where
  items : Array Diagnostic
  deriving DecidableEq, Repr

namespace Diagnostics

def empty : Diagnostics := ⟨#[]⟩

def add (ds : Diagnostics) (d : Diagnostic) : Diagnostics := ⟨ds.items.push d⟩

/-- Add an error without a column. -/
def addError (ds : Diagnostics) (line : Nat) (message : String) : Diagnostics :=
  ds.add ⟨line, none, .error, message⟩

/-- Add a warning without a column. -/
def addWarning (ds : Diagnostics) (line : Nat) (message : String) : Diagnostics :=
  ds.add ⟨line, none, .warning, message⟩

def size (ds : Diagnostics) : Nat := ds.items.size

def toList (ds : Diagnostics) : List Diagnostic := ds.items.toList

def hasErrors (ds : Diagnostics) : Bool := ds.items.any (·.severity == .error)

@[simp] theorem toList_empty : empty.toList = [] := rfl

@[simp] theorem toList_add (ds : Diagnostics) (d : Diagnostic) :
    (ds.add d).toList = ds.toList ++ [d] := by simp [add, toList]

theorem hasErrors_eq_any (ds : Diagnostics) :
    ds.hasErrors = ds.toList.any (·.severity == .error) := by
  simp [hasErrors, toList]

end Diagnostics

end ScopeLex
