import ScopeLex.Symbol.Literal

/-!
# Runs of table operations

The operations that change a table, seen from outside: single changes and the
registration of literals, which is a run of changes itself.

* `performAll_eq_applyAll`: a run of calls is a run of changes.
-/
namespace ScopeLex

/-- An operation on a table. -/
inductive Call where
  | change (c : Change)
  | literals (tokens : List Token)
  deriving DecidableEq, Repr

/-- The changes that make up a call. -/
def Call.changes : Call → List Change
  | .change c => [c]
  | .literals tokens => (Literal.ofTokens tokens).map Literal.change

namespace SymbolTable

/-- Carry out a call. -/
def perform (t : SymbolTable) : Call → SymbolTable
  | .change c => (t.apply c).1
  | .literals tokens => (t.registerLiterals tokens .empty).1

/-- Carry out calls in order. -/
def performAll (t : SymbolTable) (calls : List Call) : SymbolTable := calls.foldl perform t

theorem perform_eq_applyAll (t : SymbolTable) (call : Call) :
    t.perform call = (t.applyAll call.changes).1 := by
  cases call with
  | change c => simp [perform, Call.changes, applyAll_cons]
  | literals tokens => rfl

theorem performAll_eq_applyAll (t : SymbolTable) (calls : List Call) :
    t.performAll calls = (t.applyAll (calls.flatMap Call.changes)).1 := by
  induction calls generalizing t with
  | nil => rfl
  | cons call calls ih =>
    rw [List.flatMap_cons, applyAll_append, ← perform_eq_applyAll]
    exact ih _

end SymbolTable

end ScopeLex
