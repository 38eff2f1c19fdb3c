import ScopeLex.Analysis.Record
import ScopeLex.Symbol.Literal

/-!
# The state of a run

Everything that a run has produced so far. Each operation appends to the
lists and records what it did.

* `table_carryAll`: the table sees nothing but the changes.
* `registerLiterals_eq`: so does the registration of literals.
-/
namespace ScopeLex

structure Analysis where
  tokens : Array Token
  table : SymbolTable
  diagnostics : Diagnostics
  log : Array Record

namespace Analysis

/-- A run that begins with `table` and has found nothing yet. -/
def start (table : SymbolTable) : Analysis := ⟨#[], table, .empty, #[]⟩

/-- Emit a token. -/
def push (a : Analysis) (t : Token) : Analysis :=
  { a with tokens := a.tokens.push t, log := a.log.push (.token t) }

/-- Report a diagnostic. -/
def report (a : Analysis) (d : Diagnostic) : Analysis :=
  { a with diagnostics := a.diagnostics.add d, log := a.log.push (.diagnostic d) }

/-- Take note of what came of a change asked for on `line`. -/
def note (a : Analysis) (line : Nat) (outcome : Outcome) : Analysis :=
  match outcome with
  | .refused fault => a.report (.ofFault fault line none)
  | _ => { a with log := a.log.push (.ofOutcome line outcome) }

/-- Change the table, as asked for on `line`. -/
def carry (a : Analysis) (line : Nat) (change : Change) : Analysis :=
  let (table, outcome) := a.table.apply change
  { a with table }.note line outcome

/-- Carry out changes in order, each with its line. -/
def carryAll (a : Analysis) (changes : List (Nat × Change)) : Analysis :=
  changes.foldl (fun a c => a.carry c.1 c.2) a

/-- Register the literals among the tokens emitted so far. -/
def registerLiterals (a : Analysis) : Analysis :=
  a.carryAll ((Literal.ofTokens a.tokens.toList).map fun l => (l.line, l.change))

/-- Record the end of the scan. -/
def close (a : Analysis) : Analysis :=
  { a with
    log := a.log.push (.scanned a.tokens.size a.table.history.size a.diagnostics.size) }

/-! ## Laws -/

@[simp] theorem table_note (a : Analysis) (line : Nat) (outcome : Outcome) :
    (a.note line outcome).table = a.table := by
  cases outcome <;> rfl

@[simp] theorem tokens_note (a : Analysis) (line : Nat) (outcome : Outcome) :
    (a.note line outcome).tokens = a.tokens := by
  cases outcome <;> rfl

/-- The outcome is recorded, also if it is a refusal. -/
theorem log_note (a : Analysis) (line : Nat) (outcome : Outcome) :
    (a.note line outcome).log = a.log.push (.ofOutcome line outcome) := by
  cases outcome <;> rfl

@[simp] theorem table_carry (a : Analysis) (line : Nat) (change : Change) :
    (a.carry line change).table = (a.table.apply change).1 := by
  simp [carry]

@[simp] theorem tokens_carry (a : Analysis) (line : Nat) (change : Change) :
    (a.carry line change).tokens = a.tokens := by
  simp [carry]

theorem log_carry (a : Analysis) (line : Nat) (change : Change) :
    (a.carry line change).log = a.log.push (.ofOutcome line (a.table.apply change).2) :=
  log_note _ _ _

theorem table_carryAll (a : Analysis) (changes : List (Nat × Change)) :
    (a.carryAll changes).table = (a.table.applyAll (changes.map Prod.snd)).1 := by
  induction changes generalizing a with
  | nil => rfl
  | cons c changes ih =>
    rw [List.map_cons, SymbolTable.applyAll_cons, ← table_carry a c.1]
    exact ih _

theorem tokens_carryAll (a : Analysis) (changes : List (Nat × Change)) :
    (a.carryAll changes).tokens = a.tokens := by
  induction changes generalizing a with
  | nil => rfl
  | cons c changes ih => rw [← tokens_carry a c.1 c.2]; exact ih _

theorem diagnostics_carry (a : Analysis) (line : Nat) (change : Change) :
    (a.carry line change).diagnostics = a.diagnostics.note line (a.table.apply change).2 := by
  simp only [carry]
  cases (a.table.apply change).2 <;> rfl

theorem diagnostics_carryAll (a : Analysis) (changes : List (Nat × Change)) :
    (a.carryAll changes).diagnostics =
      ((changes.map Prod.fst).zip (a.table.applyAll (changes.map Prod.snd)).2).foldl
        (fun ds o => ds.note o.1 o.2) a.diagnostics := by
  induction changes generalizing a with
  | nil => rfl
  | cons c changes ih =>
    have h := ih (a.carry c.1 c.2)
    rw [table_carry, diagnostics_carry] at h
    rw [List.map_cons, List.map_cons, SymbolTable.applyAll_cons]
    exact h

/-- Registering literals needs the table and the diagnostics alone. -/
theorem registerLiterals_eq (a : Analysis) :
    (a.registerLiterals.table, a.registerLiterals.diagnostics) =
      a.table.registerLiterals a.tokens.toList a.diagnostics := by
  simp [registerLiterals, table_carryAll, diagnostics_carryAll, SymbolTable.registerLiterals,
    Function.comp_def]

end Analysis

end ScopeLex
