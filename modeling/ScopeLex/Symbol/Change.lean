import ScopeLex.Symbol.Table

/-!
# Changes of the symbol table

Everything that can be done to a table, as data, with the answer it gets. A
refused change leaves the table as it was.

* `apply_refused`: a refusal changes nothing.
* `applyAll_append`: a longer run is two runs one after the other.
-/
namespace ScopeLex

/-- What a table can be asked for. -/
inductive Change where
  | enter
  | exit
  /-- Register a variable, tagged by the level at which it is declared. -/
  | declare (name : String) (type : Datatype)
  | register (name : String) (category : Category) (scope : ScopeTag)
  deriving DecidableEq, Repr

/-- What came of a change: the new level, the new symbol, or a refusal. -/
inductive Outcome where
  | entered (level : Nat)
  | exited (level : Nat)
  | registered (symbol : Symbol)
  | refused (fault : Fault)
  deriving DecidableEq, Repr

/-- The fault of a refusal. -/
def Outcome.fault? : Outcome → Option Fault
  | .refused fault => some fault
  | _ => none

/-- The symbol of a registration. -/
def Outcome.symbol? : Outcome → Option Symbol
  | .registered symbol => some symbol
  | _ => none

namespace SymbolTable

/-- Carry out a change. -/
def apply (t : SymbolTable) : Change → SymbolTable × Outcome
  | .enter => (t.enter, .entered (t.level + 1))
  | .exit =>
    match t.exit with
    | (u, .ok level) => (u, .exited level)
    | (u, .error fault) => (u, .refused fault)
  | .declare name type => registered (t.register name (.datatype type) (.forLevel t.level))
  | .register name category scope => registered (t.register name category scope)
where
  registered : SymbolTable × Except Fault Symbol → SymbolTable × Outcome
    | (u, .ok symbol) => (u, .registered symbol)
    | (u, .error fault) => (u, .refused fault)

/-- Carry out changes in order; the outcomes are appended to `outcomes`. -/
def applyFrom (t : SymbolTable) (outcomes : Array Outcome) :
    List Change → SymbolTable × Array Outcome
  | [] => (t, outcomes)
  | change :: changes =>
    let (u, outcome) := t.apply change
    u.applyFrom (outcomes.push outcome) changes

/-- Carry out changes in order, with the outcome of each. -/
def applyAll (t : SymbolTable) (changes : List Change) : SymbolTable × List Outcome :=
  let (u, outcomes) := t.applyFrom #[] changes
  (u, outcomes.toList)

/-! ## Laws -/

theorem fst_register_of_error {t : SymbolTable} {name : String} {category : Category}
    {scope : ScopeTag} {fault : Fault} (h : (t.register name category scope).2 = .error fault) :
    (t.register name category scope).1 = t := by
  cases hr : t.refusal? name category with
  | some f => rw [register_of_refusal hr]
  | none => rw [register_of_no_refusal hr] at h; cases h

theorem apply_refused {t : SymbolTable} {change : Change} {fault : Fault}
    (h : (t.apply change).2 = .refused fault) : (t.apply change).1 = t := by
  have registered_refused : ∀ r : SymbolTable × Except Fault Symbol,
      (apply.registered r).2 = .refused fault →
        r.2 = .error fault ∧ (apply.registered r).1 = r.1 := by
    rintro ⟨u, f | symbol⟩ h
    · cases h; exact ⟨rfl, rfl⟩
    · cases h
  cases change with
  | enter => cases h
  | exit =>
    obtain ⟨nested, globals, history, nextAddress⟩ := t
    cases nested with
    | nil => rfl
    | cons inner outer => cases h
  | declare name type =>
    obtain ⟨he, hu⟩ := registered_refused _ h
    exact hu.trans (fst_register_of_error he)
  | register name category scope =>
    obtain ⟨he, hu⟩ := registered_refused _ h
    exact hu.trans (fst_register_of_error he)

theorem applyFrom_eq (t : SymbolTable) (outcomes : Array Outcome) (changes : List Change) :
    t.applyFrom outcomes changes =
      ((t.applyAll changes).1, outcomes ++ (t.applyAll changes).2.toArray) := by
  induction changes generalizing t outcomes with
  | nil => simp [applyFrom, applyAll]
  | cons change changes ih =>
    simp only [applyAll, applyFrom]
    rw [ih, ih _ (#[].push _)]
    simp

@[simp] theorem applyAll_nil (t : SymbolTable) : t.applyAll [] = (t, []) := rfl

theorem applyAll_cons (t : SymbolTable) (change : Change) (changes : List Change) :
    t.applyAll (change :: changes) =
      (((t.apply change).1.applyAll changes).1,
        (t.apply change).2 :: ((t.apply change).1.applyAll changes).2) := by
  conv => lhs; simp only [applyAll, applyFrom]
  rw [applyFrom_eq]
  simp

theorem applyAll_append (t : SymbolTable) (first second : List Change) :
    t.applyAll (first ++ second) =
      (((t.applyAll first).1.applyAll second).1,
        (t.applyAll first).2 ++ ((t.applyAll first).1.applyAll second).2) := by
  induction first generalizing t with
  | nil => simp
  | cons change first ih => simp [applyAll_cons, ih]

end SymbolTable

end ScopeLex
