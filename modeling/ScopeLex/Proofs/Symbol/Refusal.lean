import ScopeLex.Proofs.Symbol.Visibility

/-!
# Refused changes

A refusal leaves no trace: a run goes on as if the change had not been asked for. Why
a registration is refused can be told from the run alone, by the names that the
innermost scope has taken.

* `SymbolTable.applyAll_accepted`: a run without its refused changes.
* `SymbolTable.register_eq_redeclared_iff`, `SymbolTable.register_eq_malformedName_iff`,
  `SymbolTable.register_eq_ok_iff`: the answers to a registration.
* `distinct_applyAll`: no scope takes a name twice.
* `refused_erasable`: all of it for the runs of a table.
-/
namespace ScopeLex

open SymbolTable (Step)

/-! ## Without the refused changes -/

namespace SymbolTable

/-- The changes that are not refused when `changes` are carried out in order. -/
def accepted (t : SymbolTable) (changes : List Change) : List Change :=
  ((changes.zip (t.applyAll changes).2).filter fun c => c.2.fault?.isNone).map Prod.fst

theorem accepted_cons (t : SymbolTable) (change : Change) (changes : List Change) :
    t.accepted (change :: changes) =
      if (t.apply change).2.fault?.isNone then
        change :: (t.apply change).1.accepted changes
      else (t.apply change).1.accepted changes := by
  rw [accepted, applyAll_cons, List.zip_cons_cons, List.filter_cons]
  split <;> rfl

/-- A change that is refused leaves the table as it is. -/
theorem apply_of_fault {t : SymbolTable} {change : Change}
    (h : (t.apply change).2.fault?.isNone = false) : (t.apply change).1 = t := by
  cases ho : (t.apply change).2 with
  | refused fault => exact apply_refused ho
  | entered level => rw [ho] at h; cases h
  | exited level => rw [ho] at h; cases h
  | registered symbol => rw [ho] at h; cases h

/-- Without the changes that are refused a run ends with the same table, and the other
changes get the same answers. -/
theorem applyAll_accepted (t : SymbolTable) (changes : List Change) :
    t.applyAll (t.accepted changes) =
      ((t.applyAll changes).1, (t.applyAll changes).2.filter fun o => o.fault?.isNone) := by
  induction changes generalizing t with
  | nil => rfl
  | cons change changes ih =>
    rw [accepted_cons, applyAll_cons, List.filter_cons]
    cases h : (t.apply change).2.fault?.isNone with
    | true => rw [if_pos rfl, if_pos rfl, applyAll_cons, ih]
    | false =>
      have hsame := apply_of_fault h
      rw [if_neg (by decide), if_neg (by decide), hsame]
      exact ih t

end SymbolTable

/-! ## Why a name is refused -/

namespace SymbolTable

variable (t : SymbolTable) (name : String) (category : Category) (scope : ScopeTag)

/-- The answer to a registration is its refusal or the new symbol. -/
theorem snd_register : (t.register name category scope).2 =
    match t.refusal? name category with
    | some fault => .error fault
    | none => .ok (t.symbolFor name category scope) := by
  cases h : t.refusal? name category with
  | some fault => rw [register_of_refusal h]
  | none => rw [register_of_no_refusal h]

theorem register_eq_redeclared_iff :
    (t.register name category scope).2 = .error (.redeclared name) ↔
      t.current.contains name = true := by
  rw [snd_register, refusal?]
  cases t.current.contains name with
  | true => simp
  | false => cases category.isVariable && !isIdentifier name <;> simp

theorem register_eq_malformedName_iff :
    (t.register name category scope).2 = .error (.malformedName name) ↔
      ¬ t.current.contains name = true ∧ category.isVariable = true ∧
        isIdentifier name = false := by
  rw [snd_register, refusal?]
  cases t.current.contains name with
  | true => simp
  | false => cases category.isVariable <;> cases isIdentifier name <;> simp

theorem register_eq_ok_iff :
    (t.register name category scope).2 = .ok (t.symbolFor name category scope) ↔
      ¬ t.current.contains name = true ∧
        (category.isVariable = true → isIdentifier name = true) := by
  rw [snd_register, refusal?]
  cases t.current.contains name with
  | true => simp
  | false => cases category.isVariable <;> cases isIdentifier name <;> simp

end SymbolTable

/-! ## The names of a scope -/

namespace Scopes

/-- A symbol of that name was registered in scope `n`. -/
def Holds (scopes : Scopes) (n : Nat) (name : String) : Prop :=
  ∃ s : Symbol, (n, s) ∈ scopes.placed ∧ s.name = name

/-- No two symbols of one scope have the same name. -/
def Distinct (scopes : Scopes) : Prop :=
  scopes.placed.Pairwise fun p q => p.1 = q.1 → p.2.name ≠ q.2.name

end Scopes

namespace Tracks

variable {scopes : Scopes} {t u : SymbolTable}

theorem contains_current_iff (h : Tracks scopes t) (name : String) :
    t.current.contains name = true ↔ scopes.Holds scopes.innermost name :=
  h.current.contains_iff name

/-- A registration that is not refused brings a new name into the innermost scope. -/
theorem distinct_step (h : Tracks scopes t) (hd : scopes.Distinct) {change : Change}
    {outcome : Outcome} (hs : Step t change outcome u) : (scopes.note outcome).Distinct := by
  cases hs with
  | enter => exact hd
  | exit _ => exact hd
  | exitGlobal _ => exact hd
  | refuse _ _ => exact hd
  | @register _ name category scope _ free =>
    refine List.pairwise_append.mpr ⟨hd, List.pairwise_singleton _ _, ?_⟩
    rintro ⟨n, s⟩ hp q hq hscope hname
    cases List.mem_singleton.mp hq
    obtain rfl : n = scopes.innermost := hscope
    have hfree := SymbolTable.not_contains_of_free free
    rw [(h.contains_current_iff name).mpr ⟨s, hp, hname⟩] at hfree
    cases hfree

end Tracks

/-- Throughout every run no scope takes a name twice, not even one that is closed. -/
theorem distinct_applyAll (base : Nat) (changes : List Change) :
    (Scopes.start.noteAll ((SymbolTable.empty base).applyAll changes).2).Distinct := by
  refine (SymbolTable.applyAll_induction (motive := fun outcomes t =>
    Tracks (Scopes.start.noteAll outcomes) t ∧ (Scopes.start.noteAll outcomes).Distinct)
    ?_ ⟨.empty base, .nil⟩).2
  intro _ _ outcomes t outcome u hs ih
  obtain ⟨h, hd⟩ := ih
  rw [Scopes.noteAll_concat]
  exact ⟨h.step hs, h.distinct_step hd hs⟩

/-- Changes that are refused can be left out: the table ends up the same, and the other
changes get the same answers. A registration is refused because its name is taken exactly
if the innermost scope has a symbol of that name, and because of its shape exactly if it
has none, the symbol is to be a variable and the name is no identifier; all others
succeed. Thus no scope has two symbols of one name, while a block that has just been
opened takes every name once more. -/
theorem refused_erasable (base : Nat) (changes : List Change) :
    let start := SymbolTable.empty base
    let t := (start.applyAll changes).1
    let answers := (start.applyAll changes).2
    let scopes := Scopes.start.noteAll answers
    start.applyAll (start.accepted changes) =
        (t, answers.filter fun o => o.fault?.isNone) ∧
      (∀ name category scope,
        ((t.register name category scope).2 = .error (.redeclared name) ↔
          scopes.Holds scopes.innermost name) ∧
        ((t.register name category scope).2 = .error (.malformedName name) ↔
          ¬ scopes.Holds scopes.innermost name ∧ category.isVariable = true ∧
            isIdentifier name = false) ∧
        ((t.register name category scope).2 = .ok (t.symbolFor name category scope) ↔
          ¬ scopes.Holds scopes.innermost name ∧
            (category.isVariable = true → isIdentifier name = true))) ∧
      scopes.placed.map Prod.snd = t.history.toList ∧ scopes.Distinct ∧
      ∀ name category scope,
        (t.enter.register name category scope).2 = .ok (t.enter.symbolFor name category scope) ↔
          (category.isVariable = true → isIdentifier name = true) := by
  intro start t answers scopes
  have h : Tracks scopes t := tracks_applyAll base changes
  refine ⟨start.applyAll_accepted changes, fun name category scope => ?_, h.history,
    distinct_applyAll base changes, fun name category scope => ?_⟩
  · rw [← h.contains_current_iff name]
    exact ⟨t.register_eq_redeclared_iff name category scope,
      t.register_eq_malformedName_iff name category scope,
      t.register_eq_ok_iff name category scope⟩
  · have hnew : ¬ t.enter.current.contains name = true := by
      have hempty : (∅ : Frame).contains name = false := Std.TreeMap.contains_emptyc
      rw [show t.enter.current = ∅ from rfl, hempty]
      decide
    rw [SymbolTable.register_eq_ok_iff, and_iff_right hnew]

/-- One name in the global scope and in two blocks, and refused twice in between. -/
example :
    ((SymbolTable.empty 1000).accepted [.declare "x" .int, .exit, .enter, .declare "x" .char,
      .register "x" .io .global, .exit, .enter, .declare "x" .bool]).length = 6 := by
  decide +kernel

end ScopeLex
