import Mathlib.Data.List.Forall2
import ScopeLex.Proofs.Symbol.Snapshot
import ScopeLex.Proofs.Symbol.Step

/-!
# Addresses are only handed out

A table counts its addresses up from the base address and never looks at one again. Other
addresses give another table, but no other answer. Moving goes around as the counter does,
so that nothing has to be known about how many addresses are left; only how far an address
is moved has to.

* `SymbolTable.apply_move`, `SymbolTable.applyAll_move`: moved addresses stay moved.
* `SymbolTable.lookup?_move`, `SymbolTable.snapshot_move`, `SymbolTable.report_move`: what
  is read from a table with moved addresses.
* `Symbol.Alike`, `Outcome.Alike`, `SymbolTable.Alike`: the same but for the addresses.
* `SymbolTable.alike_move`: a table moved in two ways, with room for its addresses.
-/
namespace ScopeLex

/-! ## Moving -/

/-- Let the counter have been `n` further when it gave the symbol its address. -/
def Symbol.move (n : UInt64) (s : Symbol) : Symbol :=
  { s with address := (.ofNat s.address + n : UInt64).toNat }

/-- The same for the address of a new symbol. -/
def Outcome.move (n : UInt64) : Outcome → Outcome
  | .registered s => .registered (s.move n)
  | outcome => outcome

@[simp] theorem Symbol.describe_move (n : UInt64) (s : Symbol) :
    (s.move n).describe = s.describe := rfl

namespace SymbolTable

/-- Let the counter be `n` further, and have been so for the symbols that there are. -/
def move (n : UInt64) (t : SymbolTable) : SymbolTable :=
  { t with history := t.history.map (Symbol.move n), nextAddress := t.nextAddress + n }

variable (n : UInt64) (t : SymbolTable)

@[simp] theorem level_move : (t.move n).level = t.level := rfl

theorem move_empty (base n : Nat) : (empty base).move (.ofNat n) = empty (base + n) := by
  simp [move, empty, UInt64.ofNat_add]

theorem symbolFor_move (name : String) (category : Category) (scope : ScopeTag) :
    (t.move n).symbolFor name category scope = (t.symbolFor name category scope).move n := by
  simp only [symbolFor, Symbol.move, UInt64.ofNat_toNat]
  rfl

theorem refusal?_move (name : String) (category : Category) :
    (t.move n).refusal? name category = t.refusal? name category := rfl

theorem exit_move : (t.move n).exit = (t.exit.1.move n, t.exit.2) := by
  obtain ⟨nested, globals, history, nextAddress⟩ := t
  cases nested <;> rfl

theorem add_move (s : Symbol) : (t.move n).add (s.move n) = (t.add s).move n := by
  obtain ⟨nested, globals, history, nextAddress⟩ := t
  have hnext : nextAddress + n + 1 = nextAddress + 1 + n := by
    rw [UInt64.add_assoc, UInt64.add_comm n 1, ← UInt64.add_assoc]
  cases nested <;> simp [move, add, Symbol.move, hnext]

theorem register_move (name : String) (category : Category) (scope : ScopeTag) :
    (t.move n).register name category scope =
      ((t.register name category scope).1.move n,
        (t.register name category scope).2.map (Symbol.move n)) := by
  cases h : t.refusal? name category with
  | some fault =>
    rw [register_of_refusal h, register_of_refusal ((t.refusal?_move n _ _).trans h)]
    rfl
  | none =>
    rw [register_of_no_refusal h, register_of_no_refusal ((t.refusal?_move n _ _).trans h),
      symbolFor_move, add_move]
    rfl

theorem registered_move (answer : SymbolTable × Except Fault Symbol) :
    apply.registered (answer.1.move n, answer.2.map (Symbol.move n)) =
      ((apply.registered answer).1.move n, (apply.registered answer).2.move n) := by
  obtain ⟨u, fault | s⟩ := answer <;> rfl

/-- A change does the same, and a symbol it makes is moved like the others. -/
theorem apply_move (change : Change) :
    (t.move n).apply change = ((t.apply change).1.move n, (t.apply change).2.move n) := by
  cases change with
  | enter => rfl
  | exit =>
    simp only [apply, exit_move]
    obtain ⟨u, fault | level⟩ := t.exit <;> rfl
  | declare name type => simp only [apply, level_move, register_move, registered_move]
  | register name category scope => simp only [apply, register_move, registered_move]

/-- So do all changes of a run. -/
theorem applyAll_move (changes : List Change) :
    (t.move n).applyAll changes =
      ((t.applyAll changes).1.move n, (t.applyAll changes).2.map (Outcome.move n)) := by
  induction changes generalizing t with
  | nil => rfl
  | cons change changes ih =>
    rw [applyAll_cons, applyAll_cons, apply_move, ih]
    rfl

theorem performAll_move (calls : List Call) :
    (t.move n).performAll calls = (t.performAll calls).move n := by
  rw [performAll_eq_applyAll, performAll_eq_applyAll, applyAll_move]

theorem answers_move (calls : List Call) :
    (t.move n).answers calls = (t.answers calls).map (Outcome.move n) := by
  rw [answers, applyAll_move]
  rfl

/-! ## What is read from a table -/

theorem lookup?_move (name : String) :
    (t.move n).lookup? name = (t.lookup? name).map (Symbol.move n) := by
  simp only [lookup?, Option.map_bind]
  refine congrArg _ (funext fun place => ?_)
  exact Array.getElem?_map

theorem atLevel_map_move (level : Nat) (symbols : List Symbol) :
    atLevel level (symbols.map (Symbol.move n)) = (atLevel level symbols).map (Symbol.move n) := by
  rw [atLevel, List.filter_map]
  rfl

/-- The groups stay the same, since levels are not moved. -/
theorem snapshot_move :
    (t.move n).snapshot = t.snapshot.map fun g => (g.1, g.2.map (Symbol.move n)) := by
  refine (t.move n).snapshot_ext (List.pairwise_map.mpr t.pairwise_snapshot) fun level group => ?_
  have hhistory : (t.move n).history.toList = t.history.toList.map (Symbol.move n) :=
    Array.toList_map
  rw [hhistory, atLevel_map_move, List.mem_map]
  constructor
  · rintro ⟨⟨k, symbols⟩, hm, he⟩
    obtain ⟨hgroup, hne⟩ := (t.mem_snapshot_iff k symbols).mp hm
    cases he
    exact ⟨congrArg _ hgroup, fun h => hne (List.map_eq_nil_iff.mp h)⟩
  · rintro ⟨rfl, hne⟩
    refine ⟨(level, atLevel level t.history.toList), (t.mem_snapshot_iff _ _).mpr ⟨rfl, ?_⟩, rfl⟩
    exact fun h => hne (by rw [h]; rfl)

/-- A report shows no address. -/
theorem report_move : (t.move n).report = t.report := by
  have hlines : ∀ group : List Symbol,
      groupLines (group.map (Symbol.move n)) = groupLines group := by
    intro group
    simp [groupLines, Function.comp_def]
  simp [report, reportLines, snapshot_move, List.flatMap_map, hlines]

end SymbolTable

/-! ## The same but for the addresses -/

/-- Symbols that differ by their addresses alone, and these as the base addresses do. -/
structure Symbol.Alike (base base' : Nat) (s s' : Symbol) : Prop where
  same : s' = { s with address := s'.address }
  address : (s'.address : Int) - s.address = base' - base

/-- Answers that differ by the address of a new symbol at most. -/
inductive Outcome.Alike (base base' : Nat) : Outcome → Outcome → Prop
  | entered (level : Nat) : Alike base base' (.entered level) (.entered level)
  | exited (level : Nat) : Alike base base' (.exited level) (.exited level)
  | refused (fault : Fault) : Alike base base' (.refused fault) (.refused fault)
  | registered {s s' : Symbol} (symbol : s.Alike base base' s') :
      Alike base base' (.registered s) (.registered s')

/-- Tables that differ by addresses alone: where names, levels, groups and the report are
read from them, and in the addresses that come next. -/
structure SymbolTable.Alike (base base' : Nat) (t t' : SymbolTable) : Prop where
  level : t'.level = t.level
  history : List.Forall₂ (Symbol.Alike base base') t.history.toList t'.history.toList
  next : (t'.nextAddress.toNat : Int) - t.nextAddress.toNat = base' - base
  lookup : ∀ name, Option.Rel (Symbol.Alike base base') (t.lookup? name) (t'.lookup? name)
  snapshot : List.Forall₂
    (fun g g' => g'.1 = g.1 ∧ List.Forall₂ (Symbol.Alike base base') g.2 g'.2)
    t.snapshot t'.snapshot
  report : t'.report = t.report

/-! ## Room for addresses -/

/-- While the counter does not run out, a moved address is greater by as much as it was
moved. -/
theorem Symbol.address_move {s : Symbol} {n : Nat} (h : s.address + n < UInt64.size) :
    (s.move (.ofNat n)).address = s.address + n := by
  rw [move, ← UInt64.ofNat_add, UInt64.toNat_ofNat_of_lt' h]

theorem SymbolTable.mem_history_of_lookup? {t : SymbolTable} {name : String} {s : Symbol}
    (h : t.lookup? name = some s) : s ∈ t.history.toList := by
  obtain ⟨place, -, hs⟩ := Option.bind_eq_some_iff.mp h
  exact Array.mem_toList_iff.mpr (Array.mem_of_getElem? hs)

theorem SymbolTable.mem_history_of_snapshot {t : SymbolTable} {g : Nat × List Symbol}
    (hg : g ∈ t.snapshot) {s : Symbol} (hs : s ∈ g.2) : s ∈ t.history.toList := by
  obtain ⟨hgroup, -⟩ := (t.mem_snapshot_iff g.1 g.2).mp hg
  rw [hgroup] at hs
  exact (List.mem_filter.mp hs).1

/-- A list under two functions whose values are related. -/
theorem forall₂_map_of_forall {α β γ : Type} {R : β → γ → Prop} {f : α → β} {g : α → γ}
    {l : List α} (h : ∀ a ∈ l, R (f a) (g a)) : List.Forall₂ R (l.map f) (l.map g) := by
  rw [List.forall₂_map_left_iff, List.forall₂_map_right_iff, List.forall₂_same]
  exact h

section
variable {base base' limit : Nat} (hroom : base + limit < UInt64.size)
  (hroom' : base' + limit < UInt64.size)
include hroom hroom'

theorem Symbol.alike_move {s : Symbol} (h : s.address ≤ limit) :
    (s.move (.ofNat base)).Alike base base' (s.move (.ofNat base')) where
  same := rfl
  address := by
    rw [address_move (by omega), address_move (by omega)]
    omega

theorem Outcome.alike_move {outcome : Outcome}
    (h : ∀ s ∈ outcome.symbol?, s.address ≤ limit) :
    (outcome.move (.ofNat base)).Alike base base' (outcome.move (.ofNat base')) := by
  cases outcome with
  | entered level => exact .entered level
  | exited level => exact .exited level
  | refused fault => exact .refused fault
  | registered s => exact .registered (s.alike_move hroom hroom' (h s rfl))

/-- A table moved in two ways. -/
theorem SymbolTable.alike_move {t : SymbolTable}
    (h : ∀ s ∈ t.history.toList, s.address ≤ limit) (hnext : t.nextAddress.toNat ≤ limit) :
    (t.move (.ofNat base)).Alike base base' (t.move (.ofNat base')) := by
  have halike : ∀ {symbols : List Symbol}, (∀ s ∈ symbols, s ∈ t.history.toList) →
      List.Forall₂ (Symbol.Alike base base') (symbols.map (Symbol.move (.ofNat base)))
        (symbols.map (Symbol.move (.ofNat base'))) := fun hmem =>
    forall₂_map_of_forall fun s hs => Symbol.alike_move hroom hroom' (h s (hmem s hs))
  constructor
  · rfl
  · simp only [move, Array.toList_map]
    exact halike fun _ hs => hs
  · have next_move : ∀ {n : Nat}, n + limit < UInt64.size →
        (t.move (.ofNat n)).nextAddress.toNat = t.nextAddress.toNat + n := by
      intro n hn
      rw [move, ← UInt64.ofNat_toNat (x := t.nextAddress), ← UInt64.ofNat_add,
        UInt64.toNat_ofNat_of_lt' (by omega), UInt64.ofNat_toNat]
    rw [next_move hroom, next_move hroom']
    omega
  · intro name
    rw [lookup?_move, lookup?_move]
    cases hs : t.lookup? name with
    | none => exact .none
    | some s => exact .some (Symbol.alike_move hroom hroom' (h s (mem_history_of_lookup? hs)))
  · rw [snapshot_move, snapshot_move]
    exact forall₂_map_of_forall fun g hg =>
      ⟨rfl, halike fun _ hs => mem_history_of_snapshot hg hs⟩
  · rw [report_move, report_move]

end

end ScopeLex
