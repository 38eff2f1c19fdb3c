import ScopeLex.Fault
import ScopeLex.Symbol.Basic
import Std.Data.TreeMap

/-!
# The symbol table

A stack of open blocks above the global scope, and the history of every
registration. A block's frame takes each name it holds to the place of its
symbol in the history; closing a block drops its frame and keeps its symbols. Addresses
are handed out by a counter of 64 bits, which begins anew at 0 when it runs out.

* `enter_exit`: closing a block that was just opened changes nothing.
* `register_of_refusal`, `register_of_no_refusal`: a registration adds one
  symbol or changes nothing.
-/
namespace ScopeLex

/-- The names of one block, each with the place of its symbol in the history. -/
abbrev Frame := Std.TreeMap String Nat

/-- The open blocks and everything registered so far. -/
structure SymbolTable where
  /-- The frames of the open blocks, innermost first. -/
  nested : List Frame
  globals : Frame
  /-- Every symbol ever registered, oldest first. -/
  history : Array Symbol
  nextAddress : UInt64

namespace SymbolTable

/-- The address of the first symbol if nothing else is asked for. -/
def defaultBaseAddress : Nat := 1000

/-- A table without symbols; the first one will have address `baseAddress`, which is a
number of 64 bits. -/
def empty (baseAddress : Nat) : SymbolTable := ⟨[], ∅, #[], .ofNat baseAddress⟩

/-! ## Scopes -/

/-- The level of the innermost block; the global scope has level 1. -/
def level (t : SymbolTable) : Nat := t.nested.length + 1

/-- All open frames, innermost first. -/
def frames (t : SymbolTable) : List Frame := t.nested ++ [t.globals]

/-- The frame that takes new names. -/
def current (t : SymbolTable) : Frame := t.nested.head?.getD t.globals

/-- Open a block. -/
def enter (t : SymbolTable) : SymbolTable := { t with nested := ∅ :: t.nested }

/-- Close the innermost block and tell the level that is left. The global scope
is never closed. -/
def exit (t : SymbolTable) : SymbolTable × Except Fault Nat :=
  match t with
  | ⟨[], _, _, _⟩ => (t, .error .unmatchedClose)
  | ⟨_ :: outer, globals, history, nextAddress⟩ =>
    (⟨outer, globals, history, nextAddress⟩, .ok (outer.length + 1))

/-! ## Names -/

/-- Why a name cannot be registered in the innermost block. That the block
holds the name already is noticed before its shape. -/
def refusal? (t : SymbolTable) (name : String) (category : Category) : Option Fault :=
  if t.current.contains name then some (.redeclared name)
  else if category.isVariable && !isIdentifier name then some (.malformedName name)
  else none

/-- The symbol that a name would get. -/
def symbolFor (t : SymbolTable) (name : String) (category : Category) (scope : ScopeTag) : Symbol :=
  ⟨name, category, scope, t.level, t.nextAddress.toNat⟩

/-- Let the innermost block hold the name of `s`, and `s` be the newest symbol. -/
def add (t : SymbolTable) (s : Symbol) : SymbolTable :=
  match t with
  | ⟨[], globals, history, nextAddress⟩ =>
    ⟨[], globals.insert s.name history.size, history.push s, nextAddress + 1⟩
  | ⟨inner :: outer, globals, history, nextAddress⟩ =>
    ⟨inner.insert s.name history.size :: outer, globals, history.push s, nextAddress + 1⟩

/-- Register a name in the innermost block, with the symbol it gets. A refused
registration leaves the table as it was. -/
def register (t : SymbolTable) (name : String) (category : Category) (scope : ScopeTag) :
    SymbolTable × Except Fault Symbol :=
  match t.refusal? name category with
  | some fault => (t, .error fault)
  | none =>
    let symbol := t.symbolFor name category scope
    (t.add symbol, .ok symbol)

/-- The symbol that `name` means here: the one of the innermost block that
holds it. -/
def lookup? (t : SymbolTable) (name : String) : Option Symbol :=
  (t.frames.findSome? fun frame => frame[name]?).bind fun place => t.history[place]?

/-! ## Laws of the operations -/

@[simp] theorem level_empty (baseAddress : Nat) : (empty baseAddress).level = 1 := rfl

@[simp] theorem level_enter (t : SymbolTable) : t.enter.level = t.level + 1 := rfl

@[simp] theorem enter_exit (t : SymbolTable) : t.enter.exit = (t, .ok t.level) := rfl

theorem one_le_level (t : SymbolTable) : 1 ≤ t.level := Nat.succ_le_succ (Nat.zero_le _)

@[simp] theorem level_add (t : SymbolTable) (s : Symbol) : (t.add s).level = t.level := by
  obtain ⟨nested, globals, history, nextAddress⟩ := t
  cases nested <;> rfl

@[simp] theorem history_add (t : SymbolTable) (s : Symbol) :
    (t.add s).history = t.history.push s := by
  obtain ⟨nested, globals, history, nextAddress⟩ := t
  cases nested <;> rfl

@[simp] theorem nextAddress_add (t : SymbolTable) (s : Symbol) :
    (t.add s).nextAddress = t.nextAddress + 1 := by
  obtain ⟨nested, globals, history, nextAddress⟩ := t
  cases nested <;> rfl

@[simp] theorem current_add (t : SymbolTable) (s : Symbol) :
    (t.add s).current = t.current.insert s.name t.history.size := by
  obtain ⟨nested, globals, history, nextAddress⟩ := t
  cases nested <;> rfl

theorem register_of_refusal {t : SymbolTable} {name : String} {category : Category}
    {fault : Fault} (h : t.refusal? name category = some fault) (scope : ScopeTag) :
    t.register name category scope = (t, .error fault) := by
  simp [register, h]

theorem register_of_no_refusal {t : SymbolTable} {name : String} {category : Category}
    (h : t.refusal? name category = none) (scope : ScopeTag) :
    t.register name category scope =
      (t.add (t.symbolFor name category scope), .ok (t.symbolFor name category scope)) := by
  simp [register, h]

end SymbolTable

end ScopeLex
