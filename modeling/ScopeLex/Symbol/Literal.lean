import ScopeLex.Diagnostic.Basic
import ScopeLex.Symbol.Change
import Std.Data.TreeSet

/-!
# Literals as symbols

Constants, comments, arithmetic signs and the reserved words that read and
write can be registered too, each distinct lexeme once, at the line where it
is first seen.

* `mem_map_lexeme_distinct_iff`: every lexeme that is new is kept.
-/
namespace ScopeLex

/-- A lexeme to be registered, and the line where it stands. -/
structure Literal where
  lexeme : String
  category : Category
  line : Nat
  deriving DecidableEq, Repr

namespace Literal

/-- The category under which tokens like `t` are registered, if they are. -/
def categoryOf? (t : Token) : Option Category :=
  match t.kind with
  | .stringLiteral => some .stringConstant
  | .comment => some .comment
  | .operator => if t.isArithmetic then some .arithmeticOperator else none
  | .keyword => if t.isIo then some .io else none
  | .integer | .decimal => some .numericConstant
  | .delimiter | .charLiteral | .identifier => none

def ofToken? (t : Token) : Option Literal :=
  (categoryOf? t).map fun category => ⟨t.lexeme, category, t.line⟩

/-- The first literal of each lexeme that was not seen before. -/
def distinct (seen : Std.TreeSet String) : List Literal → List Literal
  | [] => []
  | l :: rest =>
    if seen.contains l.lexeme then distinct seen rest
    else l :: distinct (seen.insert l.lexeme) rest

/-- The literals of a token list, each lexeme once. -/
def ofTokens (tokens : List Token) : List Literal := distinct ∅ (tokens.filterMap ofToken?)

/-- Literals are registered as global, whatever the level. -/
def change (l : Literal) : Change := .register l.lexeme l.category .global

/-- The lexemes kept are those that were not seen before. -/
theorem mem_map_lexeme_distinct_iff (seen : Std.TreeSet String) (ls : List Literal) (s : String) :
    s ∈ (distinct seen ls).map lexeme ↔ s ∈ ls.map lexeme ∧ ¬ s ∈ seen := by
  induction ls generalizing seen with
  | nil => simp [distinct]
  | cons l ls ih =>
    simp only [distinct]
    split
    · rename_i h
      rw [ih, List.map_cons, List.mem_cons]
      refine ⟨fun ⟨a, b⟩ => ⟨Or.inr a, b⟩, fun ⟨a, b⟩ => ⟨?_, b⟩⟩
      rcases a with rfl | a
      · exact absurd (Std.TreeSet.mem_iff_contains.mpr h) b
      · exact a
    · rename_i h
      rw [List.map_cons, List.mem_cons, ih, List.map_cons, List.mem_cons]
      simp only [Std.TreeSet.mem_insert, Std.LawfulEqCmp.compare_eq_iff_eq, not_or]
      constructor
      · rintro (rfl | ⟨a, -, b⟩)
        · exact ⟨Or.inl rfl, fun hm => h (Std.TreeSet.mem_iff_contains.mp hm)⟩
        · exact ⟨Or.inr a, b⟩
      · rintro ⟨rfl | a, b⟩
        · exact Or.inl rfl
        · by_cases he : l.lexeme = s
          · exact Or.inl he.symm
          · exact Or.inr ⟨a, he, b⟩

end Literal

/-- Collect the fault of a refusal, found on `line`. -/
def Diagnostics.note (ds : Diagnostics) (line : Nat) (outcome : Outcome) : Diagnostics :=
  match outcome.fault? with
  | some fault => ds.add (.ofFault fault line none)
  | none => ds

namespace SymbolTable

/-- Register the literals of a token list; what is refused goes to `ds`. -/
def registerLiterals (t : SymbolTable) (tokens : List Token) (ds : Diagnostics) :
    SymbolTable × Diagnostics :=
  let literals := Literal.ofTokens tokens
  let (u, outcomes) := t.applyAll (literals.map Literal.change)
  (u, ((literals.map Literal.line).zip outcomes).foldl (fun ds o => ds.note o.1 o.2) ds)

end SymbolTable

end ScopeLex
