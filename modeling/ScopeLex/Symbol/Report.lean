import ScopeLex.Symbol.Table

/-!
# Reports on the symbol table

The history by level, and the table as a text: under a title each level has a
rule, a heading, a line for each symbol and an empty line.
-/
namespace ScopeLex.SymbolTable

open Text (Caption)

/-- Append a symbol to the others of its level. -/
def addToLevel (levels : Std.TreeMap Nat (Array Symbol)) (s : Symbol) :
    Std.TreeMap Nat (Array Symbol) :=
  levels.alter s.level fun group => some ((group.getD #[]).push s)

/-- The symbols of each level that has any, in the order in which they were
registered; the levels ascend. -/
def snapshot (t : SymbolTable) : List (Nat × List Symbol) :=
  (t.history.foldl addToLevel ∅).toList.map fun group => (group.1, group.2.toList)

/-! ## The text -/

def title : String := "--- Complete Symbol Table ---"

def rule : String := String.ofList (List.replicate 63 '-')

def heading : String :=
  (Caption.label "Name").fit (.left 20) ++ " | " ++ (Caption.label "Type").fit (.left 20) ++
    " | " ++ (Caption.label "Scope").fit (.left 10)

/-- The lines of one level. -/
def groupLines (group : List Symbol) : List String :=
  [rule, heading] ++ group.map Symbol.describe ++ [""]

def reportLines (t : SymbolTable) : List String :=
  title :: t.snapshot.flatMap fun group => groupLines group.2

/-- The table as a text, every line ended by a newline. -/
def report (t : SymbolTable) : String := String.join (t.reportLines.map (· ++ "\n"))

end ScopeLex.SymbolTable
