import ScopeLex.Analysis.Basic

/-!
# Views of an analysis

The same tokens in other orders and summaries.

* `sourceOrder_perm`: source order loses and repeats nothing.
-/
namespace ScopeLex.Analysis

/-- The tokens by line; tokens of one line stay in the order in which they
were emitted. -/
def sourceOrder (a : Analysis) : List Token :=
  a.tokens.toList.mergeSort fun s t => s.line ≤ t.line

/-- The kinds that occur, in the order of `TokenKind.all`. -/
def kinds (a : Analysis) : List TokenKind :=
  TokenKind.all.filter fun kind => a.tokens.any (·.kind == kind)

theorem sourceOrder_perm (a : Analysis) : a.sourceOrder.Perm a.tokens.toList :=
  List.mergeSort_perm _ _

end ScopeLex.Analysis
