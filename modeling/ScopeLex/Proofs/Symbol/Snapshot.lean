import Mathlib.Data.List.Induction
import Mathlib.Data.List.Sort
import ScopeLex.Symbol.Report

/-!
# The groups of a snapshot

A snapshot is built up one symbol at a time, each appended to the others of its level.
In the end the levels ascend, and each has its part of the history.

* `getElem?_foldl_addToLevel`: what is collected at one level.
* `mem_snapshot_iff`: every group is the part of the history at its level.
* `pairwise_snapshot`, `snapshot_ext`: the levels ascend, so that its groups determine a
  snapshot.
-/
namespace ScopeLex.SymbolTable

/-- The symbols of one level, in their order. -/
def atLevel (level : Nat) (symbols : List Symbol) : List Symbol :=
  symbols.filter fun s => s.level = level

/-- What is collected at a level out of `symbols`; a level without symbols does not
occur. -/
def collected (level : Nat) (symbols : List Symbol) : Option (Array Symbol) :=
  if atLevel level symbols = [] then none else some (atLevel level symbols).toArray

theorem getD_collected (level : Nat) (symbols : List Symbol) :
    (collected level symbols).getD #[] = (atLevel level symbols).toArray := by
  unfold collected
  split
  · rename_i h
    rw [h]
    rfl
  · rfl

/-- A symbol joins the others of its level and leaves the other levels alone. -/
theorem collected_concat (level : Nat) (symbols : List Symbol) (s : Symbol) :
    collected level (symbols ++ [s]) =
      if s.level = level then some (((collected level symbols).getD #[]).push s)
      else collected level symbols := by
  rw [getD_collected, collected, collected, atLevel, List.filter_append, ← atLevel]
  by_cases hs : s.level = level <;> simp [hs]

/-- After any number of symbols each level has collected its own ones. -/
theorem getElem?_foldl_addToLevel (symbols : List Symbol) (level : Nat) :
    (symbols.foldl addToLevel ∅)[level]? = collected level symbols := by
  induction symbols using List.reverseRecOn generalizing level with
  | nil => exact Std.TreeMap.getElem?_emptyc
  | append_singleton symbols s ih =>
    rw [List.foldl_append, List.foldl_cons, List.foldl_nil, addToLevel,
      Std.TreeMap.getElem?_alter, ih, ih, collected_concat]
    simp only [Std.LawfulEqCmp.compare_eq_iff_eq]
    split
    · rename_i hs
      rw [hs]
    · rfl

variable (t : SymbolTable)

/-- The groups are the parts of the history at the levels that occur. -/
theorem mem_snapshot_iff (level : Nat) (group : List Symbol) :
    (level, group) ∈ t.snapshot ↔ group = atLevel level t.history.toList ∧ group ≠ [] := by
  have hcollected : ∀ symbols : Array Symbol,
      (level, symbols) ∈ (t.history.foldl addToLevel ∅).toList ↔
        collected level t.history.toList = some symbols := by
    intro symbols
    rw [Std.TreeMap.mem_toList_iff_getElem?_eq_some, ← Array.foldl_toList,
      getElem?_foldl_addToLevel]
  rw [snapshot, List.mem_map]
  constructor
  · rintro ⟨⟨k, symbols⟩, hm, he⟩
    cases he
    obtain ⟨hne, hsome⟩ := Option.ite_none_left_eq_some.mp ((hcollected symbols).mp hm)
    rw [← Option.some.inj hsome]
    exact ⟨rfl, hne⟩
  · rintro ⟨rfl, hne⟩
    exact ⟨(level, _), (hcollected _).mpr (if_neg hne), rfl⟩

/-- The levels ascend. -/
theorem pairwise_snapshot : t.snapshot.Pairwise fun g g' => g.1 < g'.1 := by
  rw [snapshot, List.pairwise_map]
  exact Std.TreeMap.ordered_keys_toList.imp fun h => Nat.compare_eq_lt.mp h

/-- Groups with ascending levels are the snapshot if they are the same groups. -/
theorem snapshot_ext {groups : List (Nat × List Symbol)}
    (ascending : groups.Pairwise fun g g' => g.1 < g'.1)
    (same : ∀ level group, (level, group) ∈ groups ↔
      group = atLevel level t.history.toList ∧ group ≠ []) : t.snapshot = groups := by
  have : Std.Irrefl fun g g' : Nat × List Symbol => g.1 < g'.1 := ⟨fun g => Nat.lt_irrefl g.1⟩
  have : Std.Antisymm fun g g' : Nat × List Symbol => g.1 < g'.1 :=
    ⟨fun _ _ h h' => absurd h (Nat.lt_asymm h')⟩
  exact t.pairwise_snapshot.eq_of_mem_iff ascending fun g => by
    rw [same, mem_snapshot_iff]

end ScopeLex.SymbolTable
