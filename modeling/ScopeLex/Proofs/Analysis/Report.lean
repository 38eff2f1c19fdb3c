import ScopeLex.Analysis.Run
import ScopeLex.Proofs.Event.Line

/-!
# What a run reports

A diagnostic with a column comes from a stray character, one without a column
from a change that the table refused. Each kind depends on its own part of the
events alone.

* `Run.diagnostics_feed`: what one event adds.
* `Run.strays_feedAll`: the diagnostics with a column are the stray characters.
* `Run.refusals_feedAll`: the others are the refusals of the changes that the
  tokens ask for.
* `Run.mem_diagnostics_feedAll`: comments report nothing.
* `tokens_analyzeWith`, `table_analyzeWith`, `strays_analyzeWith`,
  `refusals_analyzeWith`: the same for the analysis of a text.
-/
namespace ScopeLex

/-- The report on a stray character. -/
def Event.strayReport? : Event → Option Diagnostic
  | .token _ => none
  | .stray c line column => some (.ofFault (.strayCharacter c) line (some column))

/-- The report on the outcome of a change asked for on `line`. -/
def Outcome.report? (line : Nat) (outcome : Outcome) : Option Diagnostic :=
  outcome.fault?.map fun fault => .ofFault fault line none

/-- The reports on changes that are carried out in order. -/
def SymbolTable.refusals (t : SymbolTable) : List (Nat × Change) → List Diagnostic
  | [] => []
  | (line, change) :: changes =>
    ((t.apply change).2.report? line).toList ++ (t.apply change).1.refusals changes

@[simp] theorem SymbolTable.refusals_nil (t : SymbolTable) : t.refusals [] = [] := rfl

theorem SymbolTable.refusals_cons (t : SymbolTable) (line : Nat) (change : Change)
    (changes : List (Nat × Change)) :
    t.refusals ((line, change) :: changes) =
      ((t.apply change).2.report? line).toList ++ (t.apply change).1.refusals changes := rfl

/-! ## Refusals are not about stray characters -/

theorem SymbolTable.fault_ne_strayCharacter {t : SymbolTable} {change : Change} {fault : Fault}
    (h : (t.apply change).2.fault? = some fault) (c : Char) : fault ≠ .strayCharacter c := by
  intro he
  subst he
  have registered_ne : ∀ name category scope,
      (apply.registered (t.register name category scope)).2.fault? ≠ some (.strayCharacter c) := by
    intro name category scope
    cases hr : t.refusal? name category with
    | none => rw [register_of_no_refusal hr]; nofun
    | some fault =>
      rw [register_of_refusal hr]
      intro hf
      cases hf
      unfold refusal? at hr
      split at hr
      · cases hr
      · split at hr <;> cases hr
  cases change with
  | enter => cases h
  | exit =>
    obtain ⟨nested, globals, history, nextAddress⟩ := t
    cases nested <;> cases h
  | declare name type => exact registered_ne _ _ _ h
  | register name category scope => exact registered_ne _ _ _ h

/-- The first letter of a message tells what kind of fault it is about. -/
def Fault.initial : Fault → Char
  | .strayCharacter _ => 'u'
  | .redeclared _ => 'r'
  | .malformedName _ => 'i'
  | .unmatchedClose => 'a'

theorem head?_append_append {a : String} {c : Char} (h : a.toList.head? = some c) (b d : String) :
    (a ++ b ++ d).toList.head? = some c := by
  rw [String.toList_append, String.toList_append, List.append_assoc, List.head?_append, h]
  rfl

theorem Fault.head?_message (fault : Fault) : fault.message.toList.head? = some fault.initial := by
  cases fault with
  | strayCharacter c => exact head?_append_append rfl _ _
  | redeclared name => exact head?_append_append rfl _ _
  | malformedName name => exact head?_append_append rfl _ _
  | unmatchedClose => rfl

/-- Only a stray character is reported in the words for one. -/
theorem Fault.message_ne_strayCharacter {fault : Fault} (h : ∀ c, fault ≠ .strayCharacter c)
    (c : Char) : fault.message ≠ (Fault.strayCharacter c).message := by
  intro he
  have hinitial : fault.initial = 'u' := by
    have hhead := fault.head?_message
    rw [he, head?_message] at hhead
    exact (Option.some.inj hhead).symm
  cases fault with
  | strayCharacter d => exact h d rfl
  | redeclared name => exact absurd (show 'r' = 'u' from hinitial) (by decide)
  | malformedName name => exact absurd (show 'i' = 'u' from hinitial) (by decide)
  | unmatchedClose => exact absurd (show 'a' = 'u' from hinitial) (by decide)

/-- A refusal is the report on a change that some table refuses. -/
theorem SymbolTable.exists_of_mem_refusals {t : SymbolTable} {changes : List (Nat × Change)}
    {d : Diagnostic} (h : d ∈ t.refusals changes) :
    ∃ c ∈ changes, ∃ (u : SymbolTable) (fault : Fault),
      (u.apply c.2).2.fault? = some fault ∧ d = .ofFault fault c.1 none := by
  induction changes generalizing t with
  | nil => cases h
  | cons c changes ih =>
    rw [refusals_cons, List.mem_append, Option.mem_toList] at h
    rcases h with h | h
    · obtain ⟨fault, hf, rfl⟩ := Option.map_eq_some_iff.mp h
      exact ⟨c, List.mem_cons_self, t, fault, hf, rfl⟩
    · obtain ⟨c', hm, hd⟩ := ih h
      exact ⟨c', List.mem_cons_of_mem _ hm, hd⟩

/-- It stands on the line of the change, without a column, and is put in other words
than those for a stray character. -/
theorem SymbolTable.mem_refusals {t : SymbolTable} {changes : List (Nat × Change)}
    {d : Diagnostic} (h : d ∈ t.refusals changes) :
    ∃ c ∈ changes, ∃ fault : Fault, (∀ s, fault ≠ .strayCharacter s) ∧
      d = .ofFault fault c.1 none := by
  obtain ⟨c, hm, u, fault, hf, rfl⟩ := exists_of_mem_refusals h
  exact ⟨c, hm, fault, fault_ne_strayCharacter hf, rfl⟩

theorem SymbolTable.column_of_mem_refusals {t : SymbolTable} {changes : List (Nat × Change)}
    {d : Diagnostic} (h : d ∈ t.refusals changes) : d.column = none := by
  obtain ⟨c, -, fault, -, rfl⟩ := mem_refusals h
  rfl

theorem Diagnostics.toList_note (ds : Diagnostics) (line : Nat) (outcome : Outcome) :
    (ds.note line outcome).toList = ds.toList ++ (outcome.report? line).toList := by
  unfold Diagnostics.note Outcome.report?
  cases outcome.fault? <;> simp

/-! ## Runs -/

namespace Run

/-- The diagnostics of a run in progress. -/
def diagnostics (r : Run) : List Diagnostic := r.analysis.diagnostics.toList

/-- What an event adds to the diagnostics. -/
def reported (r : Run) : Event → List Diagnostic
  | .token t => r.analysis.table.refusals ((t.plan r.pending).1.toList.map (t.line, ·))
  | .stray c line column => (Event.strayReport? (.stray c line column)).toList

theorem diagnostics_feed (r : Run) (e : Event) :
    (r.feed e).diagnostics = r.diagnostics ++ r.reported e := by
  cases e with
  | stray c line column => simp [feed, diagnostics, Analysis.report, reported, Event.strayReport?]
  | token t =>
    simp only [feed, take, reported, diagnostics]
    cases (t.plan r.pending).1 with
    | none => simp [Analysis.push]
    | some change =>
      simp [Analysis.push, Analysis.diagnostics_carry, Diagnostics.toList_note,
        SymbolTable.refusals_cons]

theorem feedAll_cons (r : Run) (e : Event) (events : List Event) :
    r.feedAll (e :: events) = (r.feed e).feedAll events := rfl

/-- The diagnostics with a column are the stray characters. -/
theorem strays_feedAll (r : Run) (events : List Event) :
    (r.feedAll events).diagnostics.filter (fun d => d.column.isSome) =
      r.diagnostics.filter (fun d => d.column.isSome) ++ events.filterMap Event.strayReport? := by
  induction events generalizing r with
  | nil => simp [feedAll]
  | cons e events ih =>
    rw [feedAll_cons, ih, diagnostics_feed, List.filter_append, List.append_assoc]
    congr 1
    cases e with
    | stray c line column => rfl
    | token t =>
      have hn : (r.reported (.token t)).filter (fun d => d.column.isSome) = [] := by
        refine List.filter_eq_nil_iff.mpr fun d hd => ?_
        rw [SymbolTable.column_of_mem_refusals hd]
        simp
      rw [hn]
      rfl

/-- The diagnostics without a column are the refusals. -/
theorem refusals_feedAll (r : Run) (events : List Event) :
    (r.feedAll events).diagnostics.filter (fun d => d.column.isNone) =
      r.diagnostics.filter (fun d => d.column.isNone) ++
        r.analysis.table.refusals (Event.changes r.pending events) := by
  induction events generalizing r with
  | nil => simp [feedAll, Event.changes]
  | cons e events ih =>
    rw [feedAll_cons, ih, diagnostics_feed, List.filter_append, List.append_assoc]
    congr 1
    cases e with
    | stray c line column =>
      simp [reported, Event.strayReport?, Diagnostic.ofFault, feed, Analysis.report, Event.changes]
    | token t =>
      have hs : (r.reported (.token t)).filter (fun d => d.column.isNone) =
          r.reported (.token t) := by
        refine List.filter_eq_self.mpr fun d hd => ?_
        rw [SymbolTable.column_of_mem_refusals hd]
        rfl
      rw [hs]
      simp only [feed, table_take, Event.changes, reported]
      have hp : (r.take t).pending = (t.plan r.pending).2 := rfl
      rw [hp]
      cases (t.plan r.pending).1 with
      | none => simp
      | some change => simp [SymbolTable.refusals_cons, SymbolTable.applyAll_cons]

/-- Every new diagnostic stands on the line of an event that is no comment. -/
theorem mem_diagnostics_feedAll {r : Run} {events : List Event} {d : Diagnostic}
    (h : d ∈ (r.feedAll events).diagnostics) :
    d ∈ r.diagnostics ∨ ∃ e ∈ events, e.line = d.line ∧ ∀ t, e = .token t → t.kind ≠ .comment := by
  induction events generalizing r with
  | nil => exact Or.inl h
  | cons e events ih =>
    rcases ih (feedAll_cons r e events ▸ h) with h | ⟨e', he', hl⟩
    · rw [diagnostics_feed, List.mem_append] at h
      rcases h with h | h
      · exact Or.inl h
      refine Or.inr ⟨e, List.mem_cons_self, ?_⟩
      cases e with
      | stray c line column =>
        cases List.mem_singleton.mp h
        exact ⟨rfl, fun t ht => by cases ht⟩
      | token t =>
        obtain ⟨c, hc, fault, -, rfl⟩ := SymbolTable.mem_refusals h
        obtain ⟨change, hm, rfl⟩ := List.mem_map.mp hc
        refine ⟨rfl, fun t' ht' hk => ?_⟩
        cases ht'
        simp [Token.plan, hk] at hm
    · exact Or.inr ⟨e', List.mem_cons_of_mem _ he', hl⟩

end Run

/-! ## The analysis of a text -/

theorem foldl_push (a : Analysis) (pushed : List Token) :
    (pushed.foldl Analysis.push a).tokens.toList = a.tokens.toList ++ pushed ∧
      (pushed.foldl Analysis.push a).table = a.table ∧
      (pushed.foldl Analysis.push a).diagnostics = a.diagnostics := by
  induction pushed generalizing a with
  | nil => simp
  | cons t pushed ih =>
    obtain ⟨ht, hu, hd⟩ := ih (a.push t)
    exact ⟨by simpa [Analysis.push] using ht, hu, hd⟩

section
variable (table : SymbolTable) (pushed : List Token) (source : String)

/-- The run with which the analysis of a text begins. -/
def Run.begun : Run := ⟨pushed.foldl Analysis.push (.start table), none⟩

theorem Run.diagnostics_begun : (Run.begun table pushed).diagnostics = [] := by
  unfold Run.begun Run.diagnostics
  rw [(foldl_push _ pushed).2.2]
  rfl

theorem Run.table_begun : (Run.begun table pushed).analysis.table = table :=
  (foldl_push _ pushed).2.1

theorem analyzeWith_eq : analyzeWith table pushed source =
    ((Run.begun table pushed).feedAll (Event.ofSource source.toList)).analysis.close := rfl

theorem diagnostics_analyzeWith :
    (analyzeWith table pushed source).diagnostics.toList =
      ((Run.begun table pushed).feedAll (Event.ofSource source.toList)).diagnostics := rfl

theorem table_eq_feedAll :
    (analyzeWith table pushed source).table =
      ((Run.begun table pushed).feedAll (Event.ofSource source.toList)).analysis.table := rfl

theorem tokens_analyzeWith :
    (analyzeWith table pushed source).tokens.toList =
      pushed ++ (Event.ofSource source.toList).filterMap Event.token? := by
  have h := Run.tokens_feedAll (Run.begun table pushed) (Event.ofSource source.toList)
  unfold Run.begun at h
  rw [(foldl_push _ pushed).1] at h
  exact h

theorem table_analyzeWith :
    (analyzeWith table pushed source).table =
      (table.applyAll ((Event.changes none (Event.ofSource source.toList)).map Prod.snd)).1 := by
  have h := Run.table_feedAll (Run.begun table pushed) (Event.ofSource source.toList)
  rw [Run.table_begun] at h
  exact h

theorem strays_analyzeWith :
    (analyzeWith table pushed source).diagnostics.toList.filter (fun d => d.column.isSome) =
      (Event.ofSource source.toList).filterMap Event.strayReport? := by
  rw [diagnostics_analyzeWith, Run.strays_feedAll, Run.diagnostics_begun]
  rfl

theorem refusals_analyzeWith :
    (analyzeWith table pushed source).diagnostics.toList.filter (fun d => d.column.isNone) =
      table.refusals (Event.changes none (Event.ofSource source.toList)) := by
  rw [diagnostics_analyzeWith, Run.refusals_feedAll, Run.diagnostics_begun, Run.table_begun]
  rfl

/-- A diagnostic has a column exactly if it reports a stray character. -/
theorem isSome_column_iff {d : Diagnostic}
    (h : d ∈ (analyzeWith table pushed source).diagnostics.toList) :
    d.column.isSome = true ↔ ∃ c, d.message = (Fault.strayCharacter c).message := by
  constructor
  · intro hd
    have hm : d ∈ (analyzeWith table pushed source).diagnostics.toList.filter
        (fun d => d.column.isSome) := List.mem_filter.mpr ⟨h, hd⟩
    rw [strays_analyzeWith] at hm
    obtain ⟨e, -, he⟩ := List.mem_filterMap.mp hm
    cases e with
    | token t => cases he
    | stray c line column => cases he; exact ⟨c, rfl⟩
  · intro hc
    obtain ⟨c, hc⟩ := hc
    cases hd : d.column with
    | some column => rfl
    | none =>
      have hm : d ∈ (analyzeWith table pushed source).diagnostics.toList.filter
          (fun d => d.column.isNone) := List.mem_filter.mpr ⟨h, by rw [hd]; rfl⟩
      rw [refusals_analyzeWith] at hm
      obtain ⟨_, _, fault, hne, rfl⟩ := SymbolTable.mem_refusals hm
      exact absurd hc (Fault.message_ne_strayCharacter hne c)

theorem mem_diagnostics_analyzeWith {d : Diagnostic}
    (h : d ∈ (analyzeWith table pushed source).diagnostics.toList) :
    ∃ e ∈ Event.ofSource source.toList,
      e.line = d.line ∧ ∀ t, e = .token t → t.kind ≠ .comment := by
  rw [diagnostics_analyzeWith] at h
  rcases Run.mem_diagnostics_feedAll h with h | h
  · rw [Run.diagnostics_begun] at h
    cases h
  · exact h

end

end ScopeLex
