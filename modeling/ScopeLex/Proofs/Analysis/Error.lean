import ScopeLex.Proofs.Analysis.Population

/-!
# What an error means

A table refuses a variable whose name is out of shape, but the scan finds no such
name, and a literal is no variable. So all that a table ever refuses is a warning,
and an error always is a character at which no token begins.

* `Step.severity_refused`: a well-shaped request is at most refused with a warning.
* `Event.isShaped_of_mem_changes`: the scan makes no other requests.
* `reported_of_mem_diagnostics`: the diagnostics that can arise.
* `Diagnostics.toList_afterLiterals`: literals registered afterwards add warnings only.
* `errors_are_strays`: there are errors exactly if a character is stray.
-/
namespace ScopeLex

open Regex (ways)
open Text (lines)
open SymbolTable (Step)

/-! ## Refusals that are warnings -/

/-- A variable asked for by the change has a name of the right shape. -/
def Change.IsShaped (change : Change) : Prop :=
  ∀ level name category scope, change.request? level = some (name, category, scope) →
    category.isVariable = true → isIdentifier name = true

namespace SymbolTable

variable {t u : SymbolTable} {change : Change} {changes : List Change} {fault : Fault}

/-- A well-shaped request is at most refused with a warning. -/
theorem Step.severity_refused (hs : Step t change (.refused fault) u) (h : change.IsShaped) :
    fault.severity = .warning := by
  cases hs with
  | exitGlobal _ => rfl
  | refuse asks taken =>
    unfold refusal? at taken
    split at taken
    · cases taken
      rfl
    · obtain ⟨hbad, -⟩ := Option.ite_none_right_eq_some.mp taken
      rw [Bool.and_eq_true, Bool.not_eq_true'] at hbad
      rw [h _ _ _ _ asks hbad.1] at hbad
      cases hbad.2

theorem severity_of_mem_applyAll (h : ∀ change ∈ changes, change.IsShaped)
    (hm : .refused fault ∈ (t.applyAll changes).2) : fault.severity = .warning := by
  refine applyAll_induction (motive := fun outcomes _ => .refused fault ∈ outcomes →
    fault.severity = .warning) ?_ (fun hm => by cases hm) hm
  intro change hchange outcomes u outcome v hs ih hm
  rcases List.mem_append.mp hm with hm | hm
  · exact ih hm
  · cases List.mem_singleton.mp hm
    exact hs.severity_refused (h change hchange)

theorem severity_of_mem_refusals {changes : List (Nat × Change)} {d : Diagnostic}
    (h : ∀ c ∈ changes, c.2.IsShaped) (hm : d ∈ t.refusals changes) :
    ∃ fault line, fault.severity = .warning ∧ d = .ofFault fault line none := by
  obtain ⟨c, hc, u, fault, hf, rfl⟩ := exists_of_mem_refusals hm
  refine ⟨fault, c.1, ?_, rfl⟩
  have hs := step_apply u c.2
  generalize (u.apply c.2).2 = outcome at hf hs
  cases outcome with
  | refused f => cases hf; exact hs.severity_refused (h c hc)
  | _ => cases hf

end SymbolTable

/-! ## The requests of a scan -/

/-- The scan asks for names that have the right shape and are not reserved. -/
theorem Event.name_of_mem_changes {text : List Char} {c : Nat × Change}
    (h : c ∈ Event.changes none (ofSource text)) {level : Nat} {name : String}
    {category : Category} {scope : ScopeTag}
    (hr : c.2.request? level = some (name, category, scope)) :
    isIdentifier name = true ∧ name ∉ keywords := by
  obtain ⟨t, ht, hkind, rfl⟩ := Event.exists_of_mem_changes h hr
  exact identifier_of_mem_ofSource ht hkind

theorem Event.isShaped_of_mem_changes {text : List Char} {c : Nat × Change}
    (h : c ∈ Event.changes none (ofSource text)) : c.2.IsShaped :=
  fun _ _ _ _ hr _ => (name_of_mem_changes h hr).1

/-! ## The diagnostics that can arise -/

/-- What a text can be told off for. -/
inductive Reported : Diagnostic → Prop
  | stray (c : Char) (line column : Nat) :
      Reported (.ofFault (.strayCharacter c) line (some column))
  | redeclared (name : String) (line : Nat) : Reported (.ofFault (.redeclared name) line none)
  | unmatchedClose (line : Nat) : Reported (.ofFault .unmatchedClose line none)

namespace Reported

variable {d : Diagnostic}

/-- Errors are what has a column. -/
theorem severity_eq_error_iff (h : Reported d) : d.severity = .error ↔ d.column.isSome = true := by
  cases h with
  | stray c line column => exact ⟨fun _ => rfl, fun _ => rfl⟩
  | redeclared name line => exact ⟨nofun, nofun⟩
  | unmatchedClose line => exact ⟨nofun, nofun⟩

theorem of_warning {fault : Fault} (h : fault.severity = .warning) (line : Nat) :
    Reported (.ofFault fault line none) := by
  cases fault with
  | strayCharacter c => cases h
  | redeclared name => exact .redeclared name line
  | malformedName name => cases h
  | unmatchedClose => exact .unmatchedClose line

end Reported

section
variable (table : SymbolTable) (pushed : List Token) (source : String)

theorem reported_of_mem_diagnostics {d : Diagnostic}
    (h : d ∈ (analyzeWith table pushed source).diagnostics.toList) : Reported d := by
  cases hc : d.column with
  | some column =>
    have hm : d ∈ (analyzeWith table pushed source).diagnostics.toList.filter
        (fun d => d.column.isSome) := List.mem_filter.mpr ⟨h, by rw [hc]; rfl⟩
    rw [strays_analyzeWith] at hm
    obtain ⟨e, -, he⟩ := List.mem_filterMap.mp hm
    cases e with
    | token t => cases he
    | stray c line column => cases he; exact .stray c line column
  | none =>
    have hm : d ∈ (analyzeWith table pushed source).diagnostics.toList.filter
        (fun d => d.column.isNone) := List.mem_filter.mpr ⟨h, by rw [hc]; rfl⟩
    rw [refusals_analyzeWith] at hm
    obtain ⟨fault, line, hw, rfl⟩ := SymbolTable.severity_of_mem_refusals
      (fun _ => Event.isShaped_of_mem_changes) hm
    exact .of_warning hw line

/-! ## Literals registered afterwards -/

/-- The diagnostics after registrations of literals, each with its table and tokens. -/
def Diagnostics.afterLiterals (ds : Diagnostics) (calls : List (SymbolTable × List Token)) :
    Diagnostics :=
  calls.foldl (fun ds call => (call.1.registerLiterals call.2 ds).2) ds

/-- Literals that are registered add warnings only, whatever they are. -/
theorem Diagnostics.toList_afterLiterals (ds : Diagnostics)
    (calls : List (SymbolTable × List Token)) :
    ∃ clashes : List Literal, (ds.afterLiterals calls).toList =
      ds.toList ++ clashes.map Literal.clash := by
  induction calls generalizing ds with
  | nil => exact ⟨[], (List.append_nil _).symm⟩
  | cons call calls ih =>
    have hfirst := call.1.toList_snd_registerLiterals call.2 ds
    obtain ⟨rest, hrest⟩ := ih (call.1.registerLiterals call.2 ds).2
    refine ⟨((Literal.firstSeen call.2).filter fun l => !call.1.isFree l) ++ rest, ?_⟩
    rw [List.map_append, ← List.append_assoc, ← hfirst, ← hrest]
    rfl

theorem Diagnostics.hasErrors_afterLiterals (ds : Diagnostics)
    (calls : List (SymbolTable × List Token)) :
    (ds.afterLiterals calls).hasErrors = ds.hasErrors := by
  obtain ⟨clashes, h⟩ := ds.toList_afterLiterals calls
  have hwarnings : (clashes.map Literal.clash).any (·.severity == .error) = false := by
    rw [List.any_eq_false]
    intro d hd
    obtain ⟨l, -, rfl⟩ := List.mem_map.mp hd
    exact nofun
  rw [hasErrors_eq_any, hasErrors_eq_any, h, List.any_append, hwarnings, Bool.or_false]

theorem reported_of_mem_afterLiterals {calls : List (SymbolTable × List Token)} {d : Diagnostic}
    (h : d ∈ ((analyzeWith table pushed source).diagnostics.afterLiterals calls).toList) :
    Reported d := by
  obtain ⟨clashes, hds⟩ :=
    (analyzeWith table pushed source).diagnostics.toList_afterLiterals calls
  rw [hds, List.mem_append] at h
  rcases h with h | h
  · exact reported_of_mem_diagnostics table pushed source h
  · obtain ⟨l, -, rfl⟩ := List.mem_map.mp h
    exact .redeclared l.lexeme l.line

/-! ## Errors -/

/-- An open line has a character at which no token begins. -/
def HasStray (text : List Char) : Prop :=
  ∃ k line c, (lines text)[k]? = some line ∧ ¬ Covers (BlockComment.all text) (k + 1) ∧
    .stray c ∈ codeSegments line

theorem mem_codeSegments_iff {k : Nat} {line : List Char} {c : Char} :
    .stray c ∈ codeSegments line ↔ ∃ column, Event.stray c k column ∈ Event.ofLine k line := by
  rw [codeSegments, List.mem_map, Event.ofLine_eq, Event.ofLineComment_eq]
  constructor
  · intro h
    obtain ⟨⟨column, p⟩, hm, rfl⟩ := h
    exact ⟨column, List.mem_append_right _ (List.mem_filterMap.mpr ⟨_, hm, rfl⟩)⟩
  · intro h
    obtain ⟨column, hm⟩ := h
    rcases List.mem_append.mp hm with hm | hm
    · obtain ⟨t, -, he⟩ := List.mem_map.mp hm
      cases he
    · obtain ⟨⟨at_, p⟩, hp, he⟩ := List.mem_filterMap.mp hm
      cases p with
      | blank text => cases he
      | lexeme kind found => cases he
      | stray d => cases he; exact ⟨_, hp, rfl⟩

theorem hasStray_iff {text : List Char} :
    HasStray text ↔ ∃ c line column, Event.stray c line column ∈
      Event.ofOpenLines (BlockComment.all text) text := by
  constructor
  · intro h
    obtain ⟨k, line, c, hl, hopen, hc⟩ := h
    obtain ⟨column, hm⟩ := mem_codeSegments_iff (k := k + 1).mp hc
    have hfilter := Event.filter_line_ofOpenLines (BlockComment.all text) (Nat.succ_pos k) hl
    rw [if_neg hopen] at hfilter
    rw [← hfilter] at hm
    exact ⟨c, k + 1, column, (List.mem_filter.mp hm).1⟩
  · intro h
    obtain ⟨c, k, column, hm⟩ := h
    have hopen := (Event.mem_ofOpenLines hm).2.2
    rw [Event.ofOpenLines_eq] at hm
    obtain ⟨h1, -, -, line, hl, he⟩ := Event.mem_ofLines hm
    have hk : k - 1 + 1 = k := Nat.sub_add_cancel h1
    exact ⟨k - 1, line, c, hl, by rwa [hk], mem_codeSegments_iff.mpr ⟨column, he⟩⟩

/-- The errors of a run are its stray characters. -/
theorem hasErrors_analyzeWith_iff :
    (analyzeWith table pushed source).diagnostics.hasErrors = true ↔ HasStray source.toList := by
  have hcolumn : (analyzeWith table pushed source).diagnostics.hasErrors = true ↔
      ∃ d, d ∈ (analyzeWith table pushed source).diagnostics.toList.filter
        (fun d => d.column.isSome) := by
    rw [Diagnostics.hasErrors_eq_any, List.any_eq_true]
    refine exists_congr fun d => ?_
    rw [List.mem_filter, beq_iff_eq]
    exact and_congr_right fun hd =>
      (reported_of_mem_diagnostics table pushed source hd).severity_eq_error_iff
  rw [hcolumn, hasStray_iff, strays_eq]
  constructor
  · intro h
    obtain ⟨d, hd⟩ := h
    obtain ⟨e, he, hed⟩ := List.mem_filterMap.mp hd
    cases e with
    | token t => cases hed
    | stray c line column => exact ⟨c, line, column, he⟩
  · intro h
    obtain ⟨c, line, column, he⟩ := h
    exact ⟨_, List.mem_filterMap.mpr ⟨_, he, rfl⟩⟩

end

/-- Errors are stray characters and nothing else. The names that both patterns and
tables take are the same, so that no request of a scan is refused for the shape of its
name and all names added have it. Every diagnostic is the error for a stray character,
with a column, or a warning without one, also when literals are registered any number
of times, of any tokens in any table; and there are errors exactly if a character is
stray. -/
theorem errors_are_strays (table : SymbolTable) (pushed : List Token) (source : String) :
    let a := analyzeWith table pushed source
    let requests := (Event.changes none (Event.ofSource source.toList)).map Prod.snd
    (∀ name : String,
      (isIdentifier name = true ↔ name.toList.length ∈ ways none name.toList nameShape) ∧
      (isIdentifier name = true ↔
        Pattern.identifier.lexeme? name.toList = some name.toList)) ∧
    (a.table = (table.applyAll requests).1 ∧
      (∀ name, .refused (.malformedName name) ∉ (table.applyAll requests).2) ∧
      ∃ added : List Symbol, a.table.history.toList = table.history.toList ++ added ∧
        ∀ s ∈ added, isIdentifier s.name = true ∧ s.name ∉ keywords) ∧
    ∀ calls : List (SymbolTable × List Token), let ds := a.diagnostics.afterLiterals calls
      (∀ d ∈ ds.toList, Reported d ∧ (d.severity = .error ↔ d.column.isSome = true)) ∧
      (ds.hasErrors = true ↔ HasStray source.toList) := by
  intro a requests
  have htable : a.table = (table.applyAll requests).1 := table_analyzeWith table pushed source
  refine ⟨fun name => ⟨isIdentifier_iff_mem_ways name, isIdentifier_iff_lexeme? name⟩,
    ⟨htable, ?_, (table.applyAll requests).2.filterMap Outcome.symbol?, ?_, ?_⟩, fun calls => ?_⟩
  · intro name hm
    have hshaped : ∀ change ∈ requests, change.IsShaped := by
      intro change hchange
      obtain ⟨c, hc, rfl⟩ := List.mem_map.mp hchange
      exact Event.isShaped_of_mem_changes hc
    cases SymbolTable.severity_of_mem_applyAll hshaped hm
  · rw [htable]
    exact SymbolTable.history_applyAll table requests
  · intro s hs
    obtain ⟨change, hchange, level, hr⟩ :=
      SymbolTable.request_of_registered (SymbolTable.mem_filterMap_symbol?.mp hs)
    obtain ⟨c, hc, rfl⟩ := List.mem_map.mp hchange
    exact Event.name_of_mem_changes hc hr
  · intro ds
    constructor
    · intro d hd
      have hreported := reported_of_mem_afterLiterals table pushed source hd
      exact ⟨hreported, hreported.severity_eq_error_iff⟩
    · rw [← hasErrors_analyzeWith_iff table pushed source]
      exact Bool.eq_iff_iff.mp (a.diagnostics.hasErrors_afterLiterals calls)

end ScopeLex
