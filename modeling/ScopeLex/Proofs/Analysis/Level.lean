import ScopeLex.Proofs.Analysis.HandOver
import ScopeLex.Proofs.Symbol.Step
import ScopeLex.Proofs.Token.Braces

/-!
# The level of a run

Braces are all that the level depends on. A run keeps the depth of the braces that it
has seen, and warns of those that close a block where none is open, which it passes over.

* `Token.plan_of_opensBlock`, `Token.plan_of_closesBlock`, `Token.plan_of_no_brace`: what
  a token asks for.
* `Run.depth_take`, `Run.warnings_take`: what one token does to the depth, and what
  warning it leads to.
* `Run.depth_feedAll`: what events do.
* `Run.agrees_feed_stray`: a stray closing hands on what it finds.
* `level_of_braces`: the level and the warnings of a text.
-/
namespace ScopeLex

open SymbolTable (Step)

/-! ## What tokens ask for -/

namespace Token

variable {t : Token}

theorem plan_of_opensBlock (h : t.opensBlock = true) (pending : Option Datatype) :
    t.plan pending = (some .enter, pending) := by
  simp only [opensBlock, Bool.and_eq_true, beq_iff_eq] at h
  simp [plan, h.1, h.2]

theorem plan_of_closesBlock (h : t.closesBlock = true) (pending : Option Datatype) :
    t.plan pending = (some .exit, pending) := by
  simp only [closesBlock, Bool.and_eq_true, beq_iff_eq] at h
  simp [plan, h.1, h.2]

/-- A token that is no brace asks for a declaration, if for anything. -/
theorem plan_of_no_brace (ho : t.opensBlock = false) (hc : t.closesBlock = false)
    {pending : Option Datatype} {change : Change} (h : (t.plan pending).1 = some change) :
    ∃ name type, change = .declare name type := by
  unfold plan at h
  cases hk : t.kind <;> rw [hk] at h
  case delimiter =>
    simp only [opensBlock, closesBlock, hk, beq_self_eq_true, Bool.true_and] at ho hc
    simp [ho, hc] at h
  case identifier =>
    obtain ⟨type, -, rfl⟩ := Option.map_eq_some_iff.mp h
    exact ⟨t.lexeme, type, rfl⟩
  all_goals cases h

/-- The warning about a token that closes a block where none is open. -/
def closeWarning (t : Token) : Diagnostic := .ofFault .unmatchedClose t.line none

end Token

/-! ## What the table answers -/

/-- A warning about a block that is closed where none is open. -/
def Diagnostic.isCloseWarning (d : Diagnostic) : Bool := d.message == Fault.unmatchedClose.message

theorem Fault.message_eq_unmatchedClose_iff (fault : Fault) :
    fault.message = Fault.unmatchedClose.message ↔ fault = .unmatchedClose := by
  constructor
  · intro h
    have hinitial : fault.initial = 'a' := by
      have hhead := fault.head?_message
      rw [h, head?_message] at hhead
      exact (Option.some.inj hhead).symm
    cases fault with
    | unmatchedClose => rfl
    | strayCharacter c => exact absurd (show 'u' = 'a' from hinitial) (by decide)
    | redeclared name => exact absurd (show 'r' = 'a' from hinitial) (by decide)
    | malformedName name => exact absurd (show 'i' = 'a' from hinitial) (by decide)
  · rintro rfl
    rfl

theorem Diagnostic.isCloseWarning_ofFault (fault : Fault) (line : Nat) (column : Option Nat) :
    (ofFault fault line column).isCloseWarning = true ↔ fault = .unmatchedClose := by
  rw [isCloseWarning, beq_iff_eq]
  exact fault.message_eq_unmatchedClose_iff

namespace SymbolTable

theorem apply_exit_depth (table : SymbolTable) :
    (table.apply .exit).1.nested.length = table.nested.length - 1 ∧
      (table.apply .exit).2.fault? =
        if table.nested.length = 0 then some .unmatchedClose else none := by
  obtain ⟨nested, globals, history, nextAddress⟩ := table
  cases nested <;> exact ⟨rfl, rfl⟩

/-- A declaration leaves the blocks open, and is not refused for want of one. -/
theorem apply_declare_depth (table : SymbolTable) (name : String) (type : Datatype) :
    (table.apply (.declare name type)).1.nested.length = table.nested.length ∧
      (table.apply (.declare name type)).2.fault? ≠ some .unmatchedClose := by
  have hs := table.step_apply (.declare name type)
  generalize (table.apply (.declare name type)).1 = u at hs
  generalize (table.apply (.declare name type)).2 = outcome at hs
  cases hs with
  | register asks free =>
    refine ⟨Nat.succ.inj ?_, nofun⟩
    exact level_add _ _
  | refuse asks taken =>
    refine ⟨rfl, fun hf => ?_⟩
    cases hf
    unfold refusal? at taken
    split at taken
    · cases taken
    · split at taken <;> cases taken

end SymbolTable

/-! ## Runs -/

namespace Run

/-- The number of blocks that are open. -/
def depth (r : Run) : Nat := r.analysis.table.nested.length

/-- A token does to the depth what it does to that of the braces. -/
theorem depth_take (r : Run) (t : Token) : (r.take t).depth = t.depthBehind r.depth := by
  unfold depth
  rw [table_take]
  obtain ⟨ho, hc⟩ | ⟨ho, hc⟩ | ⟨ho, hc⟩ := t.brace_cases
  · rw [Token.plan_of_opensBlock ho, Token.depthBehind, if_pos ho]
    rfl
  · rw [Token.plan_of_closesBlock hc, Option.toList_some, SymbolTable.applyAll_cons,
      SymbolTable.applyAll_nil, (SymbolTable.apply_exit_depth _).1]
    simp [Token.depthBehind, ho, hc]
  · have hbehind : ∀ depth, t.depthBehind depth = depth := by simp [Token.depthBehind, ho, hc]
    rw [hbehind]
    cases hp : (t.plan r.pending).1 with
    | none => rfl
    | some change =>
      obtain ⟨name, type, rfl⟩ := Token.plan_of_no_brace ho hc hp
      rw [Option.toList_some, SymbolTable.applyAll_cons, SymbolTable.applyAll_nil]
      exact (SymbolTable.apply_declare_depth _ name type).1

/-- The report on the change that a token asks for. -/
theorem reported_of_plan {r : Run} {t : Token} {change : Change}
    (h : (t.plan r.pending).1 = some change) :
    r.reported (.token t) = ((r.analysis.table.apply change).2.report? t.line).toList := by
  rw [reported, h, Option.toList_some, List.map_singleton, SymbolTable.refusals_cons,
    SymbolTable.refusals_nil, List.append_nil]

/-- A token is warned of if it closes a block where none is open. -/
theorem warnings_take (r : Run) (t : Token) :
    (r.reported (.token t)).filter Diagnostic.isCloseWarning =
      (strayCloses r.depth [t]).map Token.closeWarning := by
  unfold depth
  obtain ⟨ho, hc⟩ | ⟨ho, hc⟩ | ⟨ho, hc⟩ := t.brace_cases
  · rw [reported_of_plan (congrArg Prod.fst (Token.plan_of_opensBlock ho _))]
    simp [strayCloses, Token.isStray, hc, SymbolTable.apply, Outcome.report?, Outcome.fault?]
  · have hwarning : t.closeWarning.isCloseWarning = true :=
      (Diagnostic.isCloseWarning_ofFault _ _ _).mpr rfl
    rw [reported_of_plan (congrArg Prod.fst (Token.plan_of_closesBlock hc _)), Outcome.report?,
      (SymbolTable.apply_exit_depth _).2]
    by_cases hdepth : r.analysis.table.nested.length = 0
    · rw [if_pos hdepth, hdepth, strayCloses, if_pos (by simp [Token.isStray, hc])]
      exact List.filter_cons_of_pos hwarning
    · rw [if_neg hdepth, strayCloses, if_neg (by simp [Token.isStray, hdepth])]
      rfl
  · have hstray : ∀ depth, strayCloses depth [t] = [] := by simp [strayCloses, Token.isStray, hc]
    rw [hstray, List.map_nil, List.filter_eq_nil_iff]
    cases hp : (t.plan r.pending).1 with
    | none =>
      rw [reported, hp]
      intro d hd
      cases hd
    | some change =>
      obtain ⟨name, type, rfl⟩ := Token.plan_of_no_brace ho hc hp
      intro d hd
      rw [reported_of_plan hp, Option.mem_toList] at hd
      obtain ⟨fault, hf, rfl⟩ := Option.map_eq_some_iff.mp hd
      rw [Diagnostic.isCloseWarning_ofFault]
      rintro rfl
      exact (SymbolTable.apply_declare_depth _ name type).2 hf

/-- A stray character does nothing to the depth. -/
theorem depth_feed_stray (r : Run) (c : Char) (line column : Nat) :
    (r.feed (.stray c line column)).depth = r.depth ∧
      (r.reported (.stray c line column)).filter Diagnostic.isCloseWarning = [] := by
  refine ⟨rfl, List.filter_eq_nil_iff.mpr fun d hd => ?_⟩
  cases List.mem_singleton.mp hd
  rw [Diagnostic.isCloseWarning_ofFault]
  nofun

/-- What events do to the depth, and what warnings they lead to. -/
theorem depth_feedAll (r : Run) (events : List Event) :
    (r.feedAll events).depth = depthAfter r.depth (events.filterMap Event.token?) ∧
      (r.reports events).filter Diagnostic.isCloseWarning =
        (strayCloses r.depth (events.filterMap Event.token?)).map Token.closeWarning := by
  induction events generalizing r with
  | nil => exact ⟨rfl, rfl⟩
  | cons e events ih =>
    obtain ⟨hrest, hwarnings⟩ := ih (r.feed e)
    rw [feedAll_cons, reports, List.filter_append, hrest, hwarnings]
    cases e with
    | stray c line column =>
      obtain ⟨hdepth, hnone⟩ := r.depth_feed_stray c line column
      rw [hdepth, hnone]
      exact ⟨rfl, rfl⟩
    | token t =>
      have hfeed : (r.feed (.token t)).depth = t.depthBehind r.depth := r.depth_take t
      have hsplit : strayCloses r.depth (t :: events.filterMap Event.token?) =
          strayCloses r.depth [t] ++
            strayCloses (t.depthBehind r.depth) (events.filterMap Event.token?) :=
        strayCloses_append r.depth [t] _
      have htokens : (Event.token t :: events).filterMap Event.token? =
          t :: events.filterMap Event.token? := rfl
      rw [hfeed, r.warnings_take t, htokens, hsplit, List.map_append]
      exact ⟨rfl, rfl⟩

/-- A token that closes a block where none is open hands on what it finds. -/
theorem agrees_feed_stray {r : Run} {t : Token} (h : t.isStray r.depth = true) :
    Agrees r (r.feed (.token t)) := by
  obtain ⟨hc, hd⟩ := Bool.and_eq_true_iff.mp h
  have hplan := Token.plan_of_closesBlock hc r.pending
  refine ⟨?_, congrArg Prod.snd hplan⟩
  have hnested : r.analysis.table.nested = [] := List.length_eq_zero_iff.mp (beq_iff_eq.mp hd)
  rw [feed, table_take, hplan]
  generalize r.analysis.table = table at hnested
  obtain ⟨nested, globals, history, nextAddress⟩ := table
  cases hnested
  rfl

end Run

/-! ## The level of a text -/

section
variable (base : Nat) (source : String)

/-- The braces of a text, in the order in which they are found. -/
def Analysis.braces (a : Analysis) : List Token := a.tokens.toList.filter Token.isBrace

/-- The warnings about blocks that are closed where none is open. -/
def Analysis.closeWarnings (a : Analysis) : List Diagnostic :=
  a.diagnostics.toList.filter Diagnostic.isCloseWarning

theorem isBrace_of_mem_braces {a : Analysis} {t : Token} (h : t ∈ a.braces) : t.isBrace = true :=
  (List.mem_filter.mp h).2

/-- The level and the warnings from the braces. -/
theorem depth_analyzeWith :
    let a := analyzeWith (.empty base) [] source
    a.table.level = depthAfter 0 a.braces + 1 ∧
      a.closeWarnings = (strayCloses 0 a.braces).map Token.closeWarning := by
  intro a
  have hbegun : (Run.begun (.empty base) []).depth = 0 := rfl
  obtain ⟨hdepth, hwarnings⟩ :=
    (Run.begun (.empty base) []).depth_feedAll (Event.ofSource source.toList)
  obtain ⟨hfilter, hfilter'⟩ := depthAfter_filter 0 a.tokens.toList
  rw [Analysis.braces, hfilter, hfilter', tokens_analyzeWith, List.nil_append]
  rw [hbegun] at hdepth hwarnings
  refine ⟨?_, ?_⟩
  · rw [← hdepth]
    exact congrArg SymbolTable.level (table_eq_feedAll (.empty base) [] source)
  · rw [← hwarnings, Analysis.closeWarnings, diagnostics_analyzeWith, Run.diagnostics_feedAll,
      Run.diagnostics_begun, List.nil_append]

/-- A brace that closes and matches none behind `pre` is passed over: a run goes on as if
it had not been there. -/
theorem agrees_without_unmatched {pre : List Event} {t : Token} {closes : List Token}
    (hc : t.closesBlock = true)
    (hpre : Unmatched ((pre.filterMap Event.token?).filter Token.isBrace) closes [])
    (later : List Event) :
    let begun := Run.begun (.empty base) []
    Run.Agrees (begun.feedAll (pre ++ later)) (begun.feedAll (pre ++ .token t :: later)) ∧
      (begun.feedAll (pre ++ [.token t])).reports later = (begun.feedAll pre).reports later := by
  intro begun
  have hdepth : (begun.feedAll pre).depth = 0 := by
    rw [(begun.depth_feedAll pre).1, ← (depthAfter_filter _ _).1, (hpre.eq_of_depth _).1]
    exact Nat.zero_sub _
  have hstray : t.isStray (begun.feedAll pre).depth = true := by
    rw [hdepth, Token.isStray, hc]
    rfl
  obtain ⟨hagrees, hreports⟩ := (Run.agrees_feed_stray hstray).same later
  rw [Run.feedAll_append, Run.feedAll_append, Run.feedAll_append]
  exact ⟨hagrees, hreports⟩

/-- The level of a text in closed form. Of its braces some match and some do not. At the
end as many blocks are open as braces open and do not match, which is the greatest
surplus of openings in any part at the end. There are as many warnings as braces close
and do not match, which is the greatest surplus of closings in any part at the
beginning, and each stands where that surplus first reaches its number. A brace that
closes and does not match has no effect: with and without it a run has the same table at
every later point, and reports the same from there. -/
theorem level_of_braces :
    (∃ closes opens, Unmatched (analyzeWith (.empty base) [] source).braces closes opens) ∧
    let a := analyzeWith (.empty base) [] source
    let begun := Run.begun (.empty base) []
    (∀ closes opens, Unmatched a.braces closes opens →
      a.table.level = 1 + opens.length ∧ a.closeWarnings = closes.map Token.closeWarning) ∧
    IsGreatest {n : Int | ∃ later, later <:+ a.braces ∧ surplus later = n}
      ((a.table.level : Int) - 1) ∧
    IsGreatest {n : Int | ∃ earlier, earlier <+: a.braces ∧ -surplus earlier = n}
      (a.closeWarnings.length : Int) ∧
    (∀ (i : Nat) (warning : Diagnostic), a.closeWarnings[i]? = some warning →
      ∃ before t after, a.braces = before ++ t :: after ∧ warning = t.closeWarning ∧
        -surplus (before ++ [t]) = i + 1 ∧
        ∀ earlier, earlier <+: before → -surplus earlier < i + 1) ∧
    ∀ (pre post : List Event) (t : Token) (closes : List Token),
      Event.ofSource source.toList = pre ++ .token t :: post → t.closesBlock = true →
      Unmatched ((pre.filterMap Event.token?).filter Token.isBrace) closes [] →
      ∀ later, later <+: post →
        Run.Agrees (begun.feedAll (pre ++ later)) (begun.feedAll (pre ++ .token t :: later)) ∧
        (begun.feedAll (pre ++ [.token t])).reports later =
          (begun.feedAll pre).reports later := by
  refine ⟨exists_unmatched fun _ => isBrace_of_mem_braces, ?_⟩
  intro a begun
  obtain ⟨hlevel, hwarnings⟩ := depth_analyzeWith base source
  change a.table.level = depthAfter 0 a.braces + 1 at hlevel
  change a.closeWarnings = (strayCloses 0 a.braces).map Token.closeWarning at hwarnings
  refine ⟨fun closes opens h => ?_, ?_, ?_, fun i warning hi => ?_,
    fun pre post t closes _ hc hpre later _ => agrees_without_unmatched base hc hpre later⟩
  · obtain ⟨hdepth, hstray⟩ := h.eq_of_depth 0
    rw [hlevel, hwarnings, hdepth, hstray]
    exact ⟨by omega, rfl⟩
  · have hdepth : (a.table.level : Int) - 1 = depthAfter 0 a.braces := by omega
    rw [hdepth]
    exact isGreatest_depthAfter a.braces
  · rw [hwarnings, List.length_map]
    exact isGreatest_strayCloses a.braces
  · rw [hwarnings, List.getElem?_map] at hi
    obtain ⟨t, ht, rfl⟩ := Option.map_eq_some_iff.mp hi
    obtain ⟨before, after, hsplit, hdeficit, hfirst⟩ := firstPassage_strayCloses ht
    exact ⟨before, t, after, hsplit, rfl, hdeficit, hfirst⟩

end

/-- Braces in strings, characters and comments do not count, and a block that is closed
too often does not hide the next one. -/
theorem level_of_braces_unbalanced :
    let a := analyzeWith (.empty 1000) []
      "\x7d \x7b \"\x7b\"\n\x7d // \x7d\n\x7d '\x7b' \x7b int x;"
    let brace := fun (lexeme : String) (line : Nat) => (⟨.delimiter, lexeme, line⟩ : Token)
    Unmatched a.braces [brace "\x7d" 1, brace "\x7d" 3] [brace "\x7b" 3] ∧
      a.table.level = 2 ∧
      a.closeWarnings = [(brace "\x7d" 1).closeWarning, (brace "\x7d" 3).closeWarning] := by
  intro a brace
  have hbraces : a.braces =
      [brace "\x7d" 1, brace "\x7b" 1, brace "\x7d" 2, brace "\x7d" 3, brace "\x7b" 3] := by
    decide +kernel
  have hblock : Matched [brace "\x7b" 1, brace "\x7d" 2] := .block rfl rfl .nil .nil
  have hunmatched : Unmatched a.braces [brace "\x7d" 1, brace "\x7d" 3] [brace "\x7b" 3] := by
    rw [hbraces]
    exact .close .nil rfl (.close hblock rfl (.open .nil rfl (.matched .nil)))
  exact ⟨hunmatched, (level_of_braces 1000 _).2.1 _ _ hunmatched⟩

end ScopeLex
