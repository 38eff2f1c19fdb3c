import ScopeLex.Proofs.Analysis.Report

/-!
# The table as a function of the tokens

A table can be built from the tokens alone: `SymbolTable.replay` goes through
them without any state but the table, and finds the type of a declaration by
looking back. A run builds the same table and reports the same refusals, although
it carries the waiting type along, over lines, comments and stray characters.

* `plan_eq_declaredType?`: what waits in a run is what looking back finds.
* `SymbolTable.obey_eq`: one token does the same to the table in both.
* `SymbolTable.replay_eq`: so does a whole run.
* `SymbolTable.replay_congr`: lines do not matter.
* `tokens_determine_table`: the tokens determine table and refusals.
-/
namespace ScopeLex

/-! ## Looking back -/

/-- A token without its line. -/
def Token.key (t : Token) : TokenKind × String := (t.kind, t.lexeme)

/-- A diagnostic without its place. -/
def Diagnostic.wording (d : Diagnostic) : Severity × String := (d.severity, d.message)

/-- The type that a token names. -/
def Token.type? (t : Token) : Option Datatype :=
  if t.kind = .keyword then Datatype.ofName? t.lexeme else none

/-- The type that an identifier behind the tokens `before` declares: the last one
named since the last identifier. -/
def declaredType? (before : List Token) : Option Datatype :=
  (before.reverse.takeWhile fun t => t.kind ≠ .identifier).findSome? Token.type?

theorem declaredType?_append (before : List Token) (t : Token) :
    declaredType? (before ++ [t]) =
      if t.kind = .identifier then none else t.type?.or (declaredType? before) := by
  unfold declaredType?
  rw [List.reverse_append, List.reverse_singleton, List.singleton_append, List.takeWhile_cons]
  by_cases h : t.kind = .identifier
  · simp [h]
  · simp only [h, ne_eq, not_false_eq_true, decide_true, if_true, if_false, List.findSome?_cons]
    cases t.type? <;> rfl

/-- Looking back sees no lines. -/
theorem declaredType?_congr {before before' : List Token}
    (h : before.map Token.key = before'.map Token.key) :
    declaredType? before = declaredType? before' := by
  have of_keys : ∀ tokens : List Token, declaredType? tokens =
      ((tokens.map Token.key).reverse.takeWhile fun k => k.1 ≠ .identifier).findSome? fun k =>
        if k.1 = .keyword then Datatype.ofName? k.2 else none := by
    intro tokens
    rw [← List.map_reverse, List.takeWhile_map, List.findSome?_map]
    rfl
  rw [of_keys, of_keys, h]

/-- What waits behind a token is what looking back finds there. -/
theorem plan_eq_declaredType? (before : List Token) (t : Token) :
    (t.plan (declaredType? before)).2 = declaredType? (before ++ [t]) := by
  rw [declaredType?_append]
  unfold Token.plan Token.type?
  cases h : t.kind with
  | delimiter =>
    simp only [reduceCtorEq, if_false, Option.none_or]
    split
    · rfl
    · split <;> rfl
  | keyword => simp
  | identifier => simp
  | _ => simp

/-! ## Building the table from the tokens -/

/-- The fault of an operation that failed. -/
def faultOf {α : Type} : Except Fault α → Option Fault
  | .error fault => some fault
  | .ok _ => none

namespace SymbolTable

/-- What the token `t` behind the tokens `before` does to the table, and the fault
if that fails. -/
def obey (table : SymbolTable) (before : List Token) (t : Token) : SymbolTable × Option Fault :=
  if t.kind = .delimiter ∧ t.lexeme = "\x7b" then (table.enter, none)
  else if t.kind = .delimiter ∧ t.lexeme = "\x7d" then (table.exit.1, faultOf table.exit.2)
  else if t.kind = .identifier then
    match declaredType? before with
    | none => (table, none)
    | some type =>
      let tag := if table.level = 1 then ScopeTag.global else ScopeTag.block
      let answer := table.register t.lexeme (.datatype type) tag
      (answer.1, faultOf answer.2)
  else (table, none)

/-- The table after the tokens behind `before`, and the faults on the way, each on
the line of its token. -/
def replay (table : SymbolTable) (before : List Token) :
    List Token → SymbolTable × List Diagnostic
  | [] => (table, [])
  | t :: tokens =>
    let (next, fault?) := table.obey before t
    let (last, reports) := next.replay (before ++ [t]) tokens
    (last, (fault?.map fun fault => .ofFault fault t.line none).toList ++ reports)

theorem forLevel_level (table : SymbolTable) :
    ScopeTag.forLevel table.level =
      if table.level = 1 then ScopeTag.global else ScopeTag.block := by
  have := table.one_le_level
  unfold ScopeTag.forLevel
  by_cases h : table.level = 1
  · rw [if_pos h, if_pos (by omega)]
  · rw [if_neg h, if_neg (by omega)]

theorem apply_exit (table : SymbolTable) :
    (table.apply .exit).1 = table.exit.1 ∧
      (table.apply .exit).2.fault? = faultOf table.exit.2 := by
  unfold apply
  rcases table.exit with ⟨u, fault | level⟩ <;> exact ⟨rfl, rfl⟩

theorem registered_eq (answer : SymbolTable × Except Fault Symbol) :
    (apply.registered answer).1 = answer.1 ∧
      (apply.registered answer).2.fault? = faultOf answer.2 := by
  rcases answer with ⟨u, fault | symbol⟩ <;> exact ⟨rfl, rfl⟩

theorem apply_declare (table : SymbolTable) (name : String) (type : Datatype) :
    table.apply (.declare name type) =
      apply.registered (table.register name (.datatype type) (.forLevel table.level)) := rfl

/-- One token asks for the change that it makes. -/
theorem obey_eq (table : SymbolTable) (before : List Token) (t : Token) :
    table.obey before t =
      match (t.plan (declaredType? before)).1 with
      | none => (table, none)
      | some change => ((table.apply change).1, (table.apply change).2.fault?) := by
  unfold obey Token.plan
  cases hk : t.kind with
  | delimiter =>
    simp only [true_and, reduceCtorEq, if_false, beq_iff_eq]
    by_cases ho : t.lexeme = "\x7b"
    · rw [if_pos ho, if_pos ho]; rfl
    rw [if_neg ho, if_neg ho]
    by_cases hc : t.lexeme = "\x7d"
    · rw [if_pos hc, if_pos hc]
      obtain ⟨h1, h2⟩ := table.apply_exit
      simp only [h1, h2]
    · rw [if_neg hc, if_neg hc]
  | identifier =>
    simp only [reduceCtorEq, false_and, if_false, if_true]
    cases declaredType? before with
    | none => rfl
    | some type =>
      obtain ⟨h1, h2⟩ := registered_eq
        (table.register t.lexeme (.datatype type) (.forLevel table.level))
      simp only [Option.map_some, apply_declare, h1, h2]
      rw [forLevel_level]
  | _ => simp

/-- A run over events is a replay of the tokens that are no comments. -/
theorem replay_eq (table : SymbolTable) (before : List Token) (events : List Event) :
    let changes := Event.changes (declaredType? before) events
    let tokens := (events.filterMap Event.token?).filter fun t => t.kind ≠ .comment
    (table.applyAll (changes.map Prod.snd)).1 = (table.replay before tokens).1 ∧
      table.refusals changes = (table.replay before tokens).2 := by
  -- The invariant is that what waits is what looking back finds. Stray characters and
  -- comments leave both sides of it alone.
  induction events generalizing table before with
  | nil => exact ⟨rfl, rfl⟩
  | cons e events ih =>
    cases e with
    | stray c line column => exact ih table before
    | token t =>
      by_cases hc : t.kind = .comment
      · have hp : t.plan (declaredType? before) = (none, declaredType? before) := by
          simp [Token.plan, hc]
        simp only [Event.changes, hp, List.filterMap_cons, Event.token?, List.filter_cons, hc]
        exact ih table before
      · obtain ⟨h1, h2⟩ := ih (table.obey before t).1 (before ++ [t])
        have hts : ((Event.token t :: events).filterMap Event.token?).filter
            (fun t => t.kind ≠ .comment) =
            t :: (events.filterMap Event.token?).filter fun t => t.kind ≠ .comment := by
          simp [Event.token?, hc]
        rw [hts]
        simp only [Event.changes, replay, plan_eq_declaredType?]
        rw [← h1, ← h2, obey_eq]
        cases (t.plan (declaredType? before)).1 with
        | none => exact ⟨rfl, rfl⟩
        | some change =>
          simp only [Option.toList_some, List.map_cons, List.map_nil, List.singleton_append,
            applyAll_cons, refusals_cons]
          exact ⟨trivial, rfl⟩

/-! ## Lines do not matter -/

theorem obey_congr {before before' : List Token} {t t' : Token}
    (hb : before.map Token.key = before'.map Token.key) (ht : t.key = t'.key)
    (table : SymbolTable) : table.obey before t = table.obey before' t' := by
  obtain ⟨hk, hl⟩ := Prod.mk.inj ht
  unfold obey
  rw [declaredType?_congr hb, hk, hl]

/-- Tokens with the same kinds and lexemes do the same to a table and have the
same faults. -/
theorem replay_congr {before before' tokens tokens' : List Token}
    (hb : before.map Token.key = before'.map Token.key)
    (ht : tokens.map Token.key = tokens'.map Token.key) (table : SymbolTable) :
    (table.replay before tokens).1 = (table.replay before' tokens').1 ∧
      (table.replay before tokens).2.map Diagnostic.wording =
        (table.replay before' tokens').2.map Diagnostic.wording := by
  induction tokens generalizing table before before' tokens' with
  | nil =>
    cases List.map_eq_nil_iff.mp ht.symm
    exact ⟨rfl, rfl⟩
  | cons t tokens ih =>
    cases tokens' with
    | nil => cases ht
    | cons t' tokens' =>
      obtain ⟨hh, htail⟩ := List.cons.inj ht
      have hb' : (before ++ [t]).map Token.key = (before' ++ [t']).map Token.key := by
        rw [List.map_append, List.map_append, hb, List.map_singleton, List.map_singleton, hh]
      have hobey := obey_congr hb hh table
      obtain ⟨h1, h2⟩ := ih hb' htail (table.obey before t).1
      simp only [replay, List.map_append]
      rw [← hobey, ← h1, ← h2]
      refine ⟨rfl, congrArg (· ++ _) ?_⟩
      cases (table.obey before t).2 <;> rfl

end SymbolTable

/-! ## The analysis of a text -/

/-- The tokens that the analysis found in the code, behind the `pushed` ones. -/
def Analysis.codeTokens (a : Analysis) (pushed : List Token) : List Token :=
  (a.tokens.toList.drop pushed.length).filter fun t => t.kind ≠ .comment

theorem Analysis.codeTokens_nil (a : Analysis) :
    a.codeTokens [] = a.tokens.toList.filter fun t => t.kind ≠ .comment := rfl

/-- The diagnostics without a column. -/
def Analysis.refusals (a : Analysis) : List Diagnostic :=
  a.diagnostics.toList.filter fun d => d.column.isNone

theorem codeTokens_analyzeWith (table : SymbolTable) (pushed : List Token) (source : String) :
    (analyzeWith table pushed source).codeTokens pushed =
      ((Event.ofSource source.toList).filterMap Event.token?).filter
        fun t => t.kind ≠ .comment := by
  unfold Analysis.codeTokens
  rw [tokens_analyzeWith, List.drop_left]

theorem replay_analyzeWith (table : SymbolTable) (pushed : List Token) (source : String) :
    let a := analyzeWith table pushed source
    a.table = (table.replay [] (a.codeTokens pushed)).1 ∧
      a.refusals = (table.replay [] (a.codeTokens pushed)).2 := by
  intro a
  have htokens := codeTokens_analyzeWith table pushed source
  obtain ⟨h1, h2⟩ := table.replay_eq [] (Event.ofSource source.toList)
  rw [htokens, ← h1, ← h2]
  exact ⟨table_analyzeWith table pushed source, refusals_analyzeWith table pushed source⟩

/-- The tokens of the code, in order, are all that table and refusals depend on:
both come out of replaying these tokens, and kinds and lexemes settle the table
and the wording of the refusals. -/
theorem tokens_determine_table (table : SymbolTable) (pushed : List Token) (source : String) :
    let a := analyzeWith table pushed source
    (a.table = (table.replay [] (a.codeTokens pushed)).1 ∧
      a.refusals = (table.replay [] (a.codeTokens pushed)).2) ∧
    ∀ (pushed' : List Token) (source' : String),
      let b := analyzeWith table pushed' source'
      (a.codeTokens pushed).map Token.key = (b.codeTokens pushed').map Token.key →
        a.table = b.table ∧
          a.refusals.map Diagnostic.wording = b.refusals.map Diagnostic.wording := by
  intro a
  obtain ⟨ha, ha'⟩ := replay_analyzeWith table pushed source
  refine ⟨⟨ha, ha'⟩, fun pushed' source' => ?_⟩
  intro b heq
  obtain ⟨hb, hb'⟩ := replay_analyzeWith table pushed' source'
  rw [ha, ha', hb, hb']
  exact SymbolTable.replay_congr rfl heq table

/-- Line breaks, comments and stray characters between the same tokens change
nothing, also where a change is refused. -/
theorem tokens_over_lines :
    let one := analyzeWith (.empty 1000) [] "int a int a \x7d"
    let other := analyzeWith (.empty 1000) [] "int // \x7d\na @ int\n/* \x7d */\na \x7d"
    (one.codeTokens []).map Token.key = (other.codeTokens []).map Token.key ∧
      one.table = other.table ∧
        one.refusals.map Diagnostic.wording = other.refusals.map Diagnostic.wording := by
  have h : ((analyzeWith (.empty 1000) [] "int a int a \x7d").codeTokens []).map Token.key =
      ((analyzeWith (.empty 1000) [] "int // \x7d\na @ int\n/* \x7d */\na \x7d").codeTokens []).map
        Token.key := by
    rw [codeTokens_analyzeWith, codeTokens_analyzeWith]
    decide +kernel
  exact ⟨h, (tokens_determine_table _ _ _).2 _ _ h⟩

end ScopeLex
