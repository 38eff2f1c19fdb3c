import ScopeLex.Proofs.Analysis.Error
import ScopeLex.Proofs.Analysis.Influence
import ScopeLex.Proofs.Analysis.Level
import ScopeLex.Proofs.Analysis.Replay

/-!
# The log of a run

Records are written where things happen: when a token is emitted, when a table answers,
when a diagnostic is collected. Each of these writes one record and adds as much to the
tokens, the diagnostics or the history, so that the log has all three in order. A table
answers before the token that asked is emitted, which is why the answer stands right in
front of that token.

* `Levels`: the levels that the log tells of follow each other.
* `Analysis.Recorded`, `recorded_analyzeWith`: the log agrees with what a run has produced.
* `Analysis.log_carryAll`: changes are recorded as what the table answers to them.
* `Caused`, `ScanLog`, `Run.scanLog_feedAll`: where records stand among those of the tokens.
* `Analysis.log_registerLiterals`: what is recorded when literals are registered.
* `log_records_run`: the log of a run from its start to its last record.
-/
namespace ScopeLex

open SymbolTable (Step)

/-! ## What a record tells of -/

namespace Record

def token? : Record → Option Token
  | .token t => some t
  | _ => none

def diagnostic? : Record → Option Diagnostic
  | .diagnostic d => some d
  | _ => none

def symbol? : Record → Option Symbol
  | .registered s => some s
  | _ => none

/-- The level that a block is opened to or closed to. -/
def level? : Record → Option Nat
  | .entered level | .exited level => some level
  | _ => none

/-- The record that closes the scan. -/
def isClosing : Record → Bool
  | .scanned .. => true
  | _ => false

/-- The diagnostic of a stray character. -/
def IsStray (r : Record) : Prop :=
  ∃ c line column, r = .diagnostic (.ofFault (.strayCharacter c) line (some column))

/-- A registration, or the warning that a name is taken. -/
inductive IsAttempt : Record → Prop
  | registered (s : Symbol) : IsAttempt (.registered s)
  | clash (name : String) (line : Nat) :
      IsAttempt (.diagnostic (.ofFault (.redeclared name) line none))

/-- The texts of some records are those of what they tell of. -/
theorem map_text_filter {α : Type} {kind : Record → Bool} {told? : Record → Option α}
    {write : α → String} (told : ∀ r x, told? r = some x → kind r = true ∧ r.text = write x)
    (other : ∀ r, told? r = none → kind r = false) (log : List Record) :
    (log.filter kind).map text = (log.filterMap told?).map write := by
  induction log with
  | nil => rfl
  | cons r log ih =>
    cases hr : told? r with
    | none => rw [List.filter_cons_of_neg (by simp [other r hr]), List.filterMap_cons_none hr, ih]
    | some x =>
      obtain ⟨hkind, htext⟩ := told r x hr
      rw [List.filter_cons_of_pos hkind, List.filterMap_cons_some hr, List.map_cons,
        List.map_cons, htext, ih]

/-- What is traced is the tokens. -/
theorem text_traces (log : List Record) :
    (log.filter fun r => r.verbosity = .trace).map text =
      (log.filterMap token?).map Token.describe := by
  refine map_text_filter (fun r x h => ?_) (fun r h => ?_) log
  · cases r <;> cases h
    exact ⟨rfl, rfl⟩
  · cases r <;> first | rfl | cases h

/-- What is warned of is the diagnostics. -/
theorem text_warnings (log : List Record) :
    (log.filter fun r => r.verbosity = .warn).map text =
      (log.filterMap diagnostic?).map Diagnostic.describe := by
  refine map_text_filter (fun r x h => ?_) (fun r h => ?_) log
  · cases r <;> cases h
    exact ⟨rfl, rfl⟩
  · cases r <;> first | rfl | cases h

/-- A registration is written with all that the report on a table does not show. -/
theorem text_registrations (log : List Record) :
    (log.filter fun r => r.verbosity = .debug && r.symbol?.isSome).map text =
      (log.filterMap symbol?).map fun s => "registered `" ++ s.name ++ "` as " ++
        s.category.name ++ " at level " ++ toString s.level ++ ", address " ++
        toString s.address := by
  refine map_text_filter (fun r x h => ?_) (fun r h => ?_) log
  · cases r <;> cases h
    exact ⟨rfl, rfl⟩
  · cases r <;> first | rfl | cases h

theorem token?_ofOutcome (line : Nat) (outcome : Outcome) :
    (ofOutcome line outcome).token? = none := by
  cases outcome <;> rfl

theorem diagnostic?_ofOutcome (line : Nat) (outcome : Outcome) :
    (ofOutcome line outcome).diagnostic? = outcome.report? line := by
  cases outcome <;> rfl

theorem symbol?_ofOutcome (line : Nat) (outcome : Outcome) :
    (ofOutcome line outcome).symbol? = outcome.symbol? := by
  cases outcome <;> rfl

end Record

/-! ## Levels -/

/-- From one level to another the texts tell of each level in between: a block is opened to
the next level, or closed to the one before, which is never below the first. -/
inductive Levels : Nat → List String → Nat → Prop
  | done (level : Nat) : Levels level [] level
  | entered {level last : Nat} {texts : List String} (rest : Levels (level + 1) texts last) :
      Levels level (("entered scope level " ++ toString (level + 1)) :: texts) last
  | exited {level last : Nat} {texts : List String} (first : 1 ≤ level)
      (rest : Levels level texts last) :
      Levels (level + 1) (("exited to scope level " ++ toString level) :: texts) last

theorem Levels.append {first level last : Nat} {texts later : List String}
    (h : Levels first texts level) (h' : Levels level later last) :
    Levels first (texts ++ later) last := by
  induction h with
  | done _ => exact h'
  | entered _ ih => exact .entered (ih h')
  | exited first _ ih => exact .exited first (ih h')

/-- What is written of the blocks that are opened and closed. -/
def scopeTexts (log : List Record) : List String :=
  (log.filter fun r => r.verbosity = .debug && r.level?.isSome).map Record.text

theorem scopeTexts_append (log later : List Record) :
    scopeTexts (log ++ later) = scopeTexts log ++ scopeTexts later := by
  rw [scopeTexts, List.filter_append, List.map_append]
  rfl

theorem scopeTexts_of_level?_eq_none {r : Record} (h : r.level? = none) : scopeTexts [r] = [] := by
  rw [scopeTexts, List.filter_cons_of_neg (by simp [h])]
  rfl

/-- The record of an answer tells of the level that the table has then. -/
theorem SymbolTable.Step.levels {t u : SymbolTable} {change : Change} {outcome : Outcome}
    (hs : Step t change outcome u) (line : Nat) :
    Levels t.level (scopeTexts [.ofOutcome line outcome]) u.level := by
  cases hs with
  | enter => exact .entered (.done _)
  | @exit inner outer opened =>
    have hlevel : t.level = outer.length + 1 + 1 := by
      rw [level, opened]
      rfl
    rw [hlevel]
    exact .exited (Nat.succ_le_succ (Nat.zero_le _)) (.done _)
  | exitGlobal _ =>
    rw [scopeTexts_of_level?_eq_none rfl]
    exact .done _
  | register _ _ =>
    rw [level_add, scopeTexts_of_level?_eq_none rfl]
    exact .done _
  | refuse _ _ =>
    rw [scopeTexts_of_level?_eq_none rfl]
    exact .done _

/-! ## The log and the lists -/

/-- The log has the tokens and the diagnostics of the run, each in order, and the symbols
that have come behind those of the table with which the run began; and it tells of the
levels from that of this table on. -/
structure Analysis.Recorded (begun : SymbolTable) (a : Analysis) : Prop where
  tokens : a.log.toList.filterMap Record.token? = a.tokens.toList
  diagnostics : a.log.toList.filterMap Record.diagnostic? = a.diagnostics.toList
  symbols : a.table.history.toList =
    begun.history.toList ++ a.log.toList.filterMap Record.symbol?
  levels : Levels begun.level (scopeTexts a.log.toList) a.table.level

namespace Analysis

variable {begun : SymbolTable} {a b : Analysis}

theorem recorded_start (begun : SymbolTable) : (start begun).Recorded begun :=
  ⟨rfl, rfl, (List.append_nil _).symm, .done _⟩

/-- One more record goes with as much in the lists as it tells of. -/
theorem Recorded.concat (h : a.Recorded begun) {r : Record} (log : b.log = a.log.push r)
    (tokens : b.tokens.toList = a.tokens.toList ++ r.token?.toList)
    (diagnostics : b.diagnostics.toList = a.diagnostics.toList ++ r.diagnostic?.toList)
    (symbols : b.table.history.toList = a.table.history.toList ++ r.symbol?.toList)
    (levels : Levels a.table.level (scopeTexts [r]) b.table.level) : b.Recorded begun := by
  have filterMap_push : ∀ {β : Type} (f : Record → Option β),
      b.log.toList.filterMap f = a.log.toList.filterMap f ++ (f r).toList := by
    intro β f
    rw [log, Array.toList_push, List.filterMap_append]
    cases hf : f r <;> simp [hf]
  constructor
  · rw [filterMap_push, h.tokens, tokens]
  · rw [filterMap_push, h.diagnostics, diagnostics]
  · rw [filterMap_push, symbols, h.symbols, List.append_assoc]
  · rw [log, Array.toList_push, scopeTexts_append]
    exact h.levels.append levels

/-- A record that tells of no symbol and no level leaves the table alone. -/
theorem Recorded.concat_other (h : a.Recorded begun) {r : Record} (log : b.log = a.log.push r)
    (tokens : b.tokens.toList = a.tokens.toList ++ r.token?.toList)
    (diagnostics : b.diagnostics.toList = a.diagnostics.toList ++ r.diagnostic?.toList)
    (table : b.table = a.table) (symbol : r.symbol? = none) (level : r.level? = none) :
    b.Recorded begun := by
  refine h.concat log tokens diagnostics ?_ ?_
  · rw [table, symbol]
    exact (List.append_nil _).symm
  · rw [table, scopeTexts_of_level?_eq_none level]
    exact .done _

theorem Recorded.push (h : a.Recorded begun) (t : Token) : (a.push t).Recorded begun :=
  h.concat_other rfl Array.toList_push (List.append_nil _).symm rfl rfl rfl

theorem Recorded.pushAll (h : a.Recorded begun) (pushed : List Token) :
    (pushed.foldl Analysis.push a).Recorded begun := by
  induction pushed generalizing a with
  | nil => exact h
  | cons t pushed ih => exact ih (h.push t)

theorem Recorded.report (h : a.Recorded begun) (d : Diagnostic) : (a.report d).Recorded begun :=
  h.concat_other rfl (List.append_nil _).symm (Diagnostics.toList_add _ _) rfl rfl rfl

theorem Recorded.carry (h : a.Recorded begun) (line : Nat) (change : Change) :
    (a.carry line change).Recorded begun := by
  have hs := a.table.step_apply change
  refine h.concat (a.log_carry line change) ?_ ?_ ?_ ?_
  · rw [tokens_carry, Record.token?_ofOutcome]
    exact (List.append_nil _).symm
  · rw [diagnostics_carry, Diagnostics.toList_note, Record.diagnostic?_ofOutcome]
  · rw [table_carry, hs.history_eq, Record.symbol?_ofOutcome]
  · rw [table_carry]
    exact hs.levels line

theorem log_close (a : Analysis) : a.close.log.toList =
    a.log.toList ++ [.scanned a.tokens.size a.table.history.size a.diagnostics.size] :=
  Array.toList_push

theorem Recorded.close (h : a.Recorded begun) : a.close.Recorded begun :=
  h.concat_other rfl (List.append_nil _).symm (List.append_nil _).symm rfl rfl rfl

theorem Recorded.carryAll (h : a.Recorded begun) (changes : List (Nat × Change)) :
    (a.carryAll changes).Recorded begun := by
  induction changes generalizing a with
  | nil => exact h
  | cons c changes ih => exact ih (h.carry c.1 c.2)

theorem Recorded.registerLiterals (h : a.Recorded begun) : a.registerLiterals.Recorded begun :=
  h.carryAll _

theorem Recorded.registerLiterals_iterate (h : a.Recorded begun) (times : Nat) :
    (Analysis.registerLiterals^[times] a).Recorded begun := by
  induction times with
  | zero => exact h
  | succ times ih =>
    rw [Function.iterate_succ_apply']
    exact ih.registerLiterals

end Analysis

namespace Run

variable {begun : SymbolTable} {r : Run}

/-- An event is recorded with what it adds to the lists. -/
theorem recorded_feed (h : r.analysis.Recorded begun) (e : Event) :
    (r.feed e).analysis.Recorded begun := by
  cases e with
  | stray c line column => exact h.report _
  | token t =>
    rw [feed, analysis_take]
    exact (h.carryAll _).push t

/-- So are all events of a run. -/
theorem recorded_feedAll (h : r.analysis.Recorded begun) (events : List Event) :
    (r.feedAll events).analysis.Recorded begun := by
  induction events generalizing r with
  | nil => exact h
  | cons e events ih => exact ih (recorded_feed h e)

/-- Tokens that are pushed are recorded too. -/
theorem recorded_begun (table : SymbolTable) (pushed : List Token) :
    (Run.begun table pushed).analysis.Recorded table :=
  (Analysis.recorded_start table).pushAll pushed

end Run

theorem recorded_analyzeWith (table : SymbolTable) (pushed : List Token) (source : String) :
    (analyzeWith table pushed source).Recorded table := by
  rw [analyzeWith_eq]
  exact (Run.recorded_feedAll (Run.recorded_begun table pushed) _).close

/-! ## Where records stand -/

/-- What a token behind the tokens `before` has recorded in front of its own record. -/
inductive Caused (before : List Token) (t : Token) : List Record → Prop
  | opened (brace : t.opensBlock = true) (level : Nat) : Caused before t [.entered level]
  | closed (brace : t.closesBlock = true) (level : Nat) : Caused before t [.exited level]
  | unmatched (brace : t.closesBlock = true) : Caused before t [.diagnostic t.closeWarning]
  | declared {type : Datatype} {s : Symbol} (kind : t.kind = .identifier)
      (waits : declaredType? before = some type) (name : s.name = t.lexeme)
      (category : s.category = .datatype type) : Caused before t [.registered s]
  | redeclared {type : Datatype} (kind : t.kind = .identifier)
      (waits : declaredType? before = some type) :
      Caused before t [.diagnostic (.ofFault (.redeclared t.lexeme) t.line none)]
  /-- The token is no brace and declares nothing. -/
  | nothing (opens : t.opensBlock = false) (closes : t.closesBlock = false)
      (declares : t.kind = .identifier → declaredType? before = none) : Caused before t []

/-- The log of a scan that finds `tokens` behind the tokens `before`: for each token the
stray characters in front of it, what the token has caused, and the token itself, and in
the end the stray characters behind the last one. -/
inductive ScanLog : List Token → List Token → List Record → Prop
  | done {before : List Token} {strays : List Record} (strays_only : ∀ r ∈ strays, r.IsStray) :
      ScanLog before [] strays
  | token {before tokens : List Token} {t : Token} {strays caused log : List Record}
      (strays_only : ∀ r ∈ strays, r.IsStray) (causes : Caused before t caused)
      (rest : ScanLog (before ++ [t]) tokens log) :
      ScanLog before (t :: tokens) (strays ++ caused ++ .token t :: log)

theorem ScanLog.cons_stray {before tokens : List Token} {r : Record} {log : List Record}
    (h : ScanLog before tokens log) (hr : r.IsStray) : ScanLog before tokens (r :: log) := by
  cases h with
  | done strays_only => exact .done (List.forall_mem_cons.mpr ⟨hr, strays_only⟩)
  | token strays_only causes rest =>
    exact .token (List.forall_mem_cons.mpr ⟨hr, strays_only⟩) causes rest

theorem Record.IsStray.not_isClosing {r : Record} (h : r.IsStray) : r.isClosing = false := by
  obtain ⟨c, line, column, rfl⟩ := h
  rfl

theorem Record.IsAttempt.not_isClosing {r : Record} (h : r.IsAttempt) : r.isClosing = false := by
  cases h <;> rfl

theorem Caused.not_isClosing {before : List Token} {t : Token} {caused : List Record}
    (h : Caused before t caused) : ∀ r ∈ caused, r.isClosing = false := by
  cases h <;> simp [Record.isClosing]

/-- While a scan goes on no record closes it. -/
theorem ScanLog.not_isClosing {before tokens : List Token} {log : List Record}
    (h : ScanLog before tokens log) : ∀ r ∈ log, r.isClosing = false := by
  induction h with
  | done strays_only => exact fun r hr => (strays_only r hr).not_isClosing
  | token strays_only causes _ ih =>
    simp only [List.forall_mem_append, List.forall_mem_cons]
    exact ⟨⟨fun r hr => (strays_only r hr).not_isClosing, causes.not_isClosing⟩, rfl, ih⟩

/-- Changes are recorded as what the table answers to them. -/
theorem Analysis.log_carryAll (a : Analysis) (changes : List (Nat × Change)) :
    (a.carryAll changes).log.toList = a.log.toList ++ a.table.records changes := by
  induction changes generalizing a with
  | nil => exact (List.append_nil _).symm
  | cons c changes ih =>
    have h := ih (a.carry c.1 c.2)
    rw [log_carry, table_carry, Array.toList_push, List.append_assoc] at h
    rw [SymbolTable.records_cons]
    exact h

/-- An identifier that is declared is registered, unless the name is taken. -/
theorem SymbolTable.answer_declare (table : SymbolTable) {name : String}
    (h : isIdentifier name = true) (type : Datatype) :
    (∃ s : Symbol, (table.apply (.declare name type)).2 = .registered s ∧ s.name = name ∧
      s.category = .datatype type) ∨
    (table.apply (.declare name type)).2 = .refused (.redeclared name) := by
  have hs := table.step_apply (.declare name type)
  generalize (table.apply (.declare name type)).1 = u at hs
  generalize (table.apply (.declare name type)).2 = outcome at hs
  cases hs with
  | register asks _ =>
    cases asks
    exact Or.inl ⟨_, rfl, rfl, rfl⟩
  | refuse asks taken =>
    cases asks
    unfold refusal? at taken
    split at taken
    · cases taken
      exact Or.inr rfl
    · simp [h] at taken

namespace Run

variable {r : Run} {before : List Token}

/-- What the table answers to a token. -/
def caused (r : Run) (t : Token) : List Record :=
  r.analysis.table.records ((t.plan r.pending).1.toList.map (t.line, ·))

theorem caused_of_plan {t : Token} {change : Change} (h : (t.plan r.pending).1 = some change) :
    r.caused t = [.ofOutcome t.line (r.analysis.table.apply change).2] := by
  rw [caused, h]
  rfl

theorem log_take (r : Run) (t : Token) : (r.take t).analysis.log.toList =
    r.analysis.log.toList ++ (r.caused t ++ [.token t]) := by
  rw [analysis_take, Analysis.push, Array.toList_push, Analysis.log_carryAll, List.append_assoc]
  rfl

theorem caused_of_closesBlock {t : Token} (h : t.closesBlock = true) :
    Caused before t (r.caused t) := by
  rw [caused_of_plan (congrArg Prod.fst (Token.plan_of_closesBlock h _))]
  have hs := r.analysis.table.step_apply .exit
  generalize (r.analysis.table.apply .exit).1 = u at hs
  generalize (r.analysis.table.apply .exit).2 = outcome at hs
  cases hs with
  | exit _ => exact .closed h _
  | exitGlobal _ => exact .unmatched h
  | register asks _ => cases asks
  | refuse asks _ => cases asks

theorem caused_of_declares {t : Token} {type : Datatype} (hp : r.pending = some type)
    (hwaits : declaredType? before = some type) (hk : t.kind = .identifier)
    (hname : isIdentifier t.lexeme = true) : Caused before t (r.caused t) := by
  have hplan : (t.plan r.pending).1 = some (.declare t.lexeme type) := by
    rw [Token.plan, hk, hp]
    rfl
  rw [caused_of_plan hplan]
  obtain ⟨s, hs, hsname, hcategory⟩ | hs := r.analysis.table.answer_declare hname type
  · rw [hs]
    exact .declared hk hwaits hsname hcategory
  · rw [hs]
    exact .redeclared hk hwaits

/-- Braces and declared identifiers have one thing recorded, other tokens nothing. -/
theorem caused_take (hp : r.pending = declaredType? before) {t : Token}
    (hname : t.kind = .identifier → isIdentifier t.lexeme = true) :
    Caused before t (r.caused t) := by
  obtain ⟨ho, -⟩ | ⟨-, hc⟩ | ⟨ho, hc⟩ := t.brace_cases
  · rw [caused_of_plan (congrArg Prod.fst (Token.plan_of_opensBlock ho _))]
    exact .opened ho _
  · exact caused_of_closesBlock hc
  · cases hplan : (t.plan r.pending).1 with
    | none =>
      have hnothing : r.caused t = [] := by
        rw [caused, hplan]
        rfl
      rw [hnothing]
      refine .nothing ho hc fun hk => ?_
      rw [← hp]
      rw [Token.plan, hk] at hplan
      exact Option.map_eq_none_iff.mp hplan
    | some change =>
      obtain ⟨name, type, rfl⟩ := Token.plan_of_no_brace ho hc hplan
      have hasks : (Change.declare name type).request? r.analysis.table.level =
          some (name, .datatype type, .forLevel r.analysis.table.level) := rfl
      have hk := (t.identifier_of_plan hplan hasks).1
      rw [Token.plan, hk] at hplan
      obtain ⟨waiting, hwaiting, -⟩ := Option.map_eq_some_iff.mp hplan
      exact caused_of_declares hwaiting (hp.symm.trans hwaiting) hk (hname hk)

/-- A run appends the log of its scan. -/
theorem scanLog_feedAll {events : List Event} (hp : r.pending = declaredType? before)
    (hname : ∀ t, .token t ∈ events → t.kind = .identifier → isIdentifier t.lexeme = true) :
    ∃ log, (r.feedAll events).analysis.log.toList = r.analysis.log.toList ++ log ∧
      ScanLog before (events.filterMap Event.token?) log := by
  -- What carries the induction is that the type that waits is what looking back finds, so
  -- that a token is known to declare something by the tokens before it.
  induction events generalizing r before with
  | nil => exact ⟨[], (List.append_nil _).symm, .done nofun⟩
  | cons e events ih =>
    have hrest := fun t ht => hname t (List.mem_cons_of_mem e ht)
    cases e with
    | stray c line column =>
      obtain ⟨log, hlog, hscan⟩ := ih (r := r.feed (.stray c line column)) hp hrest
      refine ⟨.diagnostic (.ofFault (.strayCharacter c) line (some column)) :: log, ?_,
        hscan.cons_stray ⟨c, line, column, rfl⟩⟩
      rw [feedAll_cons, hlog]
      simp [feed, Analysis.report]
    | token t =>
      have hpending : (r.take t).pending = declaredType? (before ++ [t]) := by
        rw [← plan_eq_declaredType?, ← hp]
        rfl
      obtain ⟨log, hlog, hscan⟩ := ih hpending hrest
      refine ⟨[] ++ r.caused t ++ .token t :: log, ?_,
        .token nofun (caused_take hp (hname t List.mem_cons_self)) hscan⟩
      rw [feedAll_cons, feed, hlog, log_take]
      simp

end Run

/-! ## Registering literals -/

/-- A table answers to a literal with a registration, or that its name is taken. -/
theorem SymbolTable.isAttempt_of_mem_records {literals : List Literal}
    (hl : ∀ l ∈ literals, l.category.isVariable = false) (t : SymbolTable) :
    ∀ r ∈ t.records (literals.map fun l => (l.line, l.change)), r.IsAttempt := by
  induction literals generalizing t with
  | nil => nofun
  | cons l literals ih =>
    obtain ⟨hhead, htail⟩ := List.forall_mem_cons.mp hl
    rw [List.map_cons, records_cons]
    refine List.forall_mem_cons.mpr ⟨?_, ih htail _⟩
    rw [apply_literal _ hhead]
    split
    · exact .registered _
    · exact .clash _ _

namespace Analysis

/-- The registration of literals is recorded as what it comes to. -/
theorem log_registerLiterals (a : Analysis) :
    ∃ later, a.registerLiterals.log.toList = a.log.toList ++ later ∧
      ∀ r ∈ later, r.IsAttempt := by
  refine ⟨_, a.log_carryAll _, SymbolTable.isAttempt_of_mem_records (fun l hl => ?_) _⟩
  rw [Literal.ofTokens_eq_firstSeen] at hl
  exact Literal.isVariable_of_mem_firstSeen hl

/-- So is every further one. -/
theorem log_registerLiterals_iterate (a : Analysis) (times : Nat) :
    ∃ later, (registerLiterals^[times] a).log.toList = a.log.toList ++ later ∧
      ∀ r ∈ later, r.IsAttempt := by
  induction times with
  | zero => exact ⟨[], (List.append_nil _).symm, nofun⟩
  | succ times ih =>
    obtain ⟨later, hlog, hlater⟩ := ih
    obtain ⟨last, hlast, hattempts⟩ := (registerLiterals^[times] a).log_registerLiterals
    refine ⟨later ++ last, ?_, List.forall_mem_append.mpr ⟨hlater, hattempts⟩⟩
    rw [Function.iterate_succ_apply', hlast, hlog, List.append_assoc]

end Analysis

/-! ## The analysis of a text -/

/-- An analysis records its scan, and then closes it. -/
theorem scanLog_analyzeWith (table : SymbolTable) (source : String) :
    let scan := analyzeWith table [] source
    ∃ scanned, scan.log.toList = scanned ++
        [.scanned scan.tokens.size scan.table.history.size scan.diagnostics.size] ∧
      ScanLog [] scan.tokens.toList scanned := by
  obtain ⟨scanned, hscanned, hlog⟩ :=
    Run.scanLog_feedAll (show (Run.begun table []).pending = declaredType? [] from rfl)
      fun t ht hk => (Event.identifier_of_mem_ofSource ht hk).1
  refine ⟨scanned, ?_, ?_⟩
  · have hnone : (Run.begun table []).analysis.log.toList = [] := rfl
    rw [analyzeWith_eq, Analysis.log_close, hscanned, hnone, List.nil_append]
    rfl
  · rwa [tokens_analyzeWith, List.nil_append]

/-- The log of a run that begins with an empty table, behind which literals may be
registered. What is traced is the tokens in the order in which they are emitted, what is
warned of is the diagnostics in order, and the registrations are the history, written with
categories, levels and addresses. Scope changes tell of the levels, from the first to that
of the table. While the text is scanned a brace or a declared identifier has what comes of
it recorded directly in front of its own record, and apart from that only stray characters
are recorded between tokens. One record closes the scan, with the numbers of tokens,
symbols and diagnostics found so far, and behind it there are only registrations and
warnings about names that are taken. -/
theorem log_records_run (base : Nat) (source : String) (times : Nat) :
    let scan := analyzeWith (.empty base) [] source
    let a := Analysis.registerLiterals^[times] scan
    let log := a.log.toList
    let closing := Record.scanned scan.tokens.size scan.table.history.size scan.diagnostics.size
    (log.filter fun r => r.verbosity = .trace).map Record.text =
        a.tokens.toList.map Token.describe ∧
      (log.filter fun r => r.verbosity = .warn).map Record.text =
        a.diagnostics.toList.map Diagnostic.describe ∧
      log.filterMap Record.symbol? = a.table.history.toList ∧
      ((log.filter fun r => r.verbosity = .debug && r.symbol?.isSome).map Record.text =
        a.table.history.toList.map fun s => "registered `" ++ s.name ++ "` as " ++
          s.category.name ++ " at level " ++ toString s.level ++ ", address " ++
          toString s.address) ∧
      Levels 1 (scopeTexts log) a.table.level ∧
      log.filter Record.isClosing = [closing] ∧ closing.verbosity = .debug ∧
      closing.text = "tokenized " ++ toString scan.tokens.size ++ " tokens, " ++
        toString scan.table.history.size ++ " symbols, " ++
        toString scan.diagnostics.size ++ " diagnostics" ∧
      ∃ scanned later, log = scanned ++ closing :: later ∧
        ScanLog [] scan.tokens.toList scanned ∧ ∀ r ∈ later, r.IsAttempt := by
  intro scan a log closing
  have ha : a.Recorded (.empty base) :=
    (recorded_analyzeWith (.empty base) [] source).registerLiterals_iterate times
  have hsymbols : log.filterMap Record.symbol? = a.table.history.toList := ha.symbols.symm
  obtain ⟨later, hlog, hlater⟩ := scan.log_registerLiterals_iterate times
  obtain ⟨scanned, hscanned, hscan⟩ := scanLog_analyzeWith (.empty base) source
  have hsplit : log = scanned ++ closing :: later := by
    rw [show log = _ from hlog, show scan.log.toList = _ from hscanned, List.append_assoc,
      List.singleton_append]
  have hclosing : log.filter Record.isClosing = [closing] := by
    have hbefore : scanned.filter Record.isClosing = [] :=
      List.filter_eq_nil_iff.mpr fun r hr => by simp [hscan.not_isClosing r hr]
    have hbehind : later.filter Record.isClosing = [] :=
      List.filter_eq_nil_iff.mpr fun r hr => by simp [(hlater r hr).not_isClosing]
    rw [hsplit, List.filter_append, hbefore, List.nil_append, List.filter_cons_of_pos rfl, hbehind]
  refine ⟨?_, ?_, hsymbols, ?_, ha.levels, hclosing, rfl, rfl, scanned, later, hsplit, hscan,
    hlater⟩
  · rw [Record.text_traces, ha.tokens]
  · rw [Record.text_warnings, ha.diagnostics]
  · rw [Record.text_registrations, hsymbols]

end ScopeLex
