import ScopeLex.Proofs.Analysis.Replay
import ScopeLex.Proofs.Symbol.Step

/-!
# The table has no influence on the scan

A run changes its table as it goes and gets answers from it, but what it scans and what
it asks for next do not depend on them. Above all a type stops waiting at the next
identifier, whether that is registered or refused.

* `Run.asked_eq`: what a run asks its table for is given by the events.
* `Run.answers_feedAll`: its log has the answers to that, in order.
* `table_without_influence`: all tables and all tokens pushed before.
-/
namespace ScopeLex

/-! ## Questions and answers -/

/-- The changes that a run asks its table for while events take effect, each with its
line. -/
def Run.asked (r : Run) : List Event → List (Nat × Change)
  | [] => []
  | .stray c line column :: events => (r.feed (.stray c line column)).asked events
  | .token t :: events =>
    (t.plan r.pending).1.toList.map (t.line, ·) ++ (r.take t).asked events

/-- The record of an answer from the table. -/
def Record.isAnswer : Record → Bool
  | .entered _ | .exited _ | .registered _ => true
  | .diagnostic d => d.column.isNone
  | .token _ | .scanned .. => false

theorem Record.isAnswer_ofOutcome (line : Nat) (outcome : Outcome) :
    (Record.ofOutcome line outcome).isAnswer = true := by
  cases outcome <;> rfl

/-- What the table has answered so far. -/
def Analysis.answers (a : Analysis) : List Record := a.log.toList.filter Record.isAnswer

namespace Analysis

variable (a : Analysis)

theorem answers_push (t : Token) : (a.push t).answers = a.answers := by
  simp [answers, push, Record.isAnswer]

/-- A stray character is reported without asking the table. -/
theorem answers_report_stray (c : Char) (line column : Nat) :
    (a.report (.ofFault (.strayCharacter c) line (some column))).answers = a.answers := by
  simp [answers, report, Record.isAnswer, Diagnostic.ofFault]

theorem answers_note (line : Nat) (outcome : Outcome) :
    (a.note line outcome).answers = a.answers ++ [.ofOutcome line outcome] := by
  simp [answers, log_note, Record.isAnswer_ofOutcome]

theorem answers_carry (line : Nat) (change : Change) :
    (a.carry line change).answers =
      a.answers ++ [.ofOutcome line (a.table.apply change).2] :=
  answers_note _ _ _

theorem answers_close : a.close.answers = a.answers := by
  simp [answers, close, Record.isAnswer]

end Analysis

/-- The records of the answers that a table gives to changes, each with its line. -/
def SymbolTable.records (t : SymbolTable) (asked : List (Nat × Change)) : List Record :=
  (asked.map Prod.fst).zipWith Record.ofOutcome (t.applyAll (asked.map Prod.snd)).2

theorem SymbolTable.records_cons (t : SymbolTable) (line : Nat) (change : Change)
    (asked : List (Nat × Change)) :
    t.records ((line, change) :: asked) =
      .ofOutcome line (t.apply change).2 :: (t.apply change).1.records asked := by
  simp [records, applyAll_cons]

/-! ## Runs -/

namespace Run

variable (r : Run)

/-- What is asked for depends on the type that waits, and on nothing else of the run. -/
theorem asked_eq (events : List Event) : r.asked events = Event.changes r.pending events := by
  induction events generalizing r with
  | nil => rfl
  | cons e events ih =>
    cases e with
    | stray c line column => exact ih _
    | token t =>
      -- What waits after a token comes from its plan, be the change carried out or refused.
      rw [asked, ih, Event.changes]
      rfl

/-- A run logs what its table answers. -/
theorem answers_feedAll (events : List Event) :
    (r.feedAll events).analysis.answers =
      r.analysis.answers ++ r.analysis.table.records (r.asked events) := by
  induction events generalizing r with
  | nil => exact (List.append_nil _).symm
  | cons e events ih =>
    rw [feedAll_cons, ih]
    cases e with
    | stray c line column =>
      rw [asked, feed, Analysis.answers_report_stray]
      rfl
    | token t =>
      rw [asked, feed, table_take]
      cases hc : (t.plan r.pending).1 with
      | none =>
        have htake : (r.take t).analysis = r.analysis.push t := by simp only [take, hc]
        rw [htake, Analysis.answers_push]
        rfl
      | some change =>
        have htake : (r.take t).analysis = (r.analysis.carry t.line change).push t := by
          simp only [take, hc]
        rw [htake, Analysis.answers_push, Analysis.answers_carry, List.append_assoc]
        simp [SymbolTable.records_cons, SymbolTable.applyAll_cons]

end Run

/-! ## The analysis of a text -/

/-- The diagnostics with a column. -/
def Analysis.strays (a : Analysis) : List Diagnostic :=
  a.diagnostics.toList.filter fun d => d.column.isSome

theorem Run.answers_begun (table : SymbolTable) (pushed : List Token) :
    (Run.begun table pushed).analysis.answers = [] := by
  have hpush : ∀ a : Analysis, (pushed.foldl Analysis.push a).answers = a.answers := by
    induction pushed with
    | nil => exact fun a => rfl
    | cons t pushed ih => exact fun a => (ih _).trans (a.answers_push t)
  exact hpush _

/-- The log of an analysis has the answers of its table, in order. -/
theorem answers_analyzeWith (table : SymbolTable) (pushed : List Token) (source : String) :
    (analyzeWith table pushed source).answers =
      table.records ((Run.begun table pushed).asked (Event.ofSource source.toList)) := by
  have h := Run.answers_feedAll (Run.begun table pushed) (Event.ofSource source.toList)
  rw [Run.answers_begun, Run.table_begun] at h
  exact (Analysis.answers_close _).trans h

/-- A text has the same tokens and stray characters, and makes a run ask for the same
changes, whatever table it begins with and whatever tokens are pushed before. The table
answers them one by one: its answers stand in the log, and its symbols come behind
those that it had. -/
theorem table_without_influence (source : String) :
    ∃ (tokens : List Token) (strays : List Diagnostic) (asked : List (Nat × Change)),
      ∀ (table : SymbolTable) (pushed : List Token),
        let run := Run.begun table pushed
        let a := analyzeWith table pushed source
        a.tokens.toList = pushed ++ tokens ∧
          a.strays = strays ∧
          (∀ d ∈ a.diagnostics.toList,
            d ∈ a.strays ↔ ∃ c, d.message = (Fault.strayCharacter c).message) ∧
          run.asked (Event.ofSource source.toList) = asked ∧
          a.answers = table.records asked ∧
          a.table = (table.applyAll (asked.map Prod.snd)).1 ∧
          table.history.toList <+: a.table.history.toList := by
  refine ⟨(Event.ofSource source.toList).filterMap Event.token?,
    (Event.ofSource source.toList).filterMap Event.strayReport?,
    Event.changes none (Event.ofSource source.toList), fun table pushed => ?_⟩
  intro run a
  have hasked : run.asked (Event.ofSource source.toList) =
      Event.changes none (Event.ofSource source.toList) := run.asked_eq _
  have htable := table_analyzeWith table pushed source
  refine ⟨tokens_analyzeWith table pushed source, strays_analyzeWith table pushed source,
    fun d hd => ?_, hasked, ?_, htable, ?_⟩
  · rw [← isSome_column_iff table pushed source hd, Analysis.strays, List.mem_filter]
    exact and_iff_right hd
  · rw [← hasked]
    exact answers_analyzeWith table pushed source
  · rw [htable, SymbolTable.history_applyAll]
    exact List.prefix_append _ _

end ScopeLex
