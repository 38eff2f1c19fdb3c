import ScopeLex.Analysis.Basic
import ScopeLex.Event

/-!
# Analysing a text

The events of a text drive the table. A type keyword waits for the next
identifier, over whatever stands between, and declares it; braces open and
close blocks. A token takes effect before it is emitted.

* `Run.analysis_take`: a token has its change carried out and is then emitted.
* `Run.table_feedAll`: the table after a run is the changes that the tokens
  ask for, applied in order.
* `Run.tokens_feedAll`: a run emits the tokens of its events.
-/
namespace ScopeLex

/-- What a token asks the table for while `pending` waits for a name, and what
waits after it. -/
def Token.plan (pending : Option Datatype) (t : Token) : Option Change × Option Datatype :=
  match t.kind with
  | .delimiter =>
    if t.lexeme == "\x7b" then (some .enter, pending)
    else if t.lexeme == "\x7d" then (some .exit, pending)
    else (none, pending)
  | .keyword => (none, (Datatype.ofName? t.lexeme).or pending)
  | .identifier => (pending.map (.declare t.lexeme), none)
  | _ => (none, pending)

/-- A run in progress: what it has produced, and the type that waits for the
name it declares. -/
structure Run where
  analysis : Analysis
  pending : Option Datatype

namespace Run

/-- A run that begins with `table` and nothing waiting. -/
def start (table : SymbolTable) : Run := ⟨.start table, none⟩

/-- Take a token: its change first, then the token itself. -/
def take (r : Run) (t : Token) : Run :=
  let (change, pending) := t.plan r.pending
  let changed := match change with
    | some change => r.analysis.carry t.line change
    | none => r.analysis
  ⟨changed.push t, pending⟩

/-- Let an event take effect. -/
def feed (r : Run) : Event → Run
  | .token t => r.take t
  | .stray c line column =>
    { r with analysis := r.analysis.report (.ofFault (.strayCharacter c) line (some column)) }

/-- Let events take effect in order. -/
def feedAll (r : Run) (events : List Event) : Run := events.foldl feed r

end Run

/-- The changes that events ask for, each with its line; `pending` waits for a
name. -/
def Event.changes (pending : Option Datatype) : List Event → List (Nat × Change)
  | [] => []
  | .stray .. :: events => changes pending events
  | .token t :: events =>
    let (change, pending) := t.plan pending
    (change.toList.map (t.line, ·)) ++ changes pending events

/-! ## The analysis of a text -/

/-- Analyse `source`, beginning with `table`; the tokens `pushed` are emitted
first. -/
def analyzeWith (table : SymbolTable) (pushed : List Token) (source : String) : Analysis :=
  let begun : Run := ⟨pushed.foldl Analysis.push (.start table), none⟩
  (begun.feedAll (Event.ofSource source.toList)).analysis.close

/-- Analyse `source`, beginning with an empty table. -/
def analyze (source : String) : Analysis :=
  analyzeWith (.empty SymbolTable.defaultBaseAddress) [] source

/-! ## Laws -/

theorem Run.analysis_take (r : Run) (t : Token) :
    (r.take t).analysis =
      (r.analysis.carryAll ((t.plan r.pending).1.toList.map (t.line, ·))).push t := by
  simp only [take]
  cases (t.plan r.pending).1 <;> rfl

@[simp] theorem Run.table_take (r : Run) (t : Token) :
    (r.take t).analysis.table =
      (r.analysis.table.applyAll (t.plan r.pending).1.toList).1 := by
  have hid : Prod.snd ∘ (fun change : Change => (t.line, change)) = id := rfl
  rw [analysis_take, Analysis.push, Analysis.table_carryAll, List.map_map, hid, List.map_id]

theorem Run.table_feedAll (r : Run) (events : List Event) :
    (r.feedAll events).analysis.table =
      (r.analysis.table.applyAll ((Event.changes r.pending events).map Prod.snd)).1 := by
  induction events generalizing r with
  | nil => rfl
  | cons event events ih =>
    cases event with
    | stray c line column => exact ih (r.feed (.stray c line column))
    | token t =>
      have h := ih (r.take t)
      rw [Run.table_take] at h
      rw [Event.changes, List.map_append, SymbolTable.applyAll_append]
      simpa [Run.feedAll, Run.feed, Run.take, Function.comp_def] using h

/-- The tokens of events. -/
def Event.token? : Event → Option Token
  | .token t => some t
  | .stray .. => none

@[simp] theorem Run.tokens_take (r : Run) (t : Token) :
    (r.take t).analysis.tokens = r.analysis.tokens.push t := by
  rw [analysis_take, Analysis.push, Analysis.tokens_carryAll]

/-- A run emits the tokens of its events, in order. -/
theorem Run.tokens_feedAll (r : Run) (events : List Event) :
    (r.feedAll events).analysis.tokens.toList =
      r.analysis.tokens.toList ++ events.filterMap Event.token? := by
  induction events generalizing r with
  | nil => simp [Run.feedAll]
  | cons event events ih =>
    have h := ih (r.feed event)
    cases event with
    | token t =>
      have ht : (Event.token t :: events).filterMap Event.token? =
          t :: events.filterMap Event.token? := rfl
      simpa [ht, Run.feedAll, Run.feed] using h
    | stray c line column => exact h

end ScopeLex
