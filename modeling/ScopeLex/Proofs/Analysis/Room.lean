import ScopeLex.Proofs.Analysis.Scan
import ScopeLex.Proofs.Symbol.Literal
import ScopeLex.Proofs.Symbol.Step

/-!
# How many symbols come of a text

A run registers names for identifiers, and literals are found among the other tokens. A run
therefore has no more symbols than tokens, also when its literals are registered. A token
of the scan takes a character at least and a block comment takes four, so that the length
of a text says how many addresses are enough for it.

* `Scanned.length_le`: how many comments there can be.
* `length_tokens_analyzeWith_le`: how many tokens.
* `Run.size_history_feedAll`: a run adds no more symbols than there are identifiers.
* `length_firstSeen_le`: no more literals than there are other tokens.
-/
namespace ScopeLex

open Text (lines consLine)

/-! ## Characters and tokens -/

/-- Comments do not overlap and have four characters at least. -/
theorem Scanned.length_le {text : List Char} {p : Nat} {spans : List (Nat × Nat)}
    (h : Scanned text p spans) (hp : p ≤ text.length) :
    p + 4 * spans.length ≤ text.length := by
  induction h with
  | done _ => exact hp
  | @found p i e spans le here _ _ ih =>
    have hlong := here.long
    have hrest := ih here.le_length
    rw [List.length_cons]
    omega

theorem BlockComment.length_all_le (text : List Char) : 4 * (all text).length ≤ text.length := by
  obtain ⟨spans, hs, hall⟩ := all_eq_map_ofSpan text
  have := hs.length_le (Nat.zero_le _)
  rw [hall, List.length_map]
  omega

/-- The lines are the text without its newlines. -/
theorem Text.flatten_lines (text : List Char) : (lines text).flatten = text.filter (· ≠ '\n') := by
  induction text with
  | nil => rfl
  | cons c text ih =>
    rw [lines_cons, consLine]
    split
    · rename_i hc
      rw [List.flatten_cons, List.nil_append, ih, hc]
      rfl
    · rename_i hc
      rw [List.filter_cons_of_pos (by simpa using hc), ← ih]
      cases lines text <;> rfl

namespace Event

/-- A line has no more tokens than characters. -/
theorem length_tokens_ofLine_le (k : Nat) (line : List Char) :
    ((ofLine k line).filterMap token?).length ≤ line.length := by
  have hcomment : (lineCommentToken k (splitMarker line).2).length ≤
      (splitMarker line).2.length := by
    unfold lineCommentToken
    split
    · exact Nat.zero_le _
    · rename_i hne
      exact List.length_pos_iff.mpr hne
  have hcode : ((codeSegments line).filterMap (Piece.token? k)).length ≤
      (splitMarker line).1.length :=
    Nat.le_trans (List.length_filterMap_le _ _) (segmented_codeSegments line).length_le
  calc ((ofLine k line).filterMap token?).length
      = (lineCommentToken k (splitMarker line).2).length +
          ((codeSegments line).filterMap (Piece.token? k)).length := by
        rw [tokens_ofLine, List.length_append]
        rfl
    _ ≤ (splitMarker line).2.length + (splitMarker line).1.length :=
        Nat.add_le_add hcomment hcode
    _ = line.length := by
        rw [Nat.add_comm, ← List.length_append, splitMarker_append]

theorem length_tokens_ofLineUnless_le (ranges : List (Nat × Nat)) (numbered : List Char × Nat) :
    ((ofLineUnless ranges numbered).filterMap token?).length ≤ numbered.1.length := by
  unfold ofLineUnless
  split
  · exact Nat.zero_le _
  · exact length_tokens_ofLine_le _ _

theorem length_tokens_ofLines_le (ranges : List (Nat × Nat)) (source : List Char) :
    ((ofLines ranges source).filterMap token?).length ≤ source.length := by
  have hlines : ∀ (parts : List (List Char)) (k : Nat),
      (((parts.zipIdx k).flatMap (ofLineUnless ranges)).filterMap token?).length ≤
        parts.flatten.length := by
    intro parts
    induction parts with
    | nil => exact fun _ => Nat.le_refl 0
    | cons line parts ih =>
      intro k
      rw [List.zipIdx_cons, List.flatMap_cons, List.filterMap_append, List.length_append,
        List.flatten_cons, List.length_append]
      exact Nat.add_le_add (length_tokens_ofLineUnless_le ranges (line, k)) (ih (k + 1))
  calc ((ofLines ranges source).filterMap token?).length
      ≤ (lines source).flatten.length := hlines (lines source) 1
    _ ≤ source.length := by
        rw [Text.flatten_lines]
        exact List.length_filter_le _ _

end Event

/-- The scan finds no more tokens than the text has characters, and there is one block
comment to four characters at most. -/
theorem length_tokens_analyzeWith_le (table : SymbolTable) (source : String) :
    (analyzeWith table [] source).tokens.toList.length ≤ source.length + source.length / 4 := by
  have hcomments := BlockComment.length_all_le source.toList
  have hscan := Event.length_tokens_ofLines_le
    ((BlockComment.all source.toList).map BlockComment.lineRange) source.toList
  rw [← Event.ofOpenLines_eq] at hscan
  rw [tokens_eq_append, List.nil_append, List.length_append, List.length_map,
    ← String.length_toList]
  omega

/-! ## Tokens and symbols -/

/-- A token that asks for a registration is an identifier, and asks for its lexeme. -/
theorem Token.identifier_of_plan {pending : Option Datatype} {change : Change} (t : Token)
    (h : (t.plan pending).1 = some change) {level : Nat} {name : String} {category : Category}
    {scope : ScopeTag} (hr : change.request? level = some (name, category, scope)) :
    t.kind = .identifier ∧ t.lexeme = name := by
  unfold Token.plan at h
  cases hk : t.kind <;> rw [hk] at h
  case delimiter =>
    dsimp only at h
    split at h
    · cases h; cases hr
    · split at h
      · cases h; cases hr
      · cases h
  case identifier =>
    obtain ⟨type, -, rfl⟩ := Option.map_eq_some_iff.mp h
    cases hr
    exact ⟨rfl, rfl⟩
  all_goals cases h

/-- How many of the tokens are identifiers. -/
def identifiers (tokens : List Token) : Nat := tokens.countP fun t => t.kind = .identifier

theorem identifiers_append (first second : List Token) :
    identifiers (first ++ second) = identifiers first + identifiers second :=
  List.countP_append

/-- A change adds a symbol at most, and only if it asks for a registration. -/
theorem SymbolTable.Step.size_history {t u : SymbolTable} {change : Change} {outcome : Outcome}
    (hs : Step t change outcome u) :
    u.history.size ≤
      t.history.size + if (change.request? t.level).isSome then 1 else 0 := by
  cases hs with
  | register asks _ => rw [asks, history_add, Array.size_push]; exact Nat.le_refl _
  | _ => exact Nat.le_add_right _ _

namespace Run

/-- An event adds a symbol at most, and only if it is an identifier. -/
theorem size_history_feed (r : Run) (e : Event) :
    (r.feed e).analysis.table.history.size ≤
      r.analysis.table.history.size + identifiers ([e].filterMap Event.token?) := by
  cases e with
  | stray c line column => exact Nat.le_refl _
  | token t =>
    rw [feed, table_take]
    cases hplan : (t.plan r.pending).1 with
    | none => exact Nat.le_add_right _ _
    | some change =>
      refine Nat.le_trans (r.analysis.table.step_apply change).size_history
        (Nat.add_le_add_left ?_ _)
      cases hasks : change.request? r.analysis.table.level with
      | none => exact Nat.zero_le _
      | some request =>
        obtain ⟨name, category, scope⟩ := request
        obtain ⟨hkind, -⟩ := t.identifier_of_plan hplan hasks
        simp [identifiers, Event.token?, hkind]

/-- A run adds no more symbols than there are identifiers. -/
theorem size_history_feedAll (r : Run) (events : List Event) :
    (r.feedAll events).analysis.table.history.size ≤
      r.analysis.table.history.size + identifiers (events.filterMap Event.token?) := by
  induction events generalizing r with
  | nil => exact Nat.le_refl _
  | cons e events ih =>
    have hstep := r.size_history_feed e
    have hrun := ih (r.feed e)
    rw [feedAll_cons, ← List.singleton_append, List.filterMap_append, identifiers_append]
    omega

end Run

/-- An analysis that begins with an empty table has no more symbols than identifiers. -/
theorem size_history_analyzeWith_le (base : Nat) (source : String) :
    let a := analyzeWith (.empty base) [] source
    a.table.history.size ≤ identifiers a.tokens.toList := by
  intro a
  have hrun := (Run.begun (.empty base) []).size_history_feedAll (Event.ofSource source.toList)
  rw [Run.table_begun, ← table_eq_feedAll] at hrun
  rw [show a.tokens.toList = _ from tokens_analyzeWith _ _ _, List.nil_append]
  exact Nat.le_trans hrun (Nat.le_of_eq (Nat.zero_add _))

/-- Literals are found among the tokens that are no identifiers. -/
theorem length_firstSeen_le (tokens : List Token) :
    (Literal.firstSeen tokens).length + identifiers tokens ≤ tokens.length := by
  have hother : ∀ t ∈ tokens, (Literal.ofToken? t).isSome = true →
      decide ¬ decide (t.kind = .identifier) = true := by
    intro t _ h
    simp only [decide_eq_true_eq]
    intro hk
    simp [Literal.ofToken?, Literal.categoryOf?, hk] at h
  calc (Literal.firstSeen tokens).length + identifiers tokens
      ≤ tokens.countP (fun t => (Literal.ofToken? t).isSome) + identifiers tokens := by
        rw [← List.length_filterMap_eq_countP]
        exact Nat.add_le_add_right (Literal.firstSeen_sublist tokens).length_le _
    _ ≤ tokens.countP (fun t => ¬ decide (t.kind = .identifier) = true) + identifiers tokens :=
        Nat.add_le_add_right (List.countP_mono_left hother) _
    _ = tokens.length := by
        rw [Nat.add_comm]
        exact (List.length_eq_countP_add_countP _).symm

end ScopeLex
