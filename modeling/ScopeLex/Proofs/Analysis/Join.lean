import Mathlib.Data.List.Basic
import Mathlib.Data.List.Induction
import ScopeLex.Proofs.Analysis.HandOver
import ScopeLex.Proofs.Analysis.Replay
import ScopeLex.Proofs.Analysis.Scan
import ScopeLex.Proofs.Comment.Joined

/-!
# Analysing joined texts

If nothing waits at the end of a text, and nothing is opened there, the analysis of a
second text behind it is the analysis of that text by itself, begun with the table of
the first and with its lines numbered on.

* `Event.ofOpenLines_join`: the open lines of the joined text.
* `lastTypeDeclares_iff`: when nothing waits.
* `analyzeWith_join`: the analysis of the joined text, put together from two.
-/
namespace ScopeLex

open Text (lines lines_append_newline trimReturns)

/-! ## Lines further down -/

namespace Event

theorem ofPiece?_add (n k : Nat) (p : Nat × Piece) :
    ofPiece? (n + k) p = (ofPiece? k p).map (shift n) := by
  obtain ⟨column, piece⟩ := p
  cases piece <;> rfl

/-- A line further down has the same events there. -/
theorem ofLine_add (n k : Nat) (line : List Char) :
    ofLine (n + k) line = (ofLine k line).map (shift n) := by
  rw [ofLine_eq, ofLine_eq, List.map_append, ofLineComment_eq, ofLineComment_eq]
  congr 1
  · unfold lineCommentToken
    split <;> rfl
  · rw [ofCode, ofCode, List.map_filterMap]
    exact List.filterMap_congr fun p _ => ofPiece?_add n k p

variable {a : List Char}

/-- The open lines of the joined text are those of the first and those of the second. -/
theorem ofOpenLines_join (h : ClosedBehind a) (b : List Char) :
    ofOpenLines (BlockComment.all (join a b)) (join a b) =
      ofOpenLines (BlockComment.all a) a ++
        (ofOpenLines (BlockComment.all b) b).map (shift (lines a).length) := by
  unfold ofOpenLines
  rw [join, lines_append_newline, ← join, List.zipIdx_append, List.flatMap_append]
  congr 1
  · refine List.flatMap_congr fun p hp => ?_
    obtain ⟨line, k⟩ := p
    have hk := (List.mem_zipIdx hp).2.1
    simp only [covers_first_iff h (show k ≤ (lines a).length by omega)]
  · rw [Nat.add_comm 1, ← List.map_snd_add_zipIdx_eq_zipIdx, List.flatMap_map, List.map_flatMap]
    refine List.flatMap_congr fun p hp => ?_
    obtain ⟨line, k⟩ := p
    have hk := (List.mem_zipIdx hp).1
    simp only [Prod.map_apply, id_eq, Nat.add_comm k, covers_second_iff h hk, ofLine_add]
    split <;> rfl

end Event

/-! ## When nothing waits -/

/-- What waits is what looking back finds. -/
theorem Run.pending_feedAll (r : Run) (before : List Token) (h : r.pending = declaredType? before)
    (events : List Event) :
    (r.feedAll events).pending = declaredType? (before ++
      (events.filterMap Event.token?).filter fun t => t.kind ≠ .comment) := by
  induction events generalizing r before with
  | nil => simpa [feedAll] using h
  | cons e events ih =>
    cases e with
    | stray c line column => exact ih (r.feed (.stray c line column)) before h
    | token t =>
      have hplan : (r.take t).pending = (t.plan (declaredType? before)).2 := by rw [← h]; rfl
      by_cases hc : t.kind = .comment
      · have hsame : (r.take t).pending = declaredType? before := by
          rw [hplan]
          simp [Token.plan, hc]
        simpa [Event.token?, hc, feedAll_cons, feed] using ih (r.take t) before hsame
      · rw [plan_eq_declaredType?] at hplan
        simpa [Event.token?, hc, feedAll_cons, feed] using ih (r.take t) (before ++ [t]) hplan

/-- Behind the last type keyword, if there is one, stands an identifier. -/
def LastTypeDeclares (tokens : List Token) : Prop :=
  ∀ before t after, tokens = before ++ t :: after → t.type? ≠ none →
    (∀ u ∈ after, u.type? = none) → ∃ u ∈ after, u.kind = .identifier

/-- Tokens that neither name a type nor are identifiers let a type wait. -/
theorem declaredType?_cons_append {t : Token} {type : Datatype} (ht : t.type? = some type)
    (before after : List Token) (hafter : ∀ u ∈ after, u.type? = none ∧ u.kind ≠ .identifier) :
    declaredType? (before ++ t :: after) = some type := by
  induction after using List.reverseRecOn with
  | nil =>
    have hkind : t.kind ≠ .identifier := fun hkind => by simp [Token.type?, hkind] at ht
    rw [declaredType?_append, if_neg hkind, ht]
    rfl
  | append_singleton after u ih =>
    obtain ⟨hnone, hkind⟩ := hafter u (List.mem_append_right _ (List.mem_singleton_self u))
    rw [← List.cons_append, ← List.append_assoc, declaredType?_append, if_neg hkind, hnone,
      Option.none_or]
    exact ih fun v hv => hafter v (List.mem_append_left _ hv)

/-- A type that waits was named by a token with only such tokens behind it. -/
theorem exists_of_declaredType? {tokens : List Token} {type : Datatype}
    (h : declaredType? tokens = some type) :
    ∃ before t after, tokens = before ++ t :: after ∧ t.type? = some type ∧
      ∀ u ∈ after, u.type? = none ∧ u.kind ≠ .identifier := by
  induction tokens using List.reverseRecOn with
  | nil => cases h
  | append_singleton tokens u ih =>
    rw [declaredType?_append] at h
    split at h
    · cases h
    · rename_i hkind
      cases hu : u.type? with
      | some named =>
        rw [hu] at h
        cases h
        exact ⟨tokens, u, [], rfl, hu, fun _ hv => nomatch hv⟩
      | none =>
        rw [hu, Option.none_or] at h
        obtain ⟨before, t, after, rfl, ht, hafter⟩ := ih h
        refine ⟨before, t, after ++ [u], List.append_assoc _ _ _, ht, fun v hv => ?_⟩
        rcases List.mem_append.mp hv with hv | hv
        · exact hafter v hv
        · cases List.mem_singleton.mp hv
          exact ⟨hu, hkind⟩

/-- That is when nothing waits. -/
theorem lastTypeDeclares_iff (tokens : List Token) :
    LastTypeDeclares tokens ↔ declaredType? tokens = none := by
  constructor
  · intro h
    by_contra hwaits
    obtain ⟨type, htype⟩ := Option.ne_none_iff_exists'.mp hwaits
    obtain ⟨before, t, after, hsplit, ht, hafter⟩ := exists_of_declaredType? htype
    obtain ⟨u, hu, hkind⟩ := h before t after hsplit (by rw [ht]; nofun)
      fun u hu => (hafter u hu).1
    exact (hafter u hu).2 hkind
  · intro h before t after hsplit ht hafter
    by_contra hnone
    obtain ⟨type, htype⟩ := Option.ne_none_iff_exists'.mp ht
    rw [hsplit, declaredType?_cons_append htype before after fun u hu =>
      ⟨hafter u hu, fun hkind => hnone ⟨u, hu, hkind⟩⟩] at h
    cases h

instance (tokens : List Token) : Decidable (LastTypeDeclares tokens) :=
  decidable_of_iff _ (lastTypeDeclares_iff tokens).symm

/-! ## The analysis of a text -/

/-- The open lines decide on table, diagnostics and what waits. -/
theorem agrees_analyzeWith (table : SymbolTable) (source : String) :
    let a := analyzeWith table [] source
    let events := Event.ofOpenLines (BlockComment.all source.toList) source.toList
    ((Run.start table).feedAll events).analysis.table = a.table ∧
      ((Run.start table).feedAll events).pending = declaredType? (a.codeTokens []) ∧
      (Run.start table).reports events = a.diagnostics.toList := by
  intro a events
  obtain ⟨hcomments, hnone⟩ :=
    (Run.start table).agrees_feedAll_comments (BlockComment.all source.toList)
  obtain ⟨hagrees, hreports⟩ := hcomments.same events
  rw [← Run.feedAll_append, ← Event.ofSource_eq] at hagrees
  have htable := table_analyzeWith table [] source
  have hdiagnostics := diagnostics_analyzeWith table [] source
  rw [Run.diagnostics_feedAll, Run.diagnostics_begun, List.nil_append] at hdiagnostics
  refine ⟨?_, ?_, ?_⟩
  · rw [← hagrees.table, Run.table_feedAll]
    exact htable.symm
  · rw [← hagrees.pending, codeTokens_analyzeWith]
    exact (Run.start table).pending_feedAll [] rfl _
  · have hbegun : Run.begun table [] = Run.start table := rfl
    rw [hdiagnostics, hbegun, Event.ofSource_eq, Run.reports_append, hnone, hreports,
      List.nil_append]

/-- The analysis of two texts joined by a newline is put together from the analysis of
the first and that of the second, begun with the table of the first, provided that
nothing is opened behind the last comment of the first and that its last type keyword
is followed by an identifier. The table is that of the second. The diagnostics of the
second come behind those of the first, with their lines numbered on. Among the tokens
the block comments of both come first, then what the scan of the lines emits for both. -/
theorem analyzeWith_join (table : SymbolTable) (first second : String) :
    let a := analyzeWith table [] first
    let b := analyzeWith a.table [] second
    let whole := analyzeWith table [] (first ++ "\n" ++ second)
    let n := (lines first.toList).length
    ClosedBehind first.toList → LastTypeDeclares (a.codeTokens []) →
      whole.table = b.table ∧
      whole.diagnostics.toList =
        a.diagnostics.toList ++ b.diagnostics.toList.map (Diagnostic.shift n) ∧
      whole.tokens.toList =
        (BlockComment.all first.toList).map BlockComment.token ++
          ((BlockComment.all second.toList).map BlockComment.token).map (Token.shift n) ++
          scannedTokens table [] first ++
          (scannedTokens a.table [] second).map (Token.shift n) := by
  intro a b whole n hclosed hnamed
  have htext : (first ++ "\n" ++ second).toList = join first.toList second.toList := by
    simp [join]
  have hlines := Event.ofOpenLines_join hclosed second.toList
  obtain ⟨hat, hap, har⟩ := agrees_analyzeWith table first
  obtain ⟨hbt, -, hbr⟩ := agrees_analyzeWith a.table second
  obtain ⟨hwt, -, hwr⟩ := agrees_analyzeWith table (first ++ "\n" ++ second)
  rw [htext, hlines, Run.feedAll_append] at hwt
  rw [htext, hlines, Run.reports_append] at hwr
  -- The second text begins with the table of the first and with nothing waiting.
  have hagrees : Run.Agrees (Run.start a.table) ((Run.start table).feedAll
      (Event.ofOpenLines (BlockComment.all first.toList) first.toList)) :=
    ⟨hat, hap.trans ((lastTypeDeclares_iff _).mp hnamed)⟩
  refine ⟨?_, ?_, ?_⟩
  · rw [← hwt, (hagrees.feedAll n _).table, hbt]
  · rw [← hwr, har, hagrees.reports n, hbr]
  · have hscan : ((Event.ofOpenLines (BlockComment.all second.toList) second.toList).map
        (Event.shift n)).filterMap Event.token? =
        (scannedTokens a.table [] second).map (Token.shift n) := by
      rw [scannedTokens_eq, List.filterMap_map, List.map_filterMap]
      exact List.filterMap_congr fun e _ => e.token?_shift n
    rw [show whole.tokens.toList = _ from tokens_eq_append table [] _, htext, hlines,
      BlockComment.all_join hclosed, List.filterMap_append, hscan, ← scannedTokens_eq,
      List.nil_append, List.map_append, List.map_map, List.map_map, ← List.append_assoc]
    rfl

/-- The first text leaves a block open, and the second closes one block too many. -/
theorem analyzeWith_join_open_block :
    let first := "/* c */\nint a \x7b @ // b"
    let second := "int a /* d\n*/ 1\n\x7d \x7d a"
    let a := analyzeWith (.empty 1000) [] first
    let b := analyzeWith a.table [] second
    let whole := analyzeWith (.empty 1000) [] (first ++ "\n" ++ second)
    ClosedBehind first.toList ∧ LastTypeDeclares (a.codeTokens []) ∧ whole.table = b.table ∧
      whole.diagnostics.toList =
        a.diagnostics.toList ++ b.diagnostics.toList.map (Diagnostic.shift 2) := by
  intro first second a b whole
  have hclosed : ClosedBehind first.toList := by decide +kernel
  have hnamed : LastTypeDeclares (a.codeTokens []) := by
    rw [codeTokens_analyzeWith]
    decide +kernel
  have hlines : (lines first.toList).length = 2 := by decide +kernel
  obtain ⟨htable, hdiagnostics, -⟩ :=
    analyzeWith_join (.empty 1000) first second hclosed hnamed
  rw [hlines] at hdiagnostics
  exact ⟨hclosed, hnamed, htable, hdiagnostics⟩

end ScopeLex
