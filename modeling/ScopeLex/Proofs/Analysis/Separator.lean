import ScopeLex.Proofs.Analysis.HandOver
import ScopeLex.Proofs.Token.Trailing

/-!
# Code on both sides of a separator

A character that neither goes on a word nor follows a number as its point, and that is no
quote, ends whatever token stands in front of it. Code with such a character is scanned in
three parts: the code in front of it, the character, and the code behind it, further to
the right. This holds of a character at which no token begins as well, so that a fault
disturbs nothing around it.

* `Event.ofCode_add`: code further to the right.
* `Event.ofCode_separator`: what a separator is by itself.
* `Run.Agrees.feedAll_indent`, `Run.Agrees.reports_indent`: columns decide on nothing but
  the columns of diagnostics.
* `separator_splits_scan`: code with a separator.
-/
namespace ScopeLex

open Text (isBlank isWord)

/-! ## Further to the right -/

/-- The diagnostic `n` columns further to the right. -/
def Diagnostic.indent (n : Nat) (d : Diagnostic) : Diagnostic :=
  { d with column := d.column.map (n + ·) }

namespace Event

/-- The event `n` columns further to the right. -/
def indent (n : Nat) : Event → Event
  | .token t => .token t
  | .stray c line column => .stray c line (n + column)

theorem token?_indent (n : Nat) (e : Event) : (e.indent n).token? = e.token? := by
  cases e <;> rfl

theorem pieces_add (n column : Nat) (code : List Char) :
    pieces (n + column) code = (pieces column code).map fun p => (n + p.1, p.2) := by
  match code with
  | [] => rfl
  | c :: text =>
    have hpos := List.length_pos_iff.mpr (Piece.text_first_ne_nil c text)
    have hlt : ((c :: text).drop (Piece.first c text).text.length).length < (c :: text).length := by
      rw [List.length_drop, List.length_cons]
      omega
    rw [pieces_cons, pieces_cons, List.map_cons, Nat.add_assoc, pieces_add]
termination_by code.length

/-- Code further to the right has the same events there. -/
theorem ofCode_add (k n column : Nat) (code : List Char) :
    ofCode k (n + column) code = (ofCode k column code).map (indent n) := by
  rw [ofCode, ofCode, pieces_add, List.filterMap_map, List.map_filterMap]
  congr 1
  funext p
  obtain ⟨at_, piece⟩ := p
  cases piece <;> rfl

end Event

/-! ## Separators -/

/-- A character that ends every token in front of it, unless it stands between quotes. -/
structure Separates (c : Char) : Prop where
  noWord : isWord c = false
  noPoint : c ≠ '.'
  noQuote : c ≠ '"'
  noApostrophe : c ≠ '\''

namespace Separates

variable {c : Char}

theorem endsWord (h : Separates c) (v : List Char) : EndsWord (c :: v) := by
  intro d hd
  cases hd
  exact h.noWord

/-- A separator begins an operator, a delimiter or nothing. -/
theorem leading_eq_nil (h : Separates c) (hs : c ∉ signs) (hb : c ∉ brackets) :
    leading c = [] := by
  have hl : ¬ c.isLower = true := fun hl => by
    have := h.noWord
    rw [isWord_of_isLower hl] at this
    cases this
  have hd : ¬ c.isDigit = true := fun hd => by
    have := h.noWord
    rw [isWord_of_isDigit hd] at this
    cases this
  simp [leading, h.noQuote, h.noApostrophe, hl, hd, hs, hb]

end Separates

namespace Event

/-- The event of a separator in `column` of line `k`, if it has one. -/
def ofSeparator? (k column : Nat) (c : Char) : Option Event :=
  if isBlank c then none
  else if c ∈ signs then some (.token ⟨.operator, String.ofList [c], k⟩)
  else if c ∈ brackets then some (.token ⟨.delimiter, String.ofList [c], k⟩)
  else some (.stray c k column)

theorem ofCode_lexeme {c : Char} (hc : ¬ isBlank c = true) {v : List Char} {kind : TokenKind}
    (hfirst : firstLexeme? (c :: v) = some (kind, [c])) (k column : Nat) :
    ofCode k column (c :: v) =
      .token ⟨kind, String.ofList [c], k⟩ :: ofCode k (column + 1) v := by
  have hpiece : Piece.first c v = .lexeme kind [c] := by rw [Piece.first, if_neg hc, hfirst]
  rw [ofCode, pieces_cons, hpiece]
  rfl

/-- A separator is an event by itself, or none, and the code behind it goes on. -/
theorem ofCode_separator {c : Char} (h : Separates c) (k column : Nat) (v : List Char) :
    ofCode k column (c :: v) =
      (ofSeparator? k column c).toList ++ ofCode k (column + 1) v := by
  unfold ofSeparator?
  by_cases hc : isBlank c = true
  · rw [if_pos hc, ofCode_blank hc]
    rfl
  rw [if_neg hc]
  by_cases hs : c ∈ signs
  · rw [if_pos hs, ofCode_lexeme hc (firstLexeme?_sign hs v)]
    rfl
  rw [if_neg hs]
  by_cases hb : c ∈ brackets
  · rw [if_pos hb, ofCode_lexeme hc (firstLexeme?_bracket hb v)]
    rfl
  · have hpiece : Piece.first c v = .stray c := by
      rw [Piece.first, if_neg hc, firstLexeme?_eq_none (h.leading_eq_nil hs hb)]
    rw [if_neg hb, ofCode, pieces_cons, hpiece]
    rfl

/-- Code with a separator is scanned in three parts. -/
theorem ofCode_append_separator {c : Char} (h : Separates c) {u : List Char} (hquote : '"' ∉ u)
    (hapostrophe : '\'' ∉ u) (k column : Nat) (v : List Char) :
    ofCode k column (u ++ c :: v) = ofCode k column u ++
      ((ofSeparator? k (column + u.length) c).toList ++ ofCode k (column + u.length + 1) v) := by
  have hpoint : (c :: v).head? ≠ some '.' := fun hp => h.noPoint (Option.some.inj hp)
  have hlexemes : ∀ d ∈ u, ∀ text,
      firstLexeme? (d :: (text ++ c :: v)) = firstLexeme? (d :: text) := by
    intro d hd text
    have hq : d ≠ '"' := fun he => hquote (he ▸ hd)
    have ha : d ≠ '\'' := fun he => hapostrophe (he ▸ hd)
    exact firstLexeme?_append_of_unquoted (h.endsWord v) hpoint hq ha text
  rw [ofCode_append k column u hlexemes, ofCode_separator h]

end Event

/-! ## Runs -/

/-- A delimiter that is no brace asks for nothing. -/
theorem Token.plan_bracket {c : Char} (hopen : c ≠ '\x7b') (hclose : c ≠ '\x7d') (k : Nat)
    (pending : Option Datatype) :
    (Token.mk .delimiter (String.ofList [c]) k).plan pending = (none, pending) := by
  have hlexeme : ∀ d, c ≠ d → (String.ofList [c] == String.ofList [d]) = false := fun d hd =>
    beq_eq_false_iff_ne.mpr fun he => hd (List.cons.inj (String.ofList_injective he)).1
  have h1 := hlexeme '\x7b' hopen
  have h2 := hlexeme '\x7d' hclose
  simp only [plan]
  rw [if_neg (by simpa using h1), if_neg (by simpa using h2)]

namespace Run

/-- Scan the code `code` of line `k`, which begins in `column`. -/
def scan (r : Run) (k column : Nat) (code : List Char) : Run :=
  r.feedAll (Event.ofCode k column code)

/-- The report on a stray character in `column` of line `k`. -/
def reportStray (r : Run) (c : Char) (k column : Nat) : Run :=
  { r with analysis := r.analysis.report (.ofFault (.strayCharacter c) k (some column)) }

/-- What a separator in `column` of line `k` does by itself. -/
def pass (r : Run) (k column : Nat) (c : Char) : Run :=
  if isBlank c then r
  else if c ∈ signs then r.take ⟨.operator, String.ofList [c], k⟩
  else if c ∈ brackets then r.take ⟨.delimiter, String.ofList [c], k⟩
  else r.reportStray c k column

theorem feedAll_ofSeparator? (r : Run) (k column : Nat) (c : Char) :
    r.feedAll (Event.ofSeparator? k column c).toList = r.pass k column c := by
  unfold Event.ofSeparator? pass
  split
  · rfl
  · split
    · rfl
    · split <;> rfl

/-- A separator opens a block or closes one if it is a brace, and changes nothing else in
the table. What waits goes on waiting. -/
theorem table_pass (r : Run) (k column : Nat) (c : Char) :
    (r.pass k column c).analysis.table =
        (if c = '\x7b' then r.analysis.table.enter
          else if c = '\x7d' then r.analysis.table.exit.1 else r.analysis.table) ∧
      (r.pass k column c).pending = r.pending := by
  have hbraces : c = '\x7b' ∨ c = '\x7d' → ¬ isBlank c = true ∧ c ∉ signs ∧ c ∈ brackets := by
    rintro (rfl | rfl) <;> decide
  unfold pass
  by_cases hopen : c = '\x7b'
  · obtain ⟨hc, hs, hb⟩ := hbraces (Or.inl hopen)
    rw [if_neg hc, if_neg hs, if_pos hb, if_pos hopen, hopen]
    exact ⟨rfl, rfl⟩
  by_cases hclose : c = '\x7d'
  · obtain ⟨hc, hs, hb⟩ := hbraces (Or.inr hclose)
    rw [if_neg hc, if_neg hs, if_pos hb, if_neg hopen, if_pos hclose, hclose]
    refine ⟨?_, rfl⟩
    rw [table_take]
    generalize r.analysis.table = table
    obtain ⟨nested, globals, history, nextAddress⟩ := table
    cases nested <;> rfl
  rw [if_neg hopen, if_neg hclose]
  split
  · exact ⟨rfl, rfl⟩
  split
  · exact ⟨rfl, rfl⟩
  split
  · refine ⟨?_, congrArg Prod.snd (Token.plan_bracket hopen hclose k r.pending)⟩
    rw [table_take, Token.plan_bracket hopen hclose]
    rfl
  · exact ⟨rfl, rfl⟩

theorem diagnostics_reportStray (r : Run) (c : Char) (k column : Nat) :
    (r.reportStray c k column).diagnostics =
      r.diagnostics ++ [.ofFault (.strayCharacter c) k (some column)] :=
  Diagnostics.toList_add _ _

namespace Agrees

variable {r s : Run}

/-- Columns do nothing to what is handed on, -/
theorem feed_indent (h : Agrees r s) (n : Nat) (e : Event) :
    Agrees (r.feed e) (s.feed (e.indent n)) := by
  cases e with
  | stray c line column => exact ⟨h.table, h.pending⟩
  | token t => exact (h.same [.token t]).1

/-- and nothing to diagnostics without a column. -/
theorem reported_indent (h : Agrees r s) (n : Nat) (e : Event) :
    s.reported (e.indent n) = (r.reported e).map (Diagnostic.indent n) := by
  cases e with
  | stray c line column => rfl
  | token t =>
    have hsame : s.reported (.token t) = r.reported (.token t) := by
      have hshift := h.reported 0 (.token t)
      rwa [Event.shift_zero, funext Diagnostic.shift_zero, List.map_id'] at hshift
    have hcolumn : ∀ d ∈ r.reported (.token t), d.indent n = d := fun d hd => by
      rw [Diagnostic.indent, SymbolTable.column_of_mem_refusals hd, Option.map_none,
        ← SymbolTable.column_of_mem_refusals hd]
    rw [Event.indent, hsame, List.map_congr_left hcolumn, List.map_id']

theorem feedAll_indent (h : Agrees r s) (n : Nat) (events : List Event) :
    Agrees (r.feedAll events) (s.feedAll (events.map (Event.indent n))) :=
  feedAll_map (fun h => h.feed_indent n) h events

theorem reports_indent (h : Agrees r s) (n : Nat) (events : List Event) :
    s.reports (events.map (Event.indent n)) = (r.reports events).map (Diagnostic.indent n) :=
  reports_map (fun h => h.feed_indent n) (fun h => h.reported_indent n) h events

end Agrees

variable {r s : Run}

theorem scan_add (r : Run) (k n column : Nat) (code : List Char) :
    r.scan k (n + column) code = r.feedAll ((Event.ofCode k column code).map (Event.indent n)) := by
  rw [scan, Event.ofCode_add]

/-- Code further to the right does the same to a run that agrees: it emits the same
tokens, hands on the same, and its diagnostics have other columns. -/
theorem Agrees.scan_add (h : Agrees r s) (k n : Nat) (code : List Char) :
    (∃ tokens, (r.scan k 1 code).analysis.tokens.toList = r.analysis.tokens.toList ++ tokens ∧
      (s.scan k (n + 1) code).analysis.tokens.toList = s.analysis.tokens.toList ++ tokens) ∧
    Agrees (r.scan k 1 code) (s.scan k (n + 1) code) ∧
    ∃ reports, (r.scan k 1 code).diagnostics = r.diagnostics ++ reports ∧
      (s.scan k (n + 1) code).diagnostics =
        s.diagnostics ++ reports.map (Diagnostic.indent n) := by
  rw [Run.scan_add]
  refine ⟨⟨_, r.tokens_feedAll _, ?_⟩, h.feedAll_indent n _, _, r.diagnostics_feedAll _, ?_⟩
  · rw [tokens_feedAll, List.filterMap_map]
    congr 2
    exact funext (Event.token?_indent n)
  · rw [diagnostics_feedAll, h.reports_indent]

end Run

/-- Code is scanned in three parts where a separator stands between code without quotes and
other code: first the code in front of it, then the separator by itself, which opens or
closes a block if it is a brace, then the code behind it, whose diagnostics differ from
those of that code alone by their columns only. A separator at which no token begins is
reported and changes nothing else, so that tokens, table and diagnostics on both sides
are what they are without it. -/
theorem separator_splits_scan (r : Run) (k : Nat) {u : List Char} {c : Char} (v : List Char)
    (hc : Separates c) (hquote : '"' ∉ u) (hapostrophe : '\'' ∉ u) :
    let n := u.length + 1
    let left := r.scan k 1 u
    let middle := left.pass k n c
    let whole := r.scan k 1 (u ++ c :: v)
    whole = middle.feedAll ((Event.ofCode k 1 v).map (Event.indent n)) ∧
    (middle.analysis.table = (if c = '\x7b' then left.analysis.table.enter
        else if c = '\x7d' then left.analysis.table.exit.1 else left.analysis.table) ∧
      middle.pending = left.pending) ∧
    (whole.analysis.tokens = (middle.scan k 1 v).analysis.tokens ∧
      Run.Agrees (middle.scan k 1 v) whole ∧
      ∃ reports, (middle.scan k 1 v).diagnostics = middle.diagnostics ++ reports ∧
        whole.diagnostics = middle.diagnostics ++ reports.map (Diagnostic.indent n)) ∧
    (isBlank c = false → c ∉ signs → c ∉ brackets →
      whole.analysis.tokens = (left.scan k 1 v).analysis.tokens ∧
      Run.Agrees (left.scan k 1 v) whole ∧
      ∃ reports, (left.scan k 1 v).diagnostics = left.diagnostics ++ reports ∧
        whole.diagnostics = left.diagnostics ++
          .ofFault (.strayCharacter c) k (some n) :: reports.map (Diagnostic.indent n)) := by
  intro n left middle whole
  have hwhole : whole = middle.scan k (n + 1) v := by
    have hevents := Event.ofCode_append_separator hc hquote hapostrophe k 1 v
    rw [Nat.add_comm 1] at hevents
    show r.scan k 1 (u ++ c :: v) = _
    rw [Run.scan, hevents, Run.feedAll_append, Run.feedAll_append, Run.feedAll_ofSeparator?]
    rfl
  obtain ⟨⟨tokens, hplain, hmoved⟩, hagrees, hreports⟩ :=
    (Run.Agrees.refl middle).scan_add k n v
  refine ⟨hwhole.trans (middle.scan_add k n 1 v), left.table_pass k n c,
    ⟨Array.toList_inj.mp ?_, ?_, ?_⟩, fun hb hs hd => ?_⟩
  · rw [hwhole, hplain, hmoved]
  · rw [hwhole]
    exact hagrees
  · rw [hwhole]
    exact hreports
  · have hmiddle : middle = left.reportStray c k n := by
      show left.pass k n c = _
      rw [Run.pass, if_neg (by rw [hb]; decide), if_neg hs, if_neg hd]
    have hleft : Run.Agrees left middle := by rw [hmiddle]; exact ⟨rfl, rfl⟩
    obtain ⟨⟨tokens, hplain, hmoved⟩, hagrees, reports, hr, hr'⟩ := hleft.scan_add k n v
    have hsame : middle.analysis.tokens = left.analysis.tokens := by rw [hmiddle]; rfl
    refine ⟨Array.toList_inj.mp ?_, ?_, reports, hr, ?_⟩
    · rw [hwhole, hmoved, hplain, hsame]
    · rw [hwhole]
      exact hagrees
    · rw [hwhole, hr', hmiddle, Run.diagnostics_reportStray, List.append_assoc]
      rfl

/-- A fault behind the point of a number, within a declaration. -/
theorem separator_splits_declaration :
    let r := Run.start (.empty 1000)
    let left := r.scan 7 1 "\x7b 3. int".toList
    let whole := r.scan 7 1 ("\x7b 3. int".toList ++ '$' :: " x@ \"y".toList)
    Separates '$' ∧ '"' ∉ "\x7b 3. int".toList ∧ '\'' ∉ "\x7b 3. int".toList ∧
      Run.Agrees (left.scan 7 1 " x@ \"y".toList) whole ∧
      whole.analysis.tokens.size = 5 := by
  intro r left whole
  have hc : Separates '$' := ⟨by decide +kernel, by decide, by decide, by decide⟩
  have hquote : '"' ∉ "\x7b 3. int".toList := by decide
  have hapostrophe : '\'' ∉ "\x7b 3. int".toList := by decide
  obtain ⟨-, -, -, hstray⟩ :=
    separator_splits_scan r 7 " x@ \"y".toList hc hquote hapostrophe
  exact ⟨hc, hquote, hapostrophe, (hstray rfl (by decide) (by decide)).2.1, by decide +kernel⟩

end ScopeLex
