import Mathlib.Logic.Function.Iterate
import ScopeLex.CommandLine.Reply
import ScopeLex.Proofs.Analysis.Room
import ScopeLex.Proofs.Symbol.Registration
import ScopeLex.Proofs.Symbol.Visibility
import ScopeLex.Proofs.Token.Spelling

/-!
# Literals after a run

The innermost block after a run holds names only, and no literal is spelled like a
name. Therefore each literal finds its lexeme free when literals are registered for
the first time, and taken whenever they are registered again.

* `spelled_of_mem_ofSource`: every token of a text is spelled as its kind.
* `isFree_of_mem_firstSeen`: after a run no lexeme of a literal is taken.
* `Analysis.table_registerLiterals`, `Analysis.diagnostics_registerLiterals`: what the
  registration of literals does to a run.
* `size_history_registerLiterals_le`, `room_registerLiterals`: there are addresses enough.
* `literals_populate`: the first registration takes them all, a further one none.
-/
namespace ScopeLex

open Text (lines trimReturns)

/-! ## The tokens of a text -/

/-- A comment is spelled like one. -/
theorem spelled_of_isCommentAt {text : List Char} {e : Nat} (h : IsCommentAt text 0 e) :
    Spelled .comment text := by
  obtain ⟨rest, hrest⟩ := h.opens
  rw [List.drop_zero] at hrest
  rw [← hrest]
  exact .comment (Or.inl rfl) rest

/-- A line comment keeps its marker when it is trimmed. -/
theorem spelled_of_marks {text : List Char} (h : Marks text 0) :
    Spelled .comment (trimReturns text) := by
  obtain ⟨rest, hrest⟩ := h
  rw [List.drop_zero] at hrest
  rw [← hrest, List.cons_append, List.cons_append, List.nil_append, trimReturns,
    Text.trimEnd_cons (by decide), Text.trimEnd_cons (by decide)]
  exact .comment (Or.inr rfl) _

namespace Event

theorem spelled_of_mem_ofLine {k : Nat} {line : List Char} {t : Token}
    (h : .token t ∈ ofLine k line) : Spelled t.kind t.lexeme.toList := by
  have ht : t ∈ (ofLine k line).filterMap token? := List.mem_filterMap.mpr ⟨_, h, rfl⟩
  rw [tokens_ofLine, List.mem_append] at ht
  rcases ht with ht | ht
  · unfold lineCommentToken at ht
    split at ht
    · cases ht
    · rename_i hne
      cases List.mem_singleton.mp ht
      rw [String.toList_ofList]
      exact spelled_of_marks (startsWithMarker_iff.mp (startsWithMarker_of_ne_nil hne))
  · obtain ⟨p, hp, hpt⟩ := List.mem_filterMap.mp ht
    cases p with
    | blank text => cases hpt
    | stray c => cases hpt
    | lexeme kind found =>
      cases hpt
      rw [String.toList_ofList]
      exact (segmented_pieces 1 _).spelled hp

/-- Every token of a text is spelled as its kind. -/
theorem spelled_of_mem_ofSource {text : List Char} {t : Token} (h : .token t ∈ ofSource text) :
    Spelled t.kind t.lexeme.toList := by
  rw [ofSource_eq, List.mem_append] at h
  rcases h with h | h
  · obtain ⟨b, hb, he⟩ := List.mem_map.mp h
    cases he
    obtain ⟨spans, hs, hf⟩ := BlockComment.all_eq_map_ofSpan text
    rw [hf] at hb
    obtain ⟨⟨i, e⟩, hm, rfl⟩ := List.mem_map.mp hb
    rw [BlockComment.token, String.toList_ofList]
    exact spelled_of_isCommentAt (BlockComment.isCommentAt_text (hs.mem hm).2)
  · obtain ⟨⟨line, k⟩, -, hl⟩ := List.mem_flatMap.mp h
    dsimp only at hl
    split at hl
    · cases hl
    · exact spelled_of_mem_ofLine hl

/-- An identifier has the shape of a name and is not reserved. -/
theorem identifier_of_mem_ofSource {text : List Char} {t : Token} (h : .token t ∈ ofSource text)
    (hk : t.kind = .identifier) : isIdentifier t.lexeme = true ∧ t.lexeme ∉ keywords := by
  have hspelled := spelled_of_mem_ofSource h
  rw [hk] at hspelled
  generalize hw : t.lexeme.toList = word at hspelled
  cases hspelled with
  | identifier name free =>
    rw [← hw, String.ofList_toList] at name free
    exact ⟨name, free⟩

end Event

/-! ## The names of a run -/

/-- Names are registered for identifiers only. -/
theorem Event.exists_of_mem_changes {pending : Option Datatype} {events : List Event}
    {c : Nat × Change} (h : c ∈ Event.changes pending events) {level : Nat} {name : String}
    {category : Category} {scope : ScopeTag}
    (hr : c.2.request? level = some (name, category, scope)) :
    ∃ t : Token, .token t ∈ events ∧ t.kind = .identifier ∧ t.lexeme = name := by
  induction events generalizing pending with
  | nil => cases h
  | cons e events ih =>
    cases e with
    | stray s line column =>
      obtain ⟨t, ht, hkind⟩ := ih h
      exact ⟨t, List.mem_cons_of_mem _ ht, hkind⟩
    | token t =>
      rw [Event.changes, List.mem_append] at h
      rcases h with h | h
      · obtain ⟨change, hplan, rfl⟩ := List.mem_map.mp h
        rw [Option.mem_toList] at hplan
        exact ⟨t, List.mem_cons_self, t.identifier_of_plan hplan hr⟩
      · obtain ⟨t', ht', hkind⟩ := ih h
        exact ⟨t', List.mem_cons_of_mem _ ht', hkind⟩

section
variable (base : Nat) (source : String)

/-- The innermost block after a run holds the lexemes of identifiers only. -/
theorem exists_of_contains_current {name : String}
    (h : (analyzeWith (.empty base) [] source).table.current.contains name = true) :
    ∃ t : Token, .token t ∈ Event.ofSource source.toList ∧ t.kind = .identifier ∧
      t.lexeme = name := by
  rw [table_analyzeWith] at h
  have htracks := tracks_applyAll base
    ((Event.changes none (Event.ofSource source.toList)).map Prod.snd)
  obtain ⟨s, hs, hname⟩ := (htracks.current.contains_iff name).mp h
  have hmem := List.mem_map_of_mem (f := Prod.snd) hs
  rw [htracks.history, Array.mem_toList_iff] at hmem
  rcases SymbolTable.request_of_mem_history hmem with hm | ⟨change, hchange, level, hr⟩
  · exact absurd hm (Array.not_mem_empty _)
  · obtain ⟨c, hc, rfl⟩ := List.mem_map.mp hchange
    rw [← hname]
    exact Event.exists_of_mem_changes hc hr

theorem spelled_of_mem_tokens {t : Token}
    (h : t ∈ (analyzeWith (.empty base) [] source).tokens.toList) :
    Spelled t.kind t.lexeme.toList := by
  rw [tokens_analyzeWith, List.nil_append] at h
  obtain ⟨e, he, het⟩ := List.mem_filterMap.mp h
  cases e with
  | stray c line column => cases het
  | token u =>
    cases het
    exact Event.spelled_of_mem_ofSource he

/-- After a run no lexeme of a literal is taken. -/
theorem isFree_of_mem_firstSeen {l : Literal}
    (h : l ∈ Literal.firstSeen (analyzeWith (.empty base) [] source).tokens.toList) :
    (analyzeWith (.empty base) [] source).table.isFree l = true := by
  obtain ⟨t, ht, hl⟩ := Literal.exists_of_mem_firstSeen h
  obtain ⟨category, hc, rfl⟩ := Option.map_eq_some_iff.mp hl
  rw [SymbolTable.isFree, Bool.not_eq_true', Bool.eq_false_iff]
  intro htaken
  obtain ⟨u, hu, hkind, hlexeme⟩ := exists_of_contains_current base source htaken
  have hname := Event.spelled_of_mem_ofSource hu
  rw [hkind, hlexeme] at hname
  exact (spelled_of_mem_tokens base source ht).not_identifier hc hname

end

/-! ## Registering literals -/

namespace Analysis

theorem tokens_registerLiterals (a : Analysis) : a.registerLiterals.tokens = a.tokens :=
  tokens_carryAll a _

theorem table_eq_registerLiterals (a : Analysis) : a.registerLiterals.table =
    (a.table.registerLiterals a.tokens.toList a.diagnostics).1 :=
  congrArg Prod.fst a.registerLiterals_eq

theorem diagnostics_eq_registerLiterals (a : Analysis) : a.registerLiterals.diagnostics =
    (a.table.registerLiterals a.tokens.toList a.diagnostics).2 :=
  congrArg Prod.snd a.registerLiterals_eq

/-- The literals that are free are added. -/
theorem table_registerLiterals (a : Analysis) {next : Nat}
    (hnext : a.table.nextAddress = .ofNat next) :
    a.registerLiterals.table = a.table.addAll (a.table.literalSymbols next
      ((Literal.firstSeen a.tokens.toList).filter a.table.isFree)) := by
  rw [table_eq_registerLiterals, SymbolTable.fst_registerLiterals _ _ _ hnext]

/-- The others are reported. -/
theorem diagnostics_registerLiterals (a : Analysis) :
    a.registerLiterals.diagnostics.toList = a.diagnostics.toList ++
      ((Literal.firstSeen a.tokens.toList).filter fun l => !a.table.isFree l).map
        Literal.clash := by
  rw [diagnostics_eq_registerLiterals, SymbolTable.toList_snd_registerLiterals]

/-- Registering literals once more changes nothing and reports them all. -/
theorem registerLiterals_again (a : Analysis) :
    let b := a.registerLiterals
    b.registerLiterals.table = b.table ∧ b.registerLiterals.tokens = b.tokens ∧
      b.registerLiterals.diagnostics.toList =
        b.diagnostics.toList ++ (Literal.firstSeen a.tokens.toList).map Literal.clash := by
  intro b
  obtain ⟨htable, hdiagnostics⟩ :=
    a.table.registerLiterals_again a.tokens.toList a.diagnostics b.diagnostics
  rw [← table_eq_registerLiterals a, ← tokens_registerLiterals a] at htable hdiagnostics
  refine ⟨?_, tokens_registerLiterals b, ?_⟩
  · rw [table_eq_registerLiterals b]
    exact htable
  · rw [diagnostics_eq_registerLiterals b, ← tokens_registerLiterals a]
    exact hdiagnostics

theorem tokens_registerLiterals_iterate (a : Analysis) (k : Nat) :
    (registerLiterals^[k] a).tokens = a.tokens := by
  induction k with
  | zero => rfl
  | succ k ih => rw [Function.iterate_succ_apply', tokens_registerLiterals, ih]

end Analysis

section
variable (base : Nat) (source : String)

theorem nextAddress_analyzeWith :
    (analyzeWith (.empty base) [] source).table.nextAddress =
      .ofNat (base + (analyzeWith (.empty base) [] source).table.history.size) := by
  rw [table_analyzeWith]
  exact (SymbolTable.addressed_applyAll base _).next

/-- After a run the first registration takes all literals, -/
theorem table_registerLiterals_of_run :
    let a := analyzeWith (.empty base) [] source
    a.registerLiterals.table = a.table.addAll
      (((Literal.firstSeen a.tokens.toList).zipIdx (base + a.table.history.size)).map
        fun (l, address) =>
          Symbol.mk l.lexeme l.category .global a.table.level (address % UInt64.size)) := by
  intro a
  have hall : (Literal.firstSeen a.tokens.toList).filter a.table.isFree =
      Literal.firstSeen a.tokens.toList :=
    List.filter_eq_self.mpr fun l hl => isFree_of_mem_firstSeen base source hl
  rw [a.table_registerLiterals (nextAddress_analyzeWith base source), hall]
  rfl

/-- and reports none. -/
theorem diagnostics_registerLiterals_of_run :
    (analyzeWith (.empty base) [] source).registerLiterals.diagnostics.toList =
      (analyzeWith (.empty base) [] source).diagnostics.toList := by
  have hnone : (Literal.firstSeen (analyzeWith (.empty base) [] source).tokens.toList).filter
      (fun l => !(analyzeWith (.empty base) [] source).table.isFree l) = [] :=
    List.filter_eq_nil_iff.mpr fun l hl => by
      rw [isFree_of_mem_firstSeen base source hl]
      decide
  rw [Analysis.diagnostics_registerLiterals, hnone, List.map_nil, List.append_nil]

/-- The literal that counts for a token is of the category of the token. -/
theorem exists_literal {t : Token}
    (ht : t ∈ (analyzeWith (.empty base) [] source).tokens.toList) {category : Category}
    (hc : Literal.Registrable t category) :
    ∃ l ∈ Literal.firstSeen (analyzeWith (.empty base) [] source).tokens.toList,
      l.lexeme = t.lexeme ∧ l.category = category := by
  have ht' : Literal.ofToken? t = some ⟨t.lexeme, category, t.line⟩ :=
    Literal.ofToken?_eq_some_iff.mpr ⟨rfl, rfl, hc⟩
  obtain ⟨l, hl, hlexeme⟩ := Literal.exists_mem_firstSeen ht ht'
  refine ⟨l, hl, hlexeme, ?_⟩
  obtain ⟨u, hu, hul⟩ := Literal.exists_of_mem_firstSeen hl
  obtain ⟨hlexeme', -, hc'⟩ := Literal.ofToken?_eq_some_iff.mp hul
  rw [← (spelled_of_mem_tokens base source hu).categoryOfText_eq
      (Literal.categoryOf?_eq_some_iff.mpr hc'),
    ← (spelled_of_mem_tokens base source ht).categoryOfText_eq
      (Literal.categoryOf?_eq_some_iff.mpr hc), ← hlexeme', hlexeme]

/-- A run has no more symbols than tokens, also with its literals, and a text has at most
five tokens to four characters. -/
theorem size_history_registerLiterals_le :
    (analyzeWith (.empty base) [] source).registerLiterals.table.history.size ≤
      source.length + source.length / 4 := by
  have htokens := length_tokens_analyzeWith_le (.empty base) source
  have hnames := size_history_analyzeWith_le base source
  have hliterals :=
    length_firstSeen_le (analyzeWith (.empty base) [] source).tokens.toList
  have hsize : (analyzeWith (.empty base) [] source).registerLiterals.table.history.size =
      (analyzeWith (.empty base) [] source).table.history.size +
        (Literal.firstSeen (analyzeWith (.empty base) [] source).tokens.toList).length := by
    rw [table_registerLiterals_of_run, ← Array.length_toList, SymbolTable.history_addAll,
      List.length_append, List.length_map, List.length_zipIdx, Array.length_toList]
  omega

/-- No text runs out of addresses that leaves room for five symbols to four characters. -/
theorem room_registerLiterals (h : base + (source.length + source.length / 4) ≤ UInt64.size) :
    base + (analyzeWith (.empty base) [] source).registerLiterals.table.history.size ≤
      UInt64.size :=
  Nat.le_trans (Nat.add_le_add_left (size_history_registerLiterals_le base source) base) h

end

/-! ## The options of a command line -/

namespace CommandLine

/-- The same options without the registration of literals. -/
def Options.withoutConstants (o : Options) : Options :=
  { o with flags := o.flags.filter (· ≠ .constants) }

theorem Options.has_withoutConstants (o : Options) {f : Flag} (h : f ≠ .constants) :
    o.withoutConstants.has f = o.has f := by
  rw [Bool.eq_iff_iff]
  simp [has, withoutConstants, h]

theorem Options.shows_withoutConstants (o : Options) {f : Flag} (h : f ≠ .constants) :
    o.withoutConstants.shows f = o.shows f := by
  unfold shows
  rw [has_withoutConstants o h, has_withoutConstants o (by decide : Flag.tokens ≠ .constants),
    has_withoutConstants o (by decide : Flag.symbols ≠ .constants),
    has_withoutConstants o (by decide : Flag.diagnostics ≠ .constants)]

variable (o : Options) (source : String)

/-- What the output begins with. -/
def diagnosticPart : String :=
  if o.shows .diagnostics then diagnosticSection (analysisFor o source) source else ""

/-- What follows the diagnostics. -/
def tokenPart : String :=
  if o.shows .tokens then
    tokenSection (if o.has .sourceOrder then (analysisFor o source).sourceOrder
      else (analysisFor o source).tokens.toList)
  else ""

/-- What the output ends with. -/
def symbolPart : String :=
  if o.shows .symbols then symbolSection (analysisFor o source) else ""

theorem output_eq :
    output o source = diagnosticPart o source ++ tokenPart o source ++ symbolPart o source := rfl

theorem tokens_analysisFor :
    (analysisFor o source).tokens = (analyzeWith (.empty o.firstAddress) [] source).tokens := by
  unfold analysisFor
  split
  · exact Analysis.tokens_registerLiterals _
  · rfl

theorem diagnostics_analysisFor :
    (analysisFor o source).diagnostics.toList =
      (analyzeWith (.empty o.firstAddress) [] source).diagnostics.toList := by
  unfold analysisFor
  split
  · exact diagnostics_registerLiterals_of_run _ source
  · rfl

theorem diagnosticPart_withoutConstants :
    diagnosticPart o.withoutConstants source = diagnosticPart o source := by
  unfold diagnosticPart diagnosticSection
  rw [o.shows_withoutConstants (by decide), diagnostics_analysisFor, diagnostics_analysisFor]
  rfl

theorem tokenPart_withoutConstants :
    tokenPart o.withoutConstants source = tokenPart o source := by
  unfold tokenPart Analysis.sourceOrder
  rw [o.shows_withoutConstants (by decide), o.has_withoutConstants (by decide),
    tokens_analysisFor, tokens_analysisFor]
  rfl

end CommandLine

/-- The first registration of literals after a run takes them all, a further one none.
Each lexeme counts where it is first seen among the tokens, which begin with the block
comments, and all tokens of one lexeme are of one category. The first registration
reports nothing and appends one global symbol for each literal, at the level that the
run ended with. There are at most five symbols to four characters of the text, and while
this many addresses are left those of the literals are consecutive. Each further
registration changes nothing but the diagnostics and reports every literal once. What is
printed of diagnostics and tokens is therefore the same whether literals are registered or
not. -/
theorem literals_populate (base : Nat) (source : String) (o : CommandLine.Options) :
    let a := analyzeWith (.empty base) [] source
    let once := a.registerLiterals
    let literals := Literal.firstSeen a.tokens.toList
    let symbols := (literals.zipIdx (base + a.table.history.size)).map fun (l, address) =>
      Symbol.mk l.lexeme l.category .global a.table.level (address % UInt64.size)
    (literals.Sublist (a.tokens.toList.filterMap Literal.ofToken?) ∧
      (literals.map Literal.lexeme).Nodup ∧
      (∀ l, l ∈ literals ↔ ∃ before t after, a.tokens.toList = before ++ t :: after ∧
        l.lexeme = t.lexeme ∧ l.line = t.line ∧ Literal.Registrable t l.category ∧
        ∀ s ∈ before, ∀ category, Literal.Registrable s category → s.lexeme ≠ t.lexeme) ∧
      (∀ t ∈ a.tokens.toList, ∀ category, Literal.Registrable t category →
        ∃ l ∈ literals, l.lexeme = t.lexeme ∧ l.category = category) ∧
      a.tokens.toList = (BlockComment.all source.toList).map BlockComment.token ++
        scannedTokens (.empty base) [] source) ∧
    (once.tokens = a.tokens ∧ once.diagnostics.toList = a.diagnostics.toList ∧
      once.table = a.table.addAll symbols ∧ once.table.level = a.table.level ∧
      once.table.history.toList = a.table.history.toList ++ symbols ∧
      once.table.history.size ≤ source.length + source.length / 4 ∧
      (base + once.table.history.size ≤ UInt64.size →
        symbols.map Symbol.address = List.range' (base + a.table.history.size) symbols.length)) ∧
    (∀ k,
      let b := Analysis.registerLiterals^[k + 1] a
      b.registerLiterals.table = b.table ∧ b.registerLiterals.tokens = b.tokens ∧
        b.registerLiterals.diagnostics.toList =
          b.diagnostics.toList ++ literals.map Literal.clash) ∧
    CommandLine.output o source = CommandLine.diagnosticPart o source ++
      CommandLine.tokenPart o source ++ CommandLine.symbolPart o source ∧
    CommandLine.diagnosticPart o.withoutConstants source = CommandLine.diagnosticPart o source ∧
    CommandLine.tokenPart o.withoutConstants source = CommandLine.tokenPart o source := by
  intro a once literals symbols
  have htokens : a.tokens.toList = (BlockComment.all source.toList).map BlockComment.token ++
      scannedTokens (.empty base) [] source := by
    rw [scannedTokens_eq]
    exact tokens_eq_append _ [] source
  have htable : once.table = a.table.addAll symbols := table_registerLiterals_of_run base source
  have hhistory : once.table.history.toList = a.table.history.toList ++ symbols := by
    rw [htable, SymbolTable.history_addAll]
  refine ⟨⟨Literal.firstSeen_sublist _, Literal.nodup_firstSeen _, fun l => ?_,
    fun t ht category => exists_literal base source ht, htokens⟩,
    ⟨a.tokens_registerLiterals, diagnostics_registerLiterals_of_run base source, htable, ?_,
      hhistory, ?_, fun hroom => ?_⟩,
    fun k => ?_, CommandLine.output_eq o source,
    CommandLine.diagnosticPart_withoutConstants o source,
    CommandLine.tokenPart_withoutConstants o source⟩
  · rw [Literal.mem_firstSeen_iff, Literal.isFirst_filterMap_iff]
  · rw [htable, SymbolTable.level_addAll]
  · with_reducible exact size_history_registerLiterals_le base source
  · have hlength : symbols.length = literals.length := by
      rw [List.length_map, List.length_zipIdx]
    have hsize := congrArg List.length hhistory
    rw [List.length_append, Array.length_toList, Array.length_toList] at hsize
    rw [hlength]
    exact a.table.map_address_literalSymbols (by omega)
  · have h := (Analysis.registerLiterals^[k] a).registerLiterals_again
    rw [a.tokens_registerLiterals_iterate] at h
    rwa [Function.iterate_succ_apply' Analysis.registerLiterals k a]

/-- A block is left open, a name is declared in it and a literal occurs twice. -/
theorem literals_populate_open_block :
    let source := "\x7b int a read a 5\n5"
    let a := analyzeWith (.empty 1000) [] source
    let symbols := ((Literal.firstSeen a.tokens.toList).zipIdx
      (1000 + a.table.history.size)).map fun (l, address) =>
        Symbol.mk l.lexeme l.category .global a.table.level (address % UInt64.size)
    (⟨.integer, "5", 2⟩ : Token) ∈ a.tokens.toList ∧
      (∃ l ∈ Literal.firstSeen a.tokens.toList, l.lexeme = "5" ∧ l.category = .numericConstant) ∧
      a.registerLiterals.diagnostics.toList = a.diagnostics.toList ∧
      symbols.map Symbol.address =
        List.range' (1000 + a.table.history.size) symbols.length := by
  intro source a symbols
  have hm : (⟨.integer, "5", 2⟩ : Token) ∈ a.tokens.toList := by
    rw [show a.tokens.toList = _ from tokens_analyzeWith _ _ _]
    decide +kernel
  obtain ⟨⟨-, -, -, hliteral, -⟩, ⟨-, hdiagnostics, -, -, -, -, haddresses⟩, -⟩ :=
    literals_populate 1000 source .start
  have hroom := room_registerLiterals 1000 source (by decide +kernel)
  refine ⟨hm, ?_, ?_, ?_⟩
  · exact hliteral _ hm _ (.integer rfl)
  · exact hdiagnostics
  · exact haddresses hroom

end ScopeLex
