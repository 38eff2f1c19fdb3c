import Mathlib.Data.List.Basic
import Mathlib.Tactic.SplitIfs
import ScopeLex.Proofs.Token.First
import ScopeLex.Token.Piece

/-!
# Priority and length

The first pattern that matches wins, whatever the others would take. Still it never
takes less than another one: at most two patterns match in the same place, and then the
first takes as much as the second or goes on behind it.

* `overlap_allLexemes`: how the patterns that match in one place overlap.
* `prefix_first_of_mem`: what another pattern takes is a part of the first lexeme.
* `filter_eq_of_perm`, `firstLexemeIn?_eq`: which orders of the patterns make no difference.
* `lexeme?_eq_none_of_isBlank`: no pattern matches where a blank stands.
* `priority_is_longest`: these together.
-/
namespace ScopeLex

open Text (isBlank)

/-! ## Patterns that match in the same place -/

/-- How the lexemes in one place can overlap. -/
inductive Overlap : List (TokenKind × List Char) → Prop
  | none : Overlap []
  | single (kind : TokenKind) (lexeme : List Char) : Overlap [(kind, lexeme)]
  /-- A reserved word is also a name. -/
  | reserved (word : List Char) : Overlap [(.keyword, word), (.identifier, word)]
  /-- A decimal begins with an integer, which ends at the point. -/
  | fraction {whole : List Char} (before_point : '.' ∉ whole) (fraction : List Char) :
      Overlap [(.decimal, whole ++ '.' :: fraction), (.integer, whole)]

/-- Only the patterns for the first character matter. -/
theorem allLexemes_cons (c : Char) (text : List Char) :
    allLexemes (c :: text) = (patterns.filter fun p => p.kind ∈ leading c).filterMap fun p =>
      (p.lexeme? (c :: text)).map (p.kind, ·) := by
  rw [List.filterMap_filter]
  refine List.filterMap_congr fun p hp => ?_
  split
  · rfl
  · rename_i hk
    rw [lexeme?_eq_none_of_leading hp (fun h => hk (decide_eq_true h)), Option.map_none]

/-- Nothing matches an empty text. -/
theorem lexeme?_nil (p : Pattern) : p.lexeme? [] = none := by
  rw [Option.eq_none_iff_forall_ne_some]
  intro lexeme h
  obtain ⟨hne, hp⟩ := Pattern.lexeme?_eq_some h
  exact hne (List.prefix_nil.mp hp)

theorem not_point_mem_of_isNumber {word : List Char} (h : IsNumber word) : '.' ∉ word := by
  intro hm
  have hdigit := List.all_eq_true.mp h.2 _ hm
  cases hdigit

/-- One pattern overlaps with no other. -/
theorem overlap_filterMap_singleton (p : Pattern) (text : List Char) :
    Overlap ([p].filterMap fun p => (p.lexeme? text).map (p.kind, ·)) := by
  cases h : p.lexeme? text with
  | none => simpa [h] using Overlap.none
  | some lexeme => simpa [h] using Overlap.single p.kind lexeme

theorem overlap_words (text : List Char) :
    Overlap ([.keyword, .identifier].filterMap fun p : Pattern =>
      (p.lexeme? text).map (p.kind, ·)) := by
  simp only [List.filterMap_cons, List.filterMap_nil, lexeme?_keyword, lexeme?_identifier]
  by_cases hk : String.ofList (firstWord text) ∈ keywords
  · by_cases hi : isIdentifier (String.ofList (firstWord text)) = true
    · rw [if_pos hk, if_pos hi]
      exact .reserved _
    · rw [if_pos hk, if_neg hi]
      exact .single _ _
  · by_cases hi : isIdentifier (String.ofList (firstWord text)) = true
    · rw [if_neg hk, if_pos hi]
      exact .single _ _
    · rw [if_neg hk, if_neg hi]
      exact .none

theorem overlap_numbers (text : List Char) :
    Overlap ([.decimal, .integer].filterMap fun p : Pattern =>
      (p.lexeme? text).map (p.kind, ·)) := by
  simp only [List.filterMap_cons, List.filterMap_nil, lexeme?_decimal, lexeme?_integer]
  by_cases hn : IsNumber (firstWord text)
  · by_cases hd : HasDecimal text
    · rw [if_pos hd, if_pos hn]
      exact .fraction (not_point_mem_of_isNumber hn) _
    · rw [if_neg hd, if_pos hn]
      exact .single _ _
  · have hd : ¬ HasDecimal text := fun hd => hn hd.1
    rw [if_neg hd, if_neg hn]
    exact .none

/-- The patterns for one first character: none, one, or one of two pairs. -/
theorem filter_leading_cases (c : Char) :
    (patterns.filter fun p => p.kind ∈ leading c) = [] ∨
      (∃ p ∈ patterns, (patterns.filter fun p => p.kind ∈ leading c) = [p]) ∨
      (patterns.filter fun p => p.kind ∈ leading c) = [.keyword, .identifier] ∨
      (patterns.filter fun p => p.kind ∈ leading c) = [.decimal, .integer] := by
  unfold leading
  split_ifs <;> decide

/-- How the patterns that match in one place overlap. -/
theorem overlap_allLexemes (text : List Char) : Overlap (allLexemes text) := by
  cases text with
  | nil =>
    have hnil : allLexemes [] = [] := by
      refine List.filterMap_eq_nil_iff.mpr fun p _ => ?_
      rw [lexeme?_nil, Option.map_none]
    rw [hnil]
    exact .none
  | cons c text =>
    rw [allLexemes_cons]
    obtain h | ⟨p, -, h⟩ | h | h := filter_leading_cases c
    · rw [h]
      exact .none
    · rw [h]
      exact overlap_filterMap_singleton p _
    · rw [h]
      exact overlap_words _
    · rw [h]
      exact overlap_numbers _

/-- The first of overlapping lexemes begins with each of them. -/
theorem Overlap.prefix_head {all : List (TokenKind × List Char)} (h : Overlap all)
    {lexeme : TokenKind × List Char} (hm : lexeme ∈ all) :
    ∃ first, all.head? = some first ∧ lexeme.2 <+: first.2 := by
  cases h with
  | none => cases hm
  | single kind found =>
    cases List.mem_singleton.mp hm
    exact ⟨_, rfl, List.prefix_rfl⟩
  | reserved word =>
    simp only [List.mem_cons, List.not_mem_nil, or_false] at hm
    rcases hm with rfl | rfl <;> exact ⟨_, rfl, List.prefix_rfl⟩
  | fraction hw fraction =>
    simp only [List.mem_cons, List.not_mem_nil, or_false] at hm
    rcases hm with rfl | rfl
    · exact ⟨_, rfl, List.prefix_rfl⟩
    · exact ⟨_, rfl, List.prefix_append _ _⟩

/-- What another pattern takes is a part of the first lexeme. -/
theorem prefix_first_of_mem {p : Pattern} (hp : p ∈ patterns) {text lexeme : List Char}
    (h : p.lexeme? text = some lexeme) :
    ∃ kind found, firstLexeme? text = some (kind, found) ∧ lexeme <+: found := by
  have hm : (p.kind, lexeme) ∈ allLexemes text :=
    List.mem_filterMap.mpr ⟨p, hp, by rw [h, Option.map_some]⟩
  obtain ⟨⟨kind, found⟩, hfirst, hpre⟩ := (overlap_allLexemes text).prefix_head hm
  exact ⟨kind, found, by rw [firstLexeme?_eq_head?, hfirst], hpre⟩

/-! ## Other orders -/

/-- Kind and lexeme of the first pattern in `order` that matches. -/
def firstLexemeIn? (order : List Pattern) (text : List Char) : Option (TokenKind × List Char) :=
  order.findSome? fun p => (p.lexeme? text).map (p.kind, ·)

/-- What is kept of a list is kept of each order of it in which that comes in sequence. -/
theorem filter_eq_of_perm {α : Type} {keep : α → Bool} {order all kept : List α}
    (hperm : order.Perm all) (hk : all.filter keep = kept) (hsub : kept.Sublist order) :
    order.filter keep = kept := by
  have hself : kept.filter keep = kept := by rw [← hk, List.filter_filter]; simp
  have hle : kept.Sublist (order.filter keep) := hself ▸ hsub.filter keep
  have hlen : (order.filter keep).length = kept.length := hk ▸ (hperm.filter keep).length_eq
  exact (hle.eq_of_length hlen.symm).symm

/-- An order with reserved words in front of names and decimals in front of integers
finds the same lexemes. -/
theorem firstLexemeIn?_eq {order : List Pattern} (hperm : order.Perm patterns)
    (hwords : [Pattern.keyword, .identifier].Sublist order)
    (hnumbers : [Pattern.decimal, .integer].Sublist order) (text : List Char) :
    firstLexemeIn? order text = firstLexeme? text := by
  cases text with
  | nil =>
    have hnil : ∀ l : List Pattern, firstLexemeIn? l [] = none := fun l =>
      List.findSome?_eq_none_iff.mpr fun p _ => by rw [lexeme?_nil, Option.map_none]
    rw [hnil]
    exact (hnil patterns).symm
  | cons c text =>
    have hsame : (order.filter fun p => p.kind ∈ leading c) =
        patterns.filter fun p => p.kind ∈ leading c := by
      refine filter_eq_of_perm hperm rfl ?_
      obtain h | ⟨p, hp, h⟩ | h | h := filter_leading_cases c
      · rw [h]
        exact List.nil_sublist _
      · rw [h]
        exact List.singleton_sublist.mpr (hperm.mem_iff.mpr hp)
      · rw [h]
        exact hwords
      · rw [h]
        exact hnumbers
    rw [firstLexemeIn?, firstLexeme?_cons, ← hsame,
      findSome?_filter_leading fun _ hp => hperm.mem_iff.mp hp]

/-! ## Blanks -/

theorem leading_of_isBlank {c : Char} (h : isBlank c = true) : leading c = [] := by
  simp only [isBlank, Bool.or_eq_true, beq_iff_eq] at h
  rcases h with ((((rfl | rfl) | rfl) | rfl) | rfl) | rfl <;> decide

/-- No pattern matches where a blank stands. -/
theorem lexeme?_eq_none_of_isBlank {p : Pattern} (hp : p ∈ patterns) {c : Char}
    (hc : isBlank c = true) (text : List Char) : p.lexeme? (c :: text) = none :=
  lexeme?_eq_none_of_leading hp (by rw [leading_of_isBlank hc]; exact List.not_mem_nil) text

/-- Blanks come first, and yet every lexeme is found. -/
theorem first_eq_lexeme_iff {c : Char} {text found : List Char} {kind : TokenKind} :
    Piece.first c text = .lexeme kind found ↔ firstLexeme? (c :: text) = some (kind, found) := by
  unfold Piece.first
  split
  · rename_i hb
    simp [firstLexeme?_eq_none (leading_of_isBlank hb)]
  · cases h : firstLexeme? (c :: text) <;> simp [Prod.ext_iff]

/-- Matching by priority is matching by length: the patterns that match in one place are
none, one, a reserved word that is also a name, or a decimal with the integer in front of
its point, so that the first takes at least as much as any other. Every order that
keeps these two pairs in sequence finds the same lexemes, and blanks, which are tried
before all patterns, hide none. -/
theorem priority_is_longest :
    (∀ text, Overlap (allLexemes text)) ∧
    (∀ p ∈ patterns, ∀ text lexeme, p.lexeme? text = some lexeme →
      ∃ kind found, firstLexeme? text = some (kind, found) ∧ lexeme.length ≤ found.length) ∧
    (∀ order : List Pattern, order.Perm patterns →
      [Pattern.keyword, .identifier].Sublist order → [Pattern.decimal, .integer].Sublist order →
      ∀ text, firstLexemeIn? order text = firstLexeme? text) ∧
    (∀ p ∈ patterns, ∀ c text, isBlank c = true → p.lexeme? (c :: text) = none) ∧
    ∀ c text kind found, Piece.first c text = .lexeme kind found ↔
      firstLexeme? (c :: text) = some (kind, found) := by
  refine ⟨overlap_allLexemes, ?_,
    fun _ hperm hwords hnumbers => firstLexemeIn?_eq hperm hwords hnumbers,
    fun _ hp _ text hc => lexeme?_eq_none_of_isBlank hp hc text,
    fun _ _ _ _ => first_eq_lexeme_iff⟩
  intro p hp text lexeme h
  obtain ⟨kind, found, hfirst, hpre⟩ := prefix_first_of_mem hp h
  exact ⟨kind, found, hfirst, hpre.length_le⟩

/-- Another order finds the same decimal. -/
theorem priority_is_longest_reordered :
    let order : List Pattern :=
      [.decimal, .charLiteral, .integer, .delimiter, .keyword, .identifier, .operator,
        .stringLiteral]
    order.Perm patterns ∧ [Pattern.keyword, .identifier].Sublist order ∧
      [Pattern.decimal, .integer].Sublist order ∧
      firstLexemeIn? order "3.14;".toList = some (.decimal, "3.14".toList) := by
  intro order
  have hperm : order.Perm patterns := by decide
  have hwords : [Pattern.keyword, .identifier].Sublist order := by decide
  have hnumbers : [Pattern.decimal, .integer].Sublist order := by decide
  refine ⟨hperm, hwords, hnumbers, ?_⟩
  rw [priority_is_longest.2.2.1 order hperm hwords hnumbers]
  decide +kernel

end ScopeLex
