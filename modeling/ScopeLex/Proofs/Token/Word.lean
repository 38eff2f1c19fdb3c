import Mathlib.Data.List.TakeWhile
import ScopeLex.Proofs.Token.Lexeme
import ScopeLex.Symbol.Basic

/-!
# Whole words

Reserved words, names and numbers stand between two word boundaries, so that they
never end inside a word: each takes the whole first word of the text, and a
decimal the first two with the point between them.

* `lexeme?_wholeWord`: a pattern for part of a word matches whole words only.
* `lexeme?_keyword`, `lexeme?_identifier`, `lexeme?_integer`: which words they take.
* `lexeme?_decimal`: how a decimal looks.
-/
namespace ScopeLex

open Regex (ways char chars firstOf star plus between charBefore charBefore_zero charBefore_cons
  charBefore_add mem_ways_seq mem_ways_boundary mem_ways_loop_one mem_ways_one mem_ways_char
  mem_ways_chars mem_ways_firstOf)
open Text (isWord isBoundary isWord_of_ascii)

/-! ## The first word -/

/-- The word at the start of a text. -/
def firstWord (text : List Char) : List Char := text.takeWhile isWord

/-- No word goes on here. -/
def EndsWord (rest : List Char) : Prop := ∀ c, rest.head? = some c → isWord c = false

theorem prefix_firstWord (text : List Char) : firstWord text <+: text := List.takeWhile_prefix _

theorem isWord_of_mem_firstWord {text : List Char} {c : Char} (h : c ∈ firstWord text) :
    isWord c = true := List.all_eq_true.mp List.all_takeWhile c h

/-- A first word that is not empty begins where the text begins. -/
theorem firstWord_cons {c : Char} {text : List Char} (h : firstWord (c :: text) ≠ []) :
    firstWord (c :: text) = c :: firstWord text := by
  unfold firstWord at h ⊢
  by_cases hc : isWord c = true
  · exact List.takeWhile_cons_of_pos hc
  · exact absurd (List.takeWhile_cons_of_neg hc) h

/-- A word is the first word of any text in which it ends. -/
theorem firstWord_append {word rest : List Char} (hw : ∀ c ∈ word, isWord c = true)
    (hr : EndsWord rest) : firstWord (word ++ rest) = word := by
  rw [firstWord, List.takeWhile_append_of_pos hw]
  cases rest with
  | nil => exact List.append_nil word
  | cons c rest =>
    rw [List.takeWhile_cons_of_neg (by rw [hr c rfl]; decide), List.append_nil]

/-- In its first word, a text has a word boundary at the end only. -/
theorem isBoundary_firstWord {before : Option Char} {text : List Char} {n : Nat} (h0 : 0 < n)
    (hn : n ≤ (firstWord text).length) :
    isBoundary (charBefore before text n) (text.drop n).head? = true ↔
      n = (firstWord text).length := by
  induction text generalizing before n with
  | nil =>
    have : n ≤ 0 := hn
    omega
  | cons c text ih =>
    obtain ⟨m, rfl⟩ : ∃ m, n = m + 1 := ⟨n - 1, by omega⟩
    by_cases hc : isWord c = true
    · have hcons : firstWord (c :: text) = c :: firstWord text := List.takeWhile_cons_of_pos hc
      rw [hcons, List.length_cons] at hn
      rw [hcons, List.length_cons, charBefore_cons, List.drop_succ_cons, Nat.add_right_cancel_iff]
      rcases Nat.eq_zero_or_pos m with rfl | hm
      · rw [charBefore_zero, List.drop_zero]
        cases text with
        | nil => simp [isBoundary, hc, firstWord]
        | cons d text =>
          by_cases hd : isWord d = true <;> simp [isBoundary, hc, hd, firstWord]
      · exact ih hm (Nat.le_of_succ_le_succ hn)
    · have hnil : firstWord (c :: text) = [] := List.takeWhile_cons_of_neg hc
      rw [hnil, List.length_nil] at hn
      omega

/-! ## Patterns for whole words -/

theorem mem_ways_wholeWord {text : List Char} {inner : Regex} {n : Nat} :
    n ∈ ways none text (Pattern.wholeWord inner) ↔
      isBoundary none text.head? = true ∧ n ∈ ways none text inner ∧
        isBoundary (charBefore none text n) (text.drop n).head? = true := by
  unfold Pattern.wholeWord
  rw [mem_ways_seq]
  constructor
  · intro h
    obtain ⟨i, hi, j, hj, rfl⟩ := h
    obtain ⟨rfl, hb⟩ := mem_ways_boundary.mp hi
    rw [charBefore_zero, List.drop_zero] at hj
    obtain ⟨m, hm, k, hk, rfl⟩ := mem_ways_seq.mp hj
    obtain ⟨rfl, he⟩ := mem_ways_boundary.mp hk
    rw [Nat.zero_add, Nat.add_zero]
    exact ⟨hb, hm, he⟩
  · intro h
    obtain ⟨hb, hm, he⟩ := h
    refine ⟨0, mem_ways_boundary.mpr ⟨rfl, hb⟩, n, ?_, (Nat.zero_add n).symm⟩
    rw [charBefore_zero, List.drop_zero]
    exact mem_ways_seq.mpr ⟨n, hm, 0, mem_ways_boundary.mpr ⟨rfl, he⟩, rfl⟩

theorem isBoundary_of_firstWord {text : List Char} (h : 0 < (firstWord text).length) :
    isBoundary none text.head? = true := by
  rw [Text.isBoundary_start]
  cases text with
  | nil => cases h
  | cons c text =>
    have hmem : c ∈ firstWord (c :: text) := by
      rw [firstWord_cons (List.length_pos_iff.mp h)]
      exact List.mem_cons_self
    exact isWord_of_mem_firstWord hmem

/-- The pattern matches parts of the first word only. -/
def PartOfWord (inner : Regex) : Prop :=
  ∀ text, ∀ n ∈ ways none text inner, 0 < n ∧ n ≤ (firstWord text).length

/-- What matches parts of the first word only has to take all of it. -/
theorem lexeme?_wholeWord (kind : TokenKind) {inner : Regex} (hpart : PartOfWord inner)
    (text : List Char) :
    (Pattern.mk kind (Pattern.wholeWord inner)).lexeme? text =
      if (firstWord text).length ∈ ways none text inner then some (firstWord text) else none := by
  have hall : ∀ n ∈ ways none text (Pattern.wholeWord inner), n = (firstWord text).length := by
    intro n hn
    obtain ⟨-, hm, he⟩ := mem_ways_wholeWord.mp hn
    obtain ⟨h0, hle⟩ := hpart text n hm
    exact (isBoundary_firstWord h0 hle).mp he
  split
  · rename_i h
    obtain ⟨h0, hle⟩ := hpart text _ h
    have hmem : (firstWord text).length ∈ ways none text (Pattern.wholeWord inner) :=
      mem_ways_wholeWord.mpr ⟨isBoundary_of_firstWord h0, h, (isBoundary_firstWord h0 hle).mpr rfl⟩
    rw [lexeme?_of_unique h0 hmem hall, ← List.prefix_iff_eq_take.mp (prefix_firstWord text)]
  · rename_i h
    refine lexeme?_of_no_match fun n hn => h ?_
    rw [← hall n hn]
    exact (mem_ways_wholeWord.mp hn).2.1

/-! ## Characters of words -/

/-- A character that can stand in a name. -/
def isNameChar (c : Char) : Bool := c.isLower || c.isDigit || c == '_'

/-- A range from a character to itself. -/
theorem range_self (c d : Char) : (decide (d ≤ c) && decide (c ≤ d)) = (c == d) := by
  rw [Bool.eq_iff_iff, Bool.and_eq_true, decide_eq_true_eq, decide_eq_true_eq, beq_iff_eq]
  exact ⟨fun h => Char.le_antisymm h.2 h.1, fun h => h ▸ ⟨Char.le_refl _, Char.le_refl _⟩⟩

theorem contains_lower : (CharSet.within [('a', 'z')]).contains = Char.isLower := by
  funext c
  simp only [CharSet.contains, CharSet.inRanges, List.any_cons, List.any_nil, Bool.or_false]
  rfl

theorem contains_digit : Pattern.digit.contains = Char.isDigit := by
  funext c
  simp only [Pattern.digit, CharSet.contains, CharSet.inRanges, List.any_cons, List.any_nil,
    Bool.or_false]
  rfl

theorem contains_nameChar :
    (CharSet.within [('a', 'z'), ('0', '9'), ('_', '_')]).contains = isNameChar := by
  funext c
  simp only [CharSet.contains, CharSet.inRanges, List.any_cons, List.any_nil, Bool.or_false,
    range_self, isNameChar, ← Bool.or_assoc]
  rfl

/-- The ends of a range bound the codes of its characters. -/
theorem toNat_of_range {c first last : Char}
    (h : (decide (c.val ≥ first.val) && decide (c.val ≤ last.val)) = true) :
    first.toNat ≤ c.toNat ∧ c.toNat ≤ last.toNat := by
  rw [Bool.and_eq_true, decide_eq_true_eq, decide_eq_true_eq] at h
  exact ⟨UInt32.le_iff_toNat_le.mp h.1, UInt32.le_iff_toNat_le.mp h.2⟩

theorem toNat_of_isLower {c : Char} (h : c.isLower = true) : 97 ≤ c.toNat ∧ c.toNat ≤ 122 :=
  toNat_of_range h

theorem toNat_of_isDigit {c : Char} (h : c.isDigit = true) : 48 ≤ c.toNat ∧ c.toNat ≤ 57 :=
  toNat_of_range h

theorem isWord_of_isNameChar {c : Char} (h : isNameChar c = true) : isWord c = true := by
  have halphanum : c.isAlphanum = (c.isUpper || c.isLower || c.isDigit) := rfl
  simp only [isNameChar, Bool.or_eq_true, beq_iff_eq] at h
  rcases h with (h | h) | rfl
  · have := toNat_of_isLower h
    rw [isWord_of_ascii (by omega), halphanum, h, Bool.or_true, Bool.true_or, Bool.true_or]
  · have := toNat_of_isDigit h
    rw [isWord_of_ascii (by omega), halphanum, h, Bool.or_true, Bool.true_or]
  · decide

theorem isWord_of_isDigit {c : Char} (h : c.isDigit = true) : isWord c = true :=
  isWord_of_isNameChar (by simp [isNameChar, h])

theorem isWord_of_isLower {c : Char} (h : c.isLower = true) : isWord c = true :=
  isWord_of_isNameChar (by simp [isNameChar, h])

theorem not_isWord_point : isWord '.' = false := by decide +kernel

/-- Characters of a narrower class go as far as those of a wider one only if these
are all of the narrower class. -/
theorem length_le_takeWhile_iff {p q : Char → Bool} (h : ∀ c, p c = true → q c = true)
    (text : List Char) :
    (text.takeWhile q).length ≤ (text.takeWhile p).length ↔ (text.takeWhile q).all p = true := by
  induction text with
  | nil => simp
  | cons c text ih =>
    by_cases hp : p c = true
    · simp [hp, h c hp, ih]
    · by_cases hq : q c = true <;> simp [hp, hq]

theorem takeWhile_le {p q : Char → Bool} (h : ∀ c, p c = true → q c = true) (text : List Char) :
    (text.takeWhile p).length ≤ (text.takeWhile q).length := by
  induction text with
  | nil => exact Nat.le_refl 0
  | cons c text ih =>
    by_cases hp : p c = true
    · simp [hp, h c hp, ih]
    · simp [hp]

/-! ## Reserved words and names -/

/-- A reserved word consists of letters. -/
theorem isLower_of_mem_keywords :
    ∀ word ∈ keywords, word ≠ "" ∧ word.toList.all Char.isLower = true := by
  decide

theorem mem_ways_keywords {before : Option Char} {text : List Char} {n : Nat} :
    n ∈ ways before text (firstOf (keywords.map fun word => chars word.toList)) ↔
      ∃ word ∈ keywords, word.toList <+: text ∧ n = word.toList.length := by
  rw [mem_ways_firstOf (by decide)]
  constructor
  · intro h
    obtain ⟨r, hr, hn⟩ := h
    obtain ⟨word, hw, rfl⟩ := List.mem_map.mp hr
    exact ⟨word, hw, mem_ways_chars.mp hn⟩
  · intro h
    obtain ⟨word, hw, hn⟩ := h
    exact ⟨_, List.mem_map_of_mem hw, mem_ways_chars.mpr hn⟩

/-- A reserved word at the start of a text begins its first word. -/
theorem prefix_firstWord_of_mem_keywords {word : String} (hw : word ∈ keywords) {text : List Char}
    (hp : word.toList <+: text) : word.toList <+: firstWord text := by
  obtain ⟨rest, rfl⟩ := hp
  have hword : ∀ c ∈ word.toList, isWord c = true := fun c hc =>
    isWord_of_isLower (List.all_eq_true.mp (isLower_of_mem_keywords word hw).2 c hc)
  rw [firstWord, List.takeWhile_append_of_pos hword]
  exact List.prefix_append _ _

theorem partOfWord_keywords :
    PartOfWord (firstOf (keywords.map fun word => chars word.toList)) := by
  intro text n hn
  obtain ⟨word, hw, hp, rfl⟩ := mem_ways_keywords.mp hn
  refine ⟨List.length_pos_iff.mpr fun h => ?_, (prefix_firstWord_of_mem_keywords hw hp).length_le⟩
  exact (isLower_of_mem_keywords word hw).1 (String.toList_eq_nil_iff.mp h)

/-- A text with a reserved word as its first word begins with that. -/
theorem lexeme?_keyword (text : List Char) :
    Pattern.keyword.lexeme? text =
      if String.ofList (firstWord text) ∈ keywords then some (firstWord text) else none := by
  have hiff : (firstWord text).length ∈
      ways none text (firstOf (keywords.map fun word => chars word.toList)) ↔
        String.ofList (firstWord text) ∈ keywords := by
    rw [mem_ways_keywords]
    constructor
    · intro h
      obtain ⟨word, hw, hp, hlen⟩ := h
      rw [← (prefix_firstWord_of_mem_keywords hw hp).eq_of_length hlen.symm, String.ofList_toList]
      exact hw
    · intro h
      refine ⟨_, h, ?_, ?_⟩
      · rw [String.toList_ofList]
        exact prefix_firstWord text
      · rw [String.toList_ofList]
  unfold Pattern.keyword
  rw [lexeme?_wholeWord _ partOfWord_keywords]
  simp only [hiff]

theorem isIdentifier_ofList_cons (c : Char) (rest : List Char) :
    isIdentifier (String.ofList (c :: rest)) = (c.isLower && rest.all isNameChar) := by
  unfold isIdentifier
  rw [String.toList_ofList]
  rfl

theorem mem_ways_name {before : Option Char} {text : List Char} {n : Nat} :
    n ∈ ways before text (.seq (.one (.within [('a', 'z')]))
      (star (.one (.within [('a', 'z'), ('0', '9'), ('_', '_')])))) ↔
      ∃ c rest, text = c :: rest ∧ c.isLower = true ∧ 0 < n ∧
        n ≤ (rest.takeWhile isNameChar).length + 1 := by
  rw [mem_ways_seq]
  simp only [Regex.star, mem_ways_one, mem_ways_loop_one, contains_lower, contains_nameChar]
  constructor
  · intro h
    obtain ⟨i, ⟨c, rest, rfl, hc, rfl⟩, j, ⟨-, -, hj⟩, rfl⟩ := h
    refine ⟨c, rest, rfl, hc, by omega, ?_⟩
    rw [List.drop_succ_cons, List.drop_zero] at hj
    omega
  · intro h
    obtain ⟨c, rest, rfl, hc, h0, hn⟩ := h
    have hmost : ∀ m, none = some m → n - 1 ≤ m := by
      intro m hm
      cases hm
    refine ⟨1, ⟨c, rest, rfl, hc, rfl⟩, n - 1, ⟨Nat.zero_le _, hmost, ?_⟩, by omega⟩
    rw [List.drop_succ_cons, List.drop_zero]
    omega

/-- The shape of a name by itself. -/
def nameShape : Regex :=
  .seq (.one (.within [('a', 'z')])) (star (.one (.within [('a', 'z'), ('0', '9'), ('_', '_')])))

theorem firstWord_cons_of_isLower {c : Char} (hc : c.isLower = true) (rest : List Char) :
    firstWord (c :: rest) = c :: firstWord rest :=
  List.takeWhile_cons_of_pos (isWord_of_isLower hc)

theorem partOfWord_nameShape : PartOfWord nameShape := by
  intro text n hn
  obtain ⟨c, rest, rfl, hc, h0, hle⟩ := mem_ways_name.mp hn
  rw [firstWord_cons_of_isLower hc, List.length_cons]
  exact ⟨h0, Nat.le_trans hle
    (Nat.succ_le_succ (takeWhile_le (fun _ => isWord_of_isNameChar) rest))⟩

/-- A text with a name as its first word begins with that. -/
theorem lexeme?_identifier (text : List Char) :
    Pattern.identifier.lexeme? text =
      if isIdentifier (String.ofList (firstWord text)) then some (firstWord text) else none := by
  have hword : ∀ c, isNameChar c = true → isWord c = true := fun _ => isWord_of_isNameChar
  have hiff : (firstWord text).length ∈ ways none text nameShape ↔
      isIdentifier (String.ofList (firstWord text)) = true := by
    rw [nameShape, mem_ways_name]
    constructor
    · intro h
      obtain ⟨c, rest, rfl, hc, -, hn⟩ := h
      rw [firstWord_cons_of_isLower hc, List.length_cons] at hn
      have hall := (length_le_takeWhile_iff hword rest).mp (Nat.le_of_succ_le_succ hn)
      rw [firstWord_cons_of_isLower hc, isIdentifier_ofList_cons, hc]
      exact hall
    · intro h
      cases text with
      | nil => cases h
      | cons c rest =>
        have hne : firstWord (c :: rest) ≠ [] := fun he => by rw [he] at h; cases h
        rw [firstWord_cons hne, isIdentifier_ofList_cons, Bool.and_eq_true] at h
        rw [firstWord_cons_of_isLower h.1]
        refine ⟨c, rest, rfl, h.1, Nat.succ_pos _, ?_⟩
        exact Nat.succ_le_succ ((length_le_takeWhile_iff hword rest).mpr h.2)
  have hlexeme := lexeme?_wholeWord .identifier partOfWord_nameShape text
  simp only [hiff] at hlexeme
  exact hlexeme

/-- Names are what the shape matches from the first character to the last. -/
theorem isIdentifier_iff_mem_ways (name : String) :
    isIdentifier name = true ↔ name.toList.length ∈ ways none name.toList nameShape := by
  rw [nameShape, mem_ways_name, ← String.ofList_toList (s := name), String.toList_ofList]
  cases name.toList with
  | nil => exact ⟨nofun, fun h => by obtain ⟨_, _, he, -⟩ := h; cases he⟩
  | cons c rest =>
    have hall : rest.length ≤ (rest.takeWhile isNameChar).length ↔ rest.all isNameChar = true := by
      have h := length_le_takeWhile_iff (p := isNameChar) (q := fun _ => true) (fun _ _ => rfl) rest
      rwa [List.takeWhile_eq_self_iff.mpr fun _ _ => rfl] at h
    rw [isIdentifier_ofList_cons, Bool.and_eq_true, ← hall, List.length_cons]
    constructor
    · intro h
      exact ⟨c, rest, rfl, h.1, Nat.succ_pos _, Nat.succ_le_succ h.2⟩
    · intro h
      obtain ⟨_, _, he, hc, -, hle⟩ := h
      cases he
      exact ⟨hc, Nat.le_of_succ_le_succ hle⟩

/-- Names are what the pattern for names takes as a whole. -/
theorem isIdentifier_iff_lexeme? (name : String) :
    isIdentifier name = true ↔ Pattern.identifier.lexeme? name.toList = some name.toList := by
  rw [lexeme?_identifier, Option.ite_none_right_eq_some]
  constructor
  · intro h
    have hword : ∀ c ∈ name.toList, isWord c = true := by
      rw [← String.ofList_toList (s := name)] at h
      intro c hc
      cases hl : name.toList with
      | nil => rw [hl] at hc; cases hc
      | cons d rest =>
        rw [hl] at h hc
        rw [isIdentifier_ofList_cons, Bool.and_eq_true] at h
        rcases List.mem_cons.mp hc with rfl | hc
        · exact isWord_of_isLower h.1
        · exact isWord_of_isNameChar (List.all_eq_true.mp h.2 c hc)
    have hfirst : firstWord name.toList = name.toList := List.takeWhile_eq_self_iff.mpr hword
    rw [hfirst, String.ofList_toList]
    exact ⟨h, rfl⟩
  · intro h
    rw [Option.some.inj h.2, String.ofList_toList] at h
    exact h.1

/-! ## Numbers -/

/-- A word of digits. -/
def IsNumber (word : List Char) : Prop := word ≠ [] ∧ word.all Char.isDigit = true

instance (word : List Char) : Decidable (IsNumber word) :=
  inferInstanceAs (Decidable (word ≠ [] ∧ word.all Char.isDigit = true))

/-- The digits at the start of a text are all of its first word if that is a
number. -/
theorem length_firstWord_le_iff (text : List Char) :
    (0 < (firstWord text).length ∧
      (firstWord text).length ≤ (text.takeWhile Char.isDigit).length) ↔
      IsNumber (firstWord text) := by
  rw [IsNumber, List.length_pos_iff]
  exact and_congr_right fun _ => length_le_takeWhile_iff (fun _ => isWord_of_isDigit) text

theorem mem_ways_digits {before : Option Char} {text : List Char} {most : Option Nat} {n : Nat} :
    n ∈ ways before text (.loop (.one Pattern.digit) 1 most true) ↔
      0 < n ∧ (∀ m, most = some m → n ≤ m) ∧ n ≤ (text.takeWhile Char.isDigit).length := by
  rw [mem_ways_loop_one, contains_digit]
  rfl

theorem takeWhile_isDigit_le (text : List Char) :
    (text.takeWhile Char.isDigit).length ≤ (firstWord text).length :=
  takeWhile_le (fun _ => isWord_of_isDigit) text

theorem partOfWord_digits : PartOfWord (plus (.one Pattern.digit)) := by
  intro text n hn
  obtain ⟨h0, -, hle⟩ := mem_ways_digits.mp hn
  exact ⟨h0, Nat.le_trans hle (takeWhile_isDigit_le text)⟩

/-- A text with a number as its first word begins with that. -/
theorem lexeme?_integer (text : List Char) :
    Pattern.integer.lexeme? text =
      if IsNumber (firstWord text) then some (firstWord text) else none := by
  have hiff : (firstWord text).length ∈ ways none text (plus (.one Pattern.digit)) ↔
      IsNumber (firstWord text) := by
    rw [plus, mem_ways_digits, ← length_firstWord_le_iff]
    constructor
    · intro h
      exact ⟨h.1, h.2.2⟩
    · intro h
      exact ⟨h.1, fun _ => nofun, h.2⟩
  unfold Pattern.integer
  rw [lexeme?_wholeWord _ partOfWord_digits]
  simp only [hiff]

/-- What stands behind the first word and one more character. -/
def behindWord (text : List Char) : List Char := text.drop ((firstWord text).length + 1)

/-- Two numbers with a point between them begin the text. -/
def HasDecimal (text : List Char) : Prop :=
  IsNumber (firstWord text) ∧ text[(firstWord text).length]? = some '.' ∧
    IsNumber (firstWord (behindWord text)) ∧ (firstWord (behindWord text)).length ≤ 5

instance (text : List Char) : Decidable (HasDecimal text) :=
  inferInstanceAs (Decidable (_ ∧ _ ∧ _ ∧ _))

/-- A character of no word stands behind the first word or later. -/
theorem eq_length_firstWord {text : List Char} {i : Nat} {c : Char}
    (hi : i ≤ (firstWord text).length) (hc : text[i]? = some c) (hn : isWord c = false) :
    i = (firstWord text).length := by
  refine Nat.le_antisymm hi (Nat.le_of_not_lt fun hlt => ?_)
  obtain ⟨rest, hrest⟩ := prefix_firstWord text
  rw [← hrest, List.getElem?_append_left hlt] at hc
  rw [isWord_of_mem_firstWord (List.mem_of_getElem? hc)] at hn
  cases hn

/-- A text is its first word, the character behind it and the rest. -/
theorem eq_append_behindWord {text : List Char} {c : Char}
    (h : text[(firstWord text).length]? = some c) :
    text = firstWord text ++ c :: behindWord text := by
  have hdrop : text.drop (firstWord text).length = c :: behindWord text := by
    rw [behindWord, ← List.getElem?_eq_some_iff.mp h |>.2]
    exact List.drop_eq_getElem_cons _
  have htake := List.prefix_iff_eq_take.mp (prefix_firstWord text)
  conv => lhs; rw [← List.take_append_drop (firstWord text).length text, hdrop, ← htake]

theorem mem_ways_decimal {text : List Char} {n : Nat} :
    n ∈ ways none text Pattern.decimal.regex ↔ HasDecimal text ∧
      n = (firstWord text).length + 1 + (firstWord (behindWord text)).length := by
  have hinner : ∀ m, m ∈ ways none text (.seq (plus (.one Pattern.digit))
      (.seq (char '.') (between 1 5 (.one Pattern.digit)))) ↔
      ∃ i j, (0 < i ∧ i ≤ (text.takeWhile Char.isDigit).length) ∧ text[i]? = some '.' ∧
        (0 < j ∧ j ≤ 5 ∧ j ≤ ((text.drop (i + 1)).takeWhile Char.isDigit).length) ∧
        m = i + 1 + j := by
    intro m
    simp only [Regex.plus, Regex.between, mem_ways_seq, mem_ways_digits, mem_ways_char,
      List.head?_drop, List.drop_drop]
    constructor
    · intro h
      obtain ⟨i, ⟨hi0, -, hi⟩, k, ⟨_, ⟨hpoint, rfl⟩, j, ⟨hj0, hj5, hj⟩, rfl⟩, rfl⟩ := h
      exact ⟨i, j, ⟨hi0, hi⟩, hpoint, ⟨hj0, hj5 5 rfl, hj⟩, (Nat.add_assoc i 1 j).symm⟩
    · intro h
      obtain ⟨i, j, ⟨hi0, hi⟩, hpoint, ⟨hj0, hj5, hj⟩, rfl⟩ := h
      exact ⟨i, ⟨hi0, fun _ => nofun, hi⟩, 1 + j,
        ⟨1, ⟨hpoint, rfl⟩, j, ⟨hj0, fun m hm => by cases hm; exact hj5, hj⟩, rfl⟩,
        Nat.add_assoc i 1 j⟩
  have hboundary : ∀ i j, isBoundary (charBefore none text (i + 1 + j))
      (text.drop (i + 1 + j)).head? = isBoundary
        (charBefore (charBefore none text (i + 1)) (text.drop (i + 1)) j)
        ((text.drop (i + 1)).drop j).head? := by
    intro i j
    rw [charBefore_add, List.drop_drop]
  unfold Pattern.decimal
  rw [mem_ways_wholeWord, hinner]
  constructor
  · intro h
    obtain ⟨-, ⟨i, j, ⟨hi0, hi⟩, hpoint, ⟨hj0, hj5, hj⟩, rfl⟩, hend⟩ := h
    obtain rfl := eq_length_firstWord (Nat.le_trans hi (takeWhile_isDigit_le text)) hpoint
      not_isWord_point
    rw [hboundary] at hend
    have hj' := (isBoundary_firstWord hj0 (Nat.le_trans hj (takeWhile_isDigit_le _))).mp hend
    subst hj'
    exact ⟨⟨(length_firstWord_le_iff text).mp ⟨hi0, hi⟩, hpoint,
      (length_firstWord_le_iff _).mp ⟨hj0, hj⟩, hj5⟩, rfl⟩
  · intro h
    obtain ⟨⟨hwhole, hpoint, hfraction, h5⟩, rfl⟩ := h
    have hi := (length_firstWord_le_iff text).mpr hwhole
    have hj := (length_firstWord_le_iff _).mpr hfraction
    refine ⟨isBoundary_of_firstWord hi.1, ⟨_, _, hi, hpoint, ⟨hj.1, h5, hj.2⟩, rfl⟩, ?_⟩
    rw [hboundary]
    exact (isBoundary_firstWord hj.1 (Nat.le_refl _)).mpr rfl

/-- A decimal is the first two words and the point between them. -/
theorem lexeme?_decimal (text : List Char) :
    Pattern.decimal.lexeme? text =
      if HasDecimal text then some (firstWord text ++ '.' :: firstWord (behindWord text))
      else none := by
  split
  · rename_i h
    rw [lexeme?_of_unique (by omega) (mem_ways_decimal.mpr ⟨h, rfl⟩)
      fun m hm => (mem_ways_decimal.mp hm).2]
    obtain ⟨rest, hrest⟩ := prefix_firstWord (behindWord text)
    have htext := eq_append_behindWord h.2.1
    rw [← hrest] at htext
    have hstart : firstWord text ++ '.' :: firstWord (behindWord text) <+: text :=
      ⟨rest, by rw [List.append_assoc, List.cons_append]; exact htext.symm⟩
    have hlen : (firstWord text ++ '.' :: firstWord (behindWord text)).length =
        (firstWord text).length + 1 + (firstWord (behindWord text)).length := by
      rw [List.length_append, List.length_cons]
      omega
    rw [← hlen, ← List.prefix_iff_eq_take.mp hstart]
  · rename_i h
    exact lexeme?_of_no_match fun n hn => h (mem_ways_decimal.mp hn).1

/-- Two numbers with a point between them are a decimal wherever the second ends. -/
theorem hasDecimal_append {whole fraction rest : List Char} (hw : IsNumber whole)
    (hf : IsNumber fraction) (h5 : fraction.length ≤ 5) (hr : EndsWord rest) :
    let text := whole ++ '.' :: (fraction ++ rest)
    HasDecimal text ∧ firstWord text = whole ∧ firstWord (behindWord text) = fraction := by
  intro text
  have isWord_of_isNumber : ∀ {word}, IsNumber word → ∀ c ∈ word, isWord c = true := fun hn c hc =>
    isWord_of_isDigit (List.all_eq_true.mp hn.2 c hc)
  have hpoint : EndsWord ('.' :: (fraction ++ rest)) := by
    intro c hc
    cases hc
    exact not_isWord_point
  have hfirst : firstWord text = whole := firstWord_append (isWord_of_isNumber hw) hpoint
  have hbehind : behindWord text = fraction ++ rest := by
    rw [behindWord, hfirst, ← List.drop_drop, List.drop_left]
    rfl
  have hsecond : firstWord (behindWord text) = fraction := by
    rw [hbehind, firstWord_append (isWord_of_isNumber hf) hr]
  refine ⟨⟨?_, ?_, ?_, ?_⟩, hfirst, hsecond⟩
  · rw [hfirst]
    exact hw
  · rw [hfirst, List.getElem?_append_right (Nat.le_refl _), Nat.sub_self]
    rfl
  · rw [hsecond]
    exact hf
  · rw [hsecond]
    exact h5

end ScopeLex
