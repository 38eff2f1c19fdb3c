import Mathlib.Tactic.ByContra
import Mathlib.Tactic.SplitIfs
import ScopeLex.Proofs.Analysis.Population
import ScopeLex.Proofs.Regex.WordClass

/-!
# Words and numbers at the start of a text

What a text that begins with a letter or a digit begins with is read off its runs of
name characters and digits, whatever the class of word characters outside ASCII is.

* `firstLexeme?_eq_nameAt?`, `firstLexeme?_eq_numberAt?`: the closed forms, for the class
  of the table.
* `firstLexemeBy?_eq_nameAt?`, `firstLexemeBy?_eq_numberAt?`: for any class.
* `lexemeBy?_without_boundary`: a word boundary in front of a word has no effect.
* `words_and_numbers`: these together.
-/
namespace ScopeLex

open Regex (ways mem_ways_seq ways_seq ways_boundary waysAfter_zero)
open Text (isWord isBoundary)

/-! ## Closed forms -/

/-- A word goes on where `rest` begins. -/
def goesOn (word : Char → Bool) (rest : List Char) : Bool := rest.head?.any word

/-- What stands at the start of a text that begins with a letter: its run of name
characters, unless a word goes on behind it. -/
def nameAt? (word : Char → Bool) (text : List Char) : Option (TokenKind × List Char) :=
  let run := text.takeWhile isNameChar
  if goesOn word (text.dropWhile isNameChar) then none
  else if String.ofList run ∈ keywords then some (.keyword, run)
  else some (.identifier, run)

/-- What stands at the start of a text that begins with a digit: its run of digits, with
a point and a second run of up to five digits if no word goes on behind that, unless a
word goes on behind the first run. -/
def numberAt? (word : Char → Bool) (text : List Char) : Option (TokenKind × List Char) :=
  let run := text.takeWhile Char.isDigit
  let behind := text.dropWhile Char.isDigit
  let fraction := behind.tail.takeWhile Char.isDigit
  if goesOn word behind then none
  else if behind.head? = some '.' ∧ 1 ≤ fraction.length ∧ fraction.length ≤ 5 ∧
      goesOn word (behind.tail.dropWhile Char.isDigit) = false then
    some (.decimal, run ++ '.' :: fraction)
  else some (.integer, run)

/-- The kinds of words and numbers. -/
def wordKinds : List TokenKind := [.keyword, .identifier, .decimal, .integer]

/-- What stands behind a run of `p` characters. -/
theorem drop_length_takeWhile (p : Char → Bool) (text : List Char) :
    text.drop (text.takeWhile p).length = text.dropWhile p := by
  have h := List.takeWhile_append_dropWhile (p := p) (l := text)
  conv => lhs; arg 2; rw [← h]
  exact List.drop_left

theorem eq_cons_tail {rest : List Char} {c : Char} (h : rest.head? = some c) :
    rest = c :: rest.tail := by
  cases rest with
  | nil => cases h
  | cons d rest => cases h; rfl

section
variable {word : Char → Bool} {text found : List Char} {kind : TokenKind}

/-- A name ends where it has to. -/
theorem nameAt?_eq_some (h : nameAt? word text = some (kind, found)) :
    found <+: text ∧ goesOn word (text.drop found.length) = false ∧
      (kind = .identifier → String.ofList found ∉ keywords) := by
  simp only [nameAt?] at h
  split at h
  · cases h
  · rename_i hend
    have hstop : goesOn word (text.drop (text.takeWhile isNameChar).length) = false := by
      simpa [drop_length_takeWhile] using hend
    split at h
    · cases h
      exact ⟨List.takeWhile_prefix _, hstop, nofun⟩
    · rename_i hfree
      cases h
      exact ⟨List.takeWhile_prefix _, hstop, fun _ => hfree⟩

/-- So does a number. -/
theorem numberAt?_eq_some (h : numberAt? word text = some (kind, found)) :
    found <+: text ∧ goesOn word (text.drop found.length) = false ∧ kind ≠ .identifier := by
  simp only [numberAt?] at h
  split at h
  · cases h
  rename_i hend
  split at h
  · rename_i hdecimal
    obtain ⟨hpoint, -, -, hfraction⟩ := hdecimal
    cases h
    -- The text is the first run, the point, the second run and what stands behind it.
    have hwhole : text.takeWhile Char.isDigit ++
        '.' :: (text.dropWhile Char.isDigit).tail.takeWhile Char.isDigit ++
        (text.dropWhile Char.isDigit).tail.dropWhile Char.isDigit = text := by
      rw [List.append_assoc, List.cons_append, List.takeWhile_append_dropWhile,
        ← eq_cons_tail hpoint, List.takeWhile_append_dropWhile]
    refine ⟨⟨_, hwhole⟩, ?_, nofun⟩
    conv => lhs; arg 2; arg 2; rw [← hwhole]
    rw [List.drop_left]
    exact hfraction
  · cases h
    exact ⟨List.takeWhile_prefix _, by simpa [drop_length_takeWhile] using hend, nofun⟩

end

/-! ## The first word and its runs -/

section
variable {p : Char → Bool}

/-- The first word holds nothing but `p` characters if no word goes on behind the run of
these. -/
theorem all_firstWord_eq (h : ∀ c, p c = true → isWord c = true) (text : List Char) :
    (firstWord text).all p = !goesOn isWord (text.dropWhile p) := by
  induction text with
  | nil => rfl
  | cons c text ih =>
    by_cases hp : p c = true
    · have hw : firstWord (c :: text) = c :: firstWord text := List.takeWhile_cons_of_pos (h c hp)
      rw [hw, List.all_cons, ih, hp, Bool.true_and, List.dropWhile_cons_of_pos hp]
    · rw [List.dropWhile_cons_of_neg hp, goesOn, List.head?_cons, Option.any_some]
      cases hc : isWord c with
      | true =>
        have hw : firstWord (c :: text) = c :: firstWord text := List.takeWhile_cons_of_pos hc
        simp [hw, hp]
      | false =>
        have hw : firstWord (c :: text) = [] :=
          List.takeWhile_cons_of_neg (by rw [hc]; decide)
        simp [hw]

/-- It is that run then. -/
theorem firstWord_eq_takeWhile (h : ∀ c, p c = true → isWord c = true) {text : List Char}
    (hend : goesOn isWord (text.dropWhile p) = false) : firstWord text = text.takeWhile p := by
  have hall : (firstWord text).all p = true := by rw [all_firstWord_eq h, hend]; rfl
  have hrun : (firstWord text).takeWhile p = text.takeWhile p := by
    rw [firstWord, List.takeWhile_takeWhile]
    congr 1
    funext c
    cases hc : p c with
    | true => simp [h c hc]
    | false => simp
  rw [← hrun, List.takeWhile_eq_self_iff.mpr fun c hc => List.all_eq_true.mp hall c hc]

theorem isNumber_firstWord_iff (text : List Char) :
    IsNumber (firstWord text) ↔
      1 ≤ (text.takeWhile Char.isDigit).length ∧
        goesOn isWord (text.dropWhile Char.isDigit) = false := by
  have hdigit : ∀ c, Char.isDigit c = true → isWord c = true := fun _ => isWord_of_isDigit
  rw [IsNumber, all_firstWord_eq hdigit, Bool.not_eq_true', Nat.one_le_iff_ne_zero, ne_eq, ne_eq,
    List.length_eq_zero_iff]
  refine and_congr_left fun hend => ?_
  rw [firstWord_eq_takeWhile hdigit hend]

end

/-! ## The class of the table -/

theorem isIdentifier_eq_all {c : Char} (hc : c.isLower = true) (text : List Char) :
    isIdentifier (String.ofList (firstWord (c :: text))) =
      (firstWord (c :: text)).all isNameChar := by
  rw [firstWord_cons_of_isLower hc, isIdentifier_ofList_cons, List.all_cons, hc]
  simp [isNameChar, hc]

theorem firstLexeme?_eq_nameAt? {c : Char} (hc : c.isLower = true) (text : List Char) :
    firstLexeme? (c :: text) = nameAt? isWord (c :: text) := by
  have hname : ∀ d, isNameChar d = true → isWord d = true := fun _ => isWord_of_isNameChar
  have hkind := isIdentifier_eq_all hc text
  rw [all_firstWord_eq hname] at hkind
  rw [firstLexeme?_lower hc, wordKind?, hkind]
  cases hend : goesOn isWord ((c :: text).dropWhile isNameChar) with
  | true =>
    -- A reserved word holds name characters only.
    have hfree : String.ofList (firstWord (c :: text)) ∉ keywords := by
      intro hk
      have hlower := (isLower_of_mem_keywords _ hk).2
      rw [String.toList_ofList, List.all_eq_true] at hlower
      have hall : (firstWord (c :: text)).all isNameChar = true :=
        List.all_eq_true.mpr fun d hd => by simp [isNameChar, hlower d hd]
      rw [all_firstWord_eq hname, hend] at hall
      cases hall
    simp [nameAt?, hend, hfree]
  | false =>
    rw [firstWord_eq_takeWhile hname hend]
    by_cases hk : String.ofList ((c :: text).takeWhile isNameChar) ∈ keywords
    · simp only [nameAt?, hend, if_pos hk]
      rfl
    · simp only [nameAt?, hend, if_neg hk]
      rfl

theorem firstLexeme?_eq_numberAt? {c : Char} (hc : c.isDigit = true) (text : List Char) :
    firstLexeme? (c :: text) = numberAt? isWord (c :: text) := by
  have hdigit : ∀ d, Char.isDigit d = true → isWord d = true := fun _ => isWord_of_isDigit
  have hne : 1 ≤ ((c :: text).takeWhile Char.isDigit).length := by
    rw [List.takeWhile_cons_of_pos hc, List.length_cons]
    omega
  rw [firstLexeme?_digit hc]
  simp only [HasDecimal, isNumber_firstWord_iff]
  generalize c :: text = text at hne ⊢
  cases hend : goesOn isWord (text.dropWhile Char.isDigit) with
  | true => simp [numberAt?, hend]
  | false =>
    have htail : behindWord text = (text.dropWhile Char.isDigit).tail := by
      rw [behindWord, firstWord_eq_takeWhile hdigit hend, ← List.drop_drop, drop_length_takeWhile,
        List.drop_one]
    rw [htail, firstWord_eq_takeWhile hdigit hend, ← List.head?_drop, drop_length_takeWhile]
    simp only [numberAt?, hend, hne, true_and, and_true, if_true, if_false, Bool.false_eq_true]
    by_cases hsecond : goesOn isWord
        ((text.dropWhile Char.isDigit).tail.dropWhile Char.isDigit) = false
    · rw [firstWord_eq_takeWhile hdigit hsecond]
      simp only [hsecond, and_true]
    · simp [hsecond]

/-! ## Any class -/

section
variable {word p : Char → Bool}

/-- What holds of ASCII characters only holds of a character if of its plain form. -/
theorem apply_plain (h : ∀ c, p c = true → c.toNat < 128) (c : Char) :
    p (plain word c) = p c := by
  have hnot : ∀ d : Char, 128 ≤ d.toNat → p d = false := by
    intro d hd
    rw [← Bool.not_eq_true]
    intro hp
    have := h d hp
    omega
  by_cases hc : c.toNat < 128
  · rw [plain_of_ascii hc]
  · rw [hnot c (by omega), plain, if_neg hc]
    split
    · exact hnot _ (by decide)
    · exact hnot _ (by decide)

theorem takeWhile_map_plain (h : ∀ c, p c = true → c.toNat < 128) (text : List Char) :
    (text.map (plain word)).takeWhile p = text.takeWhile p := by
  have hself : ∀ c ∈ text.takeWhile p, plain word c = c := fun c hc =>
    plain_of_ascii (h c (List.all_eq_true.mp List.all_takeWhile c hc))
  have hp : p ∘ plain word = p := funext (apply_plain h)
  rw [List.takeWhile_map, hp, List.map_congr_left hself, List.map_id']

theorem dropWhile_map_plain (h : ∀ c, p c = true → c.toNat < 128) (text : List Char) :
    (text.map (plain word)).dropWhile p = (text.dropWhile p).map (plain word) := by
  have hp : p ∘ plain word = p := funext (apply_plain h)
  rw [List.dropWhile_map, hp]

theorem goesOn_map_plain (ascii : AsciiWords word) (rest : List Char) :
    goesOn isWord (rest.map (plain word)) = goesOn word rest := by
  simp [goesOn, Option.any_map, isWord_plain ascii]

theorem isAscii_of_isLower {c : Char} (h : c.isLower = true) : c.toNat < 128 := by
  have := toNat_of_isLower h
  omega

theorem isAscii_of_isDigit {c : Char} (h : c.isDigit = true) : c.toNat < 128 := by
  have := toNat_of_isDigit h
  omega

theorem isAscii_of_isNameChar {c : Char} (h : isNameChar c = true) : c.toNat < 128 := by
  simp only [isNameChar, Bool.or_eq_true, beq_iff_eq] at h
  rcases h with (h | h) | rfl
  · exact isAscii_of_isLower h
  · exact isAscii_of_isDigit h
  · decide

theorem nameAt?_plain (ascii : AsciiWords word) (text : List Char) :
    nameAt? isWord (text.map (plain word)) = nameAt? word text := by
  have hname : ∀ c, isNameChar c = true → c.toNat < 128 := fun _ => isAscii_of_isNameChar
  simp only [nameAt?, takeWhile_map_plain hname, dropWhile_map_plain hname, goesOn_map_plain ascii]

theorem numberAt?_plain (ascii : AsciiWords word) (text : List Char) :
    numberAt? isWord (text.map (plain word)) = numberAt? word text := by
  have hdigit : ∀ c, Char.isDigit c = true → c.toNat < 128 := fun _ => isAscii_of_isDigit
  have hpoint : ∀ rest : List Char,
      (rest.map (plain word)).head? = some '.' ↔ rest.head? = some '.' := by
    intro rest
    have hascii : ∀ c : Char, (c == '.') = true → c.toNat < 128 := fun c hc => by
      cases beq_iff_eq.mp hc
      decide
    have hself : ∀ c, (plain word c == '.') = (c == '.') := apply_plain (p := (· == '.')) hascii
    cases rest with
    | nil => simp
    | cons c rest => simpa using hself c
  simp only [numberAt?, takeWhile_map_plain hdigit, dropWhile_map_plain hdigit,
    goesOn_map_plain ascii, ← List.map_tail, hpoint]

/-- What begins the text is the same lexeme for the text and for its plain form. -/
theorem firstLexemeBy?_eq_of_prefix (ascii : AsciiWords word) {text : List Char}
    {answer : Option (TokenKind × List Char)}
    (h : firstLexeme? (text.map (plain word)) = answer)
    (hp : ∀ kind found, answer = some (kind, found) → found <+: text) :
    firstLexemeBy? word text = answer := by
  rw [firstLexemeBy?_eq ascii, h]
  cases answer with
  | none => rfl
  | some found => rw [Option.map_some, ← List.prefix_iff_eq_take.mp (hp _ _ rfl)]

theorem firstLexemeBy?_eq_nameAt? (ascii : AsciiWords word) {c : Char} (hc : c.isLower = true)
    (text : List Char) : firstLexemeBy? word (c :: text) = nameAt? word (c :: text) := by
  refine firstLexemeBy?_eq_of_prefix ascii ?_ fun _ _ h => (nameAt?_eq_some h).1
  have hself : plain word c = c := plain_of_ascii (isAscii_of_isLower hc)
  rw [← nameAt?_plain ascii, List.map_cons, hself]
  exact firstLexeme?_eq_nameAt? hc _

theorem firstLexemeBy?_eq_numberAt? (ascii : AsciiWords word) {c : Char} (hc : c.isDigit = true)
    (text : List Char) : firstLexemeBy? word (c :: text) = numberAt? word (c :: text) := by
  refine firstLexemeBy?_eq_of_prefix ascii ?_ fun _ _ h => (numberAt?_eq_some h).1
  have hself : plain word c = c := plain_of_ascii (isAscii_of_isDigit hc)
  rw [← numberAt?_plain ascii, List.map_cons, hself]
  exact firstLexeme?_eq_numberAt? hc _

/-- Words begin with a letter and numbers with a digit. -/
theorem isLower_or_isDigit_of_leading {c : Char} {kind : TokenKind} (h : kind ∈ leading c)
    (hk : kind ∈ wordKinds) : c.isLower = true ∨ c.isDigit = true := by
  by_contra hnot
  rw [not_or] at hnot
  have hother : ∀ k ∈ leading c, k ∉ wordKinds := by
    rw [leading, if_neg hnot.1, if_neg hnot.2]
    split_ifs <;> decide
  exact hother kind h hk

/-- No word and no number is followed by a word character, and no name is reserved. -/
theorem ends_of_firstLexemeBy? (ascii : AsciiWords word) {text found : List Char}
    {kind : TokenKind} (h : firstLexemeBy? word text = some (kind, found))
    (hk : kind ∈ wordKinds) :
    goesOn word (text.drop found.length) = false ∧
      (kind = .identifier → String.ofList found ∉ keywords) := by
  have hplain := h
  rw [firstLexemeBy?_eq ascii, Option.map_eq_some_iff] at hplain
  obtain ⟨⟨kind', found'⟩, hfirst, he⟩ := hplain
  cases he
  obtain ⟨⟨p, hp, rfl, hl⟩, hne, hpre⟩ := firstLexeme?_eq_some hfirst
  cases text with
  | nil => exact absurd (List.prefix_nil.mp hpre) hne
  | cons c text =>
    rw [List.map_cons] at hl
    rcases isLower_or_isDigit_of_leading (kind_mem_leading hp hl) hk with hc | hc
    · rw [apply_plain (p := Char.isLower) fun _ => isAscii_of_isLower] at hc
      rw [firstLexemeBy?_eq_nameAt? ascii hc] at h
      exact (nameAt?_eq_some h).2
    · rw [apply_plain (p := Char.isDigit) fun _ => isAscii_of_isDigit] at hc
      rw [firstLexemeBy?_eq_numberAt? ascii hc] at h
      obtain ⟨-, hend, hkind⟩ := numberAt?_eq_some h
      exact ⟨hend, fun he => absurd he hkind⟩

/-! ## The boundary in front -/

/-- The pattern matches nothing in front of a text that begins with no word. -/
def StartsWord (inner : Regex) : Prop :=
  ∀ text, ∀ n ∈ ways none text inner, 0 < (firstWord text).length

theorem PartOfWord.startsWord {inner : Regex} (h : PartOfWord inner) : StartsWord inner := by
  intro text n hn
  have := h text n hn
  omega

theorem StartsWord.seq {first : Regex} (h : StartsWord first) (second : Regex) :
    StartsWord (.seq first second) := by
  intro text n hn
  obtain ⟨i, hi, -⟩ := mem_ways_seq.mp hn
  exact h text i hi

/-- A boundary in front of such a pattern has no effect. -/
theorem ways_boundary_seq {inner : Regex} (h : StartsWord inner) (text : List Char) :
    ways none text (.seq .boundary inner) = ways none text inner := by
  rw [ways_seq, ways_boundary]
  by_cases hb : isBoundary none text.head? = true
  · rw [if_pos hb, List.flatMap_singleton, waysAfter_zero]
  · rw [if_neg hb, List.flatMap_nil]
    refine (List.eq_nil_iff_forall_not_mem.mpr fun n hn => hb ?_).symm
    exact isBoundary_of_firstWord (h text n hn)

theorem startsWord_of_mem_patterns {p : Pattern} (hp : p ∈ patterns) (hk : p.kind ∈ wordKinds) :
    ∃ inner, p.regex = Pattern.wholeWord inner ∧ StartsWord inner := by
  simp only [patterns, List.mem_cons, List.not_mem_nil, or_false] at hp
  rcases hp with rfl | rfl | rfl | rfl | rfl | rfl | rfl | rfl
  · simp [wordKinds, Pattern.stringLiteral] at hk
  · exact ⟨_, rfl, partOfWord_keywords.startsWord⟩
  · simp [wordKinds, Pattern.operator] at hk
  · simp [wordKinds, Pattern.delimiter] at hk
  · exact ⟨_, rfl, partOfWord_digits.startsWord.seq _⟩
  · exact ⟨_, rfl, partOfWord_digits.startsWord⟩
  · simp [wordKinds, Pattern.charLiteral] at hk
  · exact ⟨_, rfl, partOfWord_nameShape.startsWord⟩

/-- A word or a number is the same with and without the boundary in front. -/
theorem lexemeBy?_without_boundary (ascii : AsciiWords word) {p : Pattern} (hp : p ∈ patterns)
    (hk : p.kind ∈ wordKinds) :
    ∃ rest, p.regex = .seq .boundary rest ∧
      ∀ text, (Pattern.mk p.kind rest).lexemeBy? word text = p.lexemeBy? word text := by
  obtain ⟨inner, hr, hstart⟩ := startsWord_of_mem_patterns hp hk
  have hascii := namesAscii_of_mem_patterns p hp
  refine ⟨.seq inner .boundary, hr, fun text => ?_⟩
  obtain ⟨kind, regex⟩ := p
  dsimp only at hr
  subst hr
  have hrest : (Regex.seq inner .boundary).namesAscii = true := by
    simpa [Pattern.wholeWord, Regex.namesAscii] using hascii
  rw [lexemeBy?_eq ascii hascii, lexemeBy?_eq ascii hrest, lexeme?_eq, lexeme?_eq,
    Pattern.wholeWord, ways_boundary_seq (hstart.seq _)]

end

/-! ## On a line -/

/-- On a line too no word goes on behind a word or a number: the marker of a comment
makes no words. -/
theorem ends_of_codeSegments {line found : List Char} {before after : List Piece}
    {kind : TokenKind} (h : codeSegments line = before ++ .lexeme kind found :: after)
    (hk : kind ∈ wordKinds) :
    ∃ behind, line = before.flatMap Piece.text ++ found ++ behind ∧
      goesOn isWord behind = false := by
  have hseg := segmented_codeSegments line
  rw [h] at hseg
  have hcode := hseg.flatMap_text
  have hfirst := hseg.firstLexeme?_of_append
  rw [← firstLexemeBy?_isWord] at hfirst
  have hend := (ends_of_firstLexemeBy? asciiWords_isWord hfirst hk).1
  rw [List.drop_left] at hend
  refine ⟨after.flatMap Piece.text ++ (splitMarker line).2, ?_, ?_⟩
  · conv => lhs; rw [← splitMarker_append line, ← hcode]
    simp [Piece.text]
  · cases hafter : after.flatMap Piece.text with
    | cons c rest => rwa [hafter] at hend
    | nil =>
      rw [List.nil_append]
      by_cases hr : (splitMarker line).2 = []
      · rw [hr]
        rfl
      · have hslash : isWord '/' = false := by decide +kernel
        obtain ⟨rest, hrest⟩ := startsWithMarker_iff.mp (startsWithMarker_of_ne_nil hr)
        rw [List.drop_zero] at hrest
        rw [← hrest]
        exact hslash

/-- No name of a text is a reserved word. -/
theorem not_mem_keywords_of_mem_ofSource {text : List Char} {t : Token}
    (h : .token t ∈ Event.ofSource text) (hk : t.kind = .identifier) : t.lexeme ∉ keywords :=
  (Event.identifier_of_mem_ofSource h hk).2

/-- What a text that begins with a letter or a digit begins with is read off its runs of
name characters and digits, for any class of word characters that is the usual one among
the ASCII characters. So no word goes on behind a word or a number, no name is reserved,
and the boundary in front of the four patterns has no effect. The class of the table is
such a class, and a scan with it shows the same on every line. -/
theorem words_and_numbers {word : Char → Bool} (ascii : AsciiWords word) :
    (∀ c text, c.isLower = true → firstLexemeBy? word (c :: text) = nameAt? word (c :: text)) ∧
    (∀ c text, c.isDigit = true → firstLexemeBy? word (c :: text) = numberAt? word (c :: text)) ∧
    (∀ text kind found, firstLexemeBy? word text = some (kind, found) → kind ∈ wordKinds →
      goesOn word (text.drop found.length) = false ∧
        (kind = .identifier → String.ofList found ∉ keywords)) ∧
    (∀ p ∈ patterns, p.kind ∈ wordKinds → ∃ rest, p.regex = .seq .boundary rest ∧
      ∀ text, (Pattern.mk p.kind rest).lexemeBy? word text = p.lexemeBy? word text) ∧
    AsciiWords isWord ∧ (∀ text, firstLexemeBy? isWord text = firstLexeme? text) ∧
    (∀ line before kind found after, codeSegments line = before ++ .lexeme kind found :: after →
      kind ∈ wordKinds → ∃ behind, line = before.flatMap Piece.text ++ found ++ behind ∧
        goesOn isWord behind = false) ∧
    ∀ table source, ∀ t ∈ (analyzeWith table [] source).tokens.toList,
      t.kind = .identifier → t.lexeme ∉ keywords := by
  refine ⟨fun _ text hc => firstLexemeBy?_eq_nameAt? ascii hc text,
    fun _ text hc => firstLexemeBy?_eq_numberAt? ascii hc text,
    fun _ _ _ h hk => ends_of_firstLexemeBy? ascii h hk,
    fun _ hp hk => lexemeBy?_without_boundary ascii hp hk,
    asciiWords_isWord, firstLexemeBy?_isWord, fun _ _ _ _ _ h hk => ends_of_codeSegments h hk, ?_⟩
  intro table source t ht hk
  rw [tokens_analyzeWith, List.nil_append] at ht
  obtain ⟨e, he, htoken⟩ := List.mem_filterMap.mp ht
  cases e with
  | stray c line column => cases htoken
  | token u =>
    cases htoken
    exact not_mem_keywords_of_mem_ofSource he hk

/-- Whether a letter outside ASCII makes words decides about the name in front of it; a
number with too many digits behind the point ends at the point in both cases. -/
theorem words_and_numbers_outside_ascii :
    let narrow := fun c : Char => c.isAlphanum || c == '_'
    AsciiWords narrow ∧ firstLexemeBy? narrow "ab1é".toList = some (.identifier, "ab1".toList) ∧
      firstLexemeBy? narrow "3.141592".toList = some (.integer, "3".toList) ∧
      AsciiWords isWord ∧ firstLexemeBy? isWord "ab1é".toList = none ∧
      firstLexemeBy? isWord "3.141592".toList = some (.integer, "3".toList) := by
  intro narrow
  have hnarrow : AsciiWords narrow := fun _ _ => rfl
  refine ⟨hnarrow, ?_, ?_, asciiWords_isWord, ?_, ?_⟩
  · exact ((words_and_numbers hnarrow).1 'a' _ rfl).trans (by decide +kernel)
  · exact ((words_and_numbers hnarrow).2.1 '3' _ rfl).trans (by decide +kernel)
  · exact ((words_and_numbers asciiWords_isWord).1 'a' _ rfl).trans (by decide +kernel)
  · exact ((words_and_numbers asciiWords_isWord).2.1 '3' _ rfl).trans (by decide +kernel)

end ScopeLex
