import ScopeLex.Event
import ScopeLex.Proofs.Token.First

/-!
# What stands behind code

Patterns look past their lexemes: words end at a boundary, a decimal goes on behind its
point, a string may read on to the last quote of its line. Much of what stands behind a
lexeme changes none of this, whether a lexeme is found or not; then it is scanned as if
it stood alone.

* `firstLexeme?_append_of_unquoted`, `firstLexeme?_append`: what may stand behind a text
  without a change to its first lexeme.
* `Event.ofCode_append`: code in two parts.
* `Event.ofCode_append_blanks`: blanks at the end of code have no effect.
-/
namespace ScopeLex

open Text (isWord isBlank)

/-! ## Quotes -/

/-- A text without quotes changes nothing in front of it. -/
theorem closingQuote?_append {follow : List Char} (h : '"' ∉ follow) (text : List Char) :
    closingQuote? (text ++ follow) = closingQuote? text := by
  rw [closingQuote?, freeQuote?_append, freeQuote?_eq_none h, lastQuote?_append,
    lastQuote?_eq_none.mpr h, Option.map_none, Option.or_none, Option.none_or,
    closingQuote?]

theorem charEnd?_eq_none {text : List Char} (h : '\'' ∉ text) : charEnd? text = none := by
  have hne : ∀ i, text[i]? ≠ some '\'' := fun i hi => h (List.mem_of_getElem? hi)
  cases text with
  | nil => rfl
  | cons c text =>
    rw [charEnd?, if_neg (fun hp => hne 2 hp.2), if_neg (fun hp => hne 1 hp.2)]

/-- Nor does a text without apostrophes. -/
theorem charEnd?_append {follow : List Char} (h : '\'' ∉ follow) (text : List Char) :
    charEnd? (text ++ follow) = charEnd? text := by
  have hne : ∀ i, follow[i]? ≠ some '\'' := fun i hi => h (List.mem_of_getElem? hi)
  -- The apostrophe that ends a literal is its third or its fourth character.
  rcases text with _ | ⟨c, _ | ⟨d, _ | ⟨e, text⟩⟩⟩
  · exact charEnd?_eq_none h
  · have hnone : charEnd? [c] = none := by simp [charEnd?]
    rw [hnone, List.cons_append, List.nil_append, charEnd?, if_neg (fun hp => hne 1 hp.2),
      if_neg (fun hp => hne 0 hp.2)]
  · have hfollow : (d :: follow)[1]? ≠ some '\'' := hne 0
    have hend : ([d] : List Char)[1]? ≠ some '\'' := fun h => by cases h
    simp only [List.cons_append, List.nil_append, charEnd?, hfollow, hend, and_false, if_false,
      List.getElem?_cons_zero]
  · rfl

/-! ## Words -/

/-- The first word ends where the text does, or earlier. -/
theorem firstWord_append_of_endsWord {follow : List Char} (h : EndsWord follow)
    (text : List Char) : firstWord (text ++ follow) = firstWord text := by
  induction text with
  | nil => exact firstWord_append (fun _ hc => nomatch hc) h
  | cons c text ih =>
    by_cases hc : isWord c = true
    · have hcons : ∀ text, firstWord (c :: text) = c :: firstWord text := fun _ =>
        List.takeWhile_cons_of_pos hc
      rw [List.cons_append, hcons, hcons, ih]
    · have hnil : ∀ text, firstWord (c :: text) = [] := fun _ => List.takeWhile_cons_of_neg hc
      rw [List.cons_append, hnil, hnil]

theorem length_firstWord_le (text : List Char) : (firstWord text).length ≤ text.length :=
  (prefix_firstWord text).length_le

/-- Behind the first word of a text a decimal goes on with a character of the text. -/
theorem behindWord_append {follow text : List Char} (h : EndsWord follow)
    (hlt : (firstWord text).length < text.length) :
    behindWord (text ++ follow) = behindWord text ++ follow := by
  rw [behindWord, firstWord_append_of_endsWord h, List.drop_append_of_le_length hlt, behindWord]

/-- A decimal neither comes to be nor is lost. -/
theorem hasDecimal_append_iff {follow : List Char} (h : EndsWord follow)
    (hpoint : follow.head? ≠ some '.') (text : List Char) :
    HasDecimal (text ++ follow) ↔ HasDecimal text := by
  rcases Nat.lt_or_ge (firstWord text).length text.length with hlt | hge
  · rw [HasDecimal, HasDecimal, behindWord_append h hlt, firstWord_append_of_endsWord h,
      firstWord_append_of_endsWord h, List.getElem?_append_left hlt]
  · have hend : (firstWord text).length = text.length :=
      Nat.le_antisymm (length_firstWord_le text) hge
    constructor
    · intro hd
      have hp := hd.2.1
      rw [firstWord_append_of_endsWord h, hend, List.getElem?_append_right (Nat.le_refl _),
        Nat.sub_self, ← List.head?_eq_getElem?] at hp
      exact absurd hp hpoint
    · intro hd
      have hp := hd.2.1
      rw [List.getElem?_eq_none hge] at hp
      cases hp

/-! ## The first lexeme -/

/-- What ends a word and begins with no point changes no lexeme in front of it, unless the
lexeme begins with a quote. -/
theorem firstLexeme?_append_of_unquoted {follow : List Char} (hend : EndsWord follow)
    (hpoint : follow.head? ≠ some '.') {c : Char} (hq : c ≠ '"') (ha : c ≠ '\'')
    (text : List Char) : firstLexeme? (c :: (text ++ follow)) = firstLexeme? (c :: text) := by
  have hword : firstWord (c :: (text ++ follow)) = firstWord (c :: text) :=
    firstWord_append_of_endsWord hend (c :: text)
  by_cases hl : c.isLower = true
  · rw [firstLexeme?_lower hl, firstLexeme?_lower hl, hword]
  by_cases hd : c.isDigit = true
  · have hdecimal : HasDecimal (c :: (text ++ follow)) ↔ HasDecimal (c :: text) :=
      hasDecimal_append_iff hend hpoint (c :: text)
    rw [firstLexeme?_digit hd, firstLexeme?_digit hd, hword]
    by_cases hhas : HasDecimal (c :: text)
    · have hlt : (firstWord (c :: text)).length < (c :: text).length :=
        (List.getElem?_eq_some_iff.mp hhas.2.1).1
      have hbehind : behindWord (c :: (text ++ follow)) = behindWord (c :: text) ++ follow :=
        behindWord_append hend hlt
      rw [if_pos hhas, if_pos (hdecimal.mpr hhas), hbehind, firstWord_append_of_endsWord hend]
    · rw [if_neg hhas, if_neg (fun h => hhas (hdecimal.mp h))]
  by_cases hs : c ∈ signs
  · rw [firstLexeme?_sign hs, firstLexeme?_sign hs]
  by_cases hb : c ∈ brackets
  · rw [firstLexeme?_bracket hb, firstLexeme?_bracket hb]
  · have hnone : leading c = [] := by simp [leading, hq, ha, hl, hd, hs, hb]
    rw [firstLexeme?_eq_none hnone, firstLexeme?_eq_none hnone]

/-- Without quotes of its own it changes no lexeme at all. -/
theorem firstLexeme?_append {follow : List Char} (hend : EndsWord follow)
    (hpoint : follow.head? ≠ some '.') (hquote : '"' ∉ follow) (hapostrophe : '\'' ∉ follow)
    (c : Char) (text : List Char) :
    firstLexeme? (c :: (text ++ follow)) = firstLexeme? (c :: text) := by
  by_cases hq : c = '"'
  · subst hq
    rw [firstLexeme?_quote, firstLexeme?_quote, closingQuote?_append hquote]
    refine Option.map_congr fun n hn => ?_
    rw [List.take_append_of_le_length (closingQuote?_lt hn)]
  by_cases ha : c = '\''
  · subst ha
    rw [firstLexeme?_apostrophe, firstLexeme?_apostrophe, charEnd?_append hapostrophe]
    refine Option.map_congr fun n hn => ?_
    rw [List.take_append_of_le_length (charEnd?_le hn)]
  · exact firstLexeme?_append_of_unquoted hend hpoint hq ha text

/-! ## Blanks -/

theorem not_isWord_of_isBlank {c : Char} (h : isBlank c = true) : isWord c = false := by
  simp only [isBlank, Bool.or_eq_true, beq_iff_eq] at h
  rcases h with ((((rfl | rfl) | rfl) | rfl) | rfl) | rfl <;> decide +kernel

theorem firstLexeme?_append_blanks {blanks : List Char} (h : ∀ c ∈ blanks, isBlank c = true)
    (c : Char) (text : List Char) :
    firstLexeme? (c :: (text ++ blanks)) = firstLexeme? (c :: text) := by
  have hnot : ∀ d, isBlank d = false → d ∉ blanks := by
    intro d hd hm
    rw [h d hm] at hd
    cases hd
  refine firstLexeme?_append (fun d hd => ?_) (fun hd => ?_) (hnot _ rfl) (hnot _ rfl) c text
  · exact not_isWord_of_isBlank (h d (List.mem_of_mem_head? hd))
  · exact hnot '.' rfl (List.mem_of_mem_head? hd)

namespace Event

/-- Blanks in front of code have no events. -/
theorem ofCode_dropWhile (k column : Nat) (code : List Char) :
    ofCode k column code =
      ofCode k (column + (code.takeWhile isBlank).length) (code.dropWhile isBlank) := by
  cases code with
  | nil => rfl
  | cons c text =>
    by_cases hc : isBlank c = true
    · have hdrop : (c :: text).drop ((c :: text).takeWhile isBlank).length =
          (c :: text).dropWhile isBlank := by
        conv => lhs; arg 2; rw [← List.takeWhile_append_dropWhile (p := isBlank) (l := c :: text)]
        exact List.drop_left
      rw [ofCode, pieces_cons, Piece.first, if_pos hc, Piece.text, hdrop]
      rfl
    · rw [List.takeWhile_cons_of_neg hc, List.dropWhile_cons_of_neg hc]
      rfl

theorem ofCode_blank {c : Char} (hc : isBlank c = true) (k column : Nat) (text : List Char) :
    ofCode k column (c :: text) = ofCode k (column + 1) text := by
  rw [ofCode_dropWhile, List.takeWhile_cons_of_pos hc, List.dropWhile_cons_of_pos hc,
    ofCode_dropWhile k (column + 1) text, List.length_cons, Nat.add_assoc, Nat.add_comm 1]

theorem ofCode_blanks {blanks : List Char} (h : ∀ c ∈ blanks, isBlank c = true)
    (k column : Nat) : ofCode k column blanks = [] := by
  induction blanks generalizing column with
  | nil => rfl
  | cons c blanks ih =>
    rw [ofCode_blank (h c List.mem_cons_self)]
    exact ih (fun d hd => h d (List.mem_cons_of_mem _ hd)) _

/-- What changes no lexeme of the code in front of it is scanned by itself. -/
theorem ofCode_append {follow : List Char} (k column : Nat) (code : List Char)
    (h : ∀ c ∈ code, ∀ text, firstLexeme? (c :: (text ++ follow)) = firstLexeme? (c :: text)) :
    ofCode k column (code ++ follow) =
      ofCode k column code ++ ofCode k (column + code.length) follow := by
  match code with
  | [] => rfl
  | c :: text =>
    by_cases hc : isBlank c = true
    · rw [List.cons_append, ofCode_blank hc, ofCode_blank hc,
        ofCode_append k (column + 1) text fun d hd => h d (List.mem_cons_of_mem _ hd),
        List.length_cons, Nat.add_assoc, Nat.add_comm 1]
    · have hfirst : Piece.first c (text ++ follow) = Piece.first c text := by
        rw [Piece.first, Piece.first, if_neg hc, if_neg hc, h c List.mem_cons_self]
      have hle := (Piece.text_first_prefix c text).length_le
      have hpos := List.length_pos_iff.mpr (Piece.text_first_ne_nil c text)
      have hlt : ((c :: text).drop (Piece.first c text).text.length).length <
          (c :: text).length := by
        rw [List.length_drop, List.length_cons]
        omega
      have ih := ofCode_append k (column + (Piece.first c text).text.length)
        ((c :: text).drop (Piece.first c text).text.length)
        fun d hd => h d (List.mem_of_mem_drop hd)
      have hcolumn : column + (Piece.first c text).text.length +
          ((c :: text).drop (Piece.first c text).text.length).length =
          column + (c :: text).length := by
        rw [List.length_drop]
        omega
      rw [hcolumn] at ih
      unfold ofCode at ih ⊢
      rw [List.cons_append, pieces_cons, pieces_cons, hfirst, ← List.cons_append,
        List.drop_append_of_le_length hle, List.filterMap_cons, List.filterMap_cons, ih]
      split <;> rfl
termination_by code.length

/-- Blanks behind code have no effect on it. -/
theorem ofCode_append_blanks {blanks : List Char} (h : ∀ c ∈ blanks, isBlank c = true)
    (k column : Nat) (code : List Char) :
    ofCode k column (code ++ blanks) = ofCode k column code := by
  rw [ofCode_append k column code fun c _ => firstLexeme?_append_blanks h c, ofCode_blanks h,
    List.append_nil]

end Event

end ScopeLex
