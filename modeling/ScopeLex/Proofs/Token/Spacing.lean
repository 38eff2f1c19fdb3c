import ScopeLex.Proofs.Token.First
import ScopeLex.Proofs.Token.Segmentation

/-!
# Lexemes between blanks

Each pattern looks past its lexeme, but a blank there, or the end of the line, never
changes what it takes. So lexemes that are written again with one blank between
them are cut as before.

* `firstLexeme?_respace`: a lexeme stays the same in front of a blank.
* `Segmented.eq_pieces`: code can be cut in one way only.
* `Segmented.respace`: lexemes with one blank between them are cut as before.
-/
namespace ScopeLex

open Text (isWord isBlank)

/-- A blank stands here, or nothing. -/
def BlankNext (follow : List Char) : Prop := ∀ c, follow.head? = some c → c = ' '

theorem BlankNext.endsWord {follow : List Char} (h : BlankNext follow) : EndsWord follow := by
  intro c hc
  rw [h c hc]
  decide +kernel

theorem BlankNext.head?_ne {follow : List Char} (h : BlankNext follow) {c : Char} (hc : c ≠ ' ') :
    follow.head? ≠ some c := fun he => hc (h c he)

theorem length_eq_of_take {a rest : List Char} {n : Nat} (h : (a ++ rest).take n = a)
    (hn : n ≤ (a ++ rest).length) : a.length = n := by
  rw [← h, List.length_take, Nat.min_eq_left hn]

/-- A first word stays the same in front of a blank. -/
theorem firstWord_respace {word rest follow : List Char} (h : firstWord (word ++ rest) = word)
    (hf : BlankNext follow) : firstWord (word ++ follow) = word :=
  firstWord_append (fun _ hc => isWord_of_mem_firstWord (h ▸ hc)) hf.endsWord

theorem respace_quote {kind : TokenKind} {text rest follow : List Char}
    (h : firstLexeme? ('"' :: (text ++ rest)) = some (kind, '"' :: text))
    (hq : '"' ∈ follow → '"' ∈ rest) :
    firstLexeme? ('"' :: (text ++ follow)) = some (kind, '"' :: text) := by
  rw [firstLexeme?_quote] at h ⊢
  obtain ⟨n, hn, he⟩ := Option.map_eq_some_iff.mp h
  obtain ⟨rfl, htext⟩ := Prod.mk.inj he
  have hlen := length_eq_of_take (List.cons.inj htext).2 (closingQuote?_lt hn)
  rw [closingQuote?_append_of_some hn (by omega) hq, Option.map_some, ← hlen, List.take_left]

theorem respace_apostrophe {kind : TokenKind} {text rest follow : List Char}
    (h : firstLexeme? ('\'' :: (text ++ rest)) = some (kind, '\'' :: text))
    (hf : BlankNext follow) :
    firstLexeme? ('\'' :: (text ++ follow)) = some (kind, '\'' :: text) := by
  rw [firstLexeme?_apostrophe] at h ⊢
  obtain ⟨n, hn, he⟩ := Option.map_eq_some_iff.mp h
  obtain ⟨rfl, htext⟩ := Prod.mk.inj he
  have hlen := length_eq_of_take (List.cons.inj htext).2 (charEnd?_le hn)
  rw [← hlen] at hn
  rw [charEnd?_append_of_some hn (hf.head?_ne (by decide)), Option.map_some, List.take_left]

theorem respace_lower {kind : TokenKind} {c : Char} {text rest follow : List Char}
    (hc : c.isLower = true)
    (h : firstLexeme? (c :: (text ++ rest)) = some (kind, c :: text)) (hf : BlankNext follow) :
    firstLexeme? (c :: (text ++ follow)) = some (kind, c :: text) := by
  rw [firstLexeme?_lower hc] at h ⊢
  obtain ⟨k, hk, he⟩ := Option.map_eq_some_iff.mp h
  obtain ⟨rfl, hword⟩ := Prod.mk.inj he
  have hfollow : firstWord ((c :: text) ++ follow) = c :: text := firstWord_respace hword hf
  rw [List.cons_append] at hfollow
  rw [hword] at hk
  rw [hfollow, hk]
  rfl

theorem respace_digit {kind : TokenKind} {c : Char} {text rest follow : List Char}
    (hc : c.isDigit = true)
    (h : firstLexeme? (c :: (text ++ rest)) = some (kind, c :: text)) (hf : BlankNext follow) :
    firstLexeme? (c :: (text ++ follow)) = some (kind, c :: text) := by
  rw [firstLexeme?_digit hc] at h ⊢
  by_cases hd : HasDecimal (c :: (text ++ rest))
  · rw [if_pos hd] at h
    obtain ⟨rfl, hlexeme⟩ := Prod.mk.inj (Option.some.inj h)
    obtain ⟨hd', hwhole, hfraction⟩ := hasDecimal_append hd.1 hd.2.2.1 hd.2.2.2 hf.endsWord
    have htext : firstWord (c :: (text ++ rest)) ++
        '.' :: (firstWord (behindWord (c :: (text ++ rest))) ++ follow) =
          c :: (text ++ follow) := by
      have happ := congrArg (· ++ follow) hlexeme
      rwa [List.append_assoc] at happ
    rw [htext] at hd' hwhole hfraction
    rw [if_pos hd', hwhole, hfraction, hlexeme]
  · rw [if_neg hd] at h
    obtain ⟨hn, he⟩ := Option.ite_none_right_eq_some.mp h
    obtain ⟨rfl, hword⟩ := Prod.mk.inj (Option.some.inj he)
    have hfollow : firstWord ((c :: text) ++ follow) = c :: text := firstWord_respace hword hf
    have hd' : ¬ HasDecimal ((c :: text) ++ follow) := by
      intro hd'
      have hpoint := hd'.2.1
      rw [hfollow, List.getElem?_append_right (Nat.le_refl _), Nat.sub_self,
        ← List.head?_eq_getElem?] at hpoint
      exact hf.head?_ne (by decide) hpoint
    rw [hword] at hn
    rw [← List.cons_append, if_neg hd', hfollow, if_pos hn]

/-- A lexeme stays the same in front of a blank, if no quote comes to stand behind
it. -/
theorem firstLexeme?_respace {kind : TokenKind} {found rest follow : List Char}
    (h : firstLexeme? (found ++ rest) = some (kind, found)) (hf : BlankNext follow)
    (hq : '"' ∈ follow → '"' ∈ rest) : firstLexeme? (found ++ follow) = some (kind, found) := by
  cases found with
  | nil => exact absurd rfl (firstLexeme?_eq_some h).2.1
  | cons c text =>
    rw [List.cons_append] at h ⊢
    by_cases hquote : c = '"'
    · subst hquote
      exact respace_quote h hq
    by_cases hapostrophe : c = '\''
    · subst hapostrophe
      exact respace_apostrophe h hf
    by_cases hlower : c.isLower = true
    · exact respace_lower hlower h hf
    by_cases hdigit : c.isDigit = true
    · exact respace_digit hdigit h hf
    by_cases hsign : c ∈ signs
    · rw [firstLexeme?_sign hsign] at h ⊢
      exact h
    by_cases hbracket : c ∈ brackets
    · rw [firstLexeme?_bracket hbracket] at h ⊢
      exact h
    have hnone : leading c = [] := by
      rw [leading, if_neg hquote, if_neg hapostrophe, if_neg hlower, if_neg hdigit, if_neg hsign,
        if_neg hbracket]
    rw [firstLexeme?_eq_none hnone] at h
    cases h

/-! ## The cut is the only one -/

/-- A text has no segmentation but its pieces. -/
theorem Segmented.eq_pieces {code : List Char} {segs : List Piece} (h : Segmented code segs)
    (column : Nat) : (pieces column code).map Prod.snd = segs := by
  induction h generalizing column with
  | nil => rfl
  | @blank run rest segs ne blanks maximal tail ih =>
    cases run with
    | nil => exact absurd rfl ne
    | cons c run =>
      have hrest : rest.takeWhile isBlank = [] := by
        cases rest with
        | nil => rfl
        | cons d rest => exact List.takeWhile_cons_of_neg (by rw [maximal d rfl]; decide)
      have hfirst : Piece.first c (run ++ rest) = .blank (c :: run) := by
        rw [Piece.first, if_pos (blanks c List.mem_cons_self), ← List.cons_append,
          List.takeWhile_append_of_pos blanks, hrest, List.append_nil]
      rw [List.cons_append, pieces_cons, hfirst, List.map_cons, Piece.text, ← List.cons_append,
        List.drop_left, ih]
  | @lexeme kind found rest segs visible first tail ih =>
    cases found with
    | nil => exact absurd rfl (firstLexeme?_eq_some first).2.1
    | cons c text =>
      have hfirst : Piece.first c (text ++ rest) = .lexeme kind (c :: text) := by
        rw [Piece.first, visible c rfl, ← List.cons_append, first]
        rfl
      rw [List.cons_append, pieces_cons, hfirst, List.map_cons, Piece.text, ← List.cons_append,
        List.drop_left, ih]
  | @stray c rest segs visible none_here tail ih =>
    have hfirst : Piece.first c rest = .stray c := by
      rw [Piece.first, visible, none_here]
      rfl
    rw [pieces_cons, hfirst, List.map_cons, Piece.text, List.length_singleton, List.drop_succ_cons,
      List.drop_zero, ih]

/-! ## Writing lexemes again -/

def Piece.isLexeme : Piece → Bool
  | .lexeme .. => true
  | _ => false

/-- The lexemes among segments. -/
def lexemes (segs : List Piece) : List Piece := segs.filter Piece.isLexeme

/-- Pieces with one blank between them. -/
def spread (segs : List Piece) : List Piece := segs.intersperse (.blank [' '])

/-- The text of pieces. -/
def written (segs : List Piece) : List Char := segs.flatMap Piece.text

theorem written_cons (p : Piece) (segs : List Piece) :
    written (p :: segs) = p.text ++ written segs := List.flatMap_cons

theorem spread_cons_cons (p q : Piece) (segs : List Piece) :
    spread (p :: q :: segs) = p :: .blank [' '] :: spread (q :: segs) := rfl

theorem exists_spread_cons (p : Piece) (segs : List Piece) :
    ∃ rest, spread (p :: segs) = p :: rest := by
  cases segs with
  | nil => exact ⟨[], rfl⟩
  | cons q segs => exact ⟨_, spread_cons_cons p q segs⟩

/-- Nothing but blanks is added. -/
theorem mem_spread {segs : List Piece} {p : Piece} (h : p ∈ spread segs) :
    p = .blank [' '] ∨ p ∈ segs := by
  induction segs with
  | nil => cases h
  | cons q segs ih =>
    cases segs with
    | nil => exact Or.inr h
    | cons r segs =>
      rw [spread_cons_cons, List.mem_cons, List.mem_cons] at h
      rcases h with rfl | rfl | h
      · exact Or.inr List.mem_cons_self
      · exact Or.inl rfl
      · exact (ih h).imp_right (List.mem_cons_of_mem _)

theorem mem_written_spread {segs : List Piece} {c : Char} (h : c ∈ written (spread segs)) :
    c = ' ' ∨ c ∈ written segs := by
  obtain ⟨p, hp, hc⟩ := List.mem_flatMap.mp h
  rcases mem_spread hp with rfl | hp
  · exact Or.inl (List.mem_singleton.mp hc)
  · exact Or.inr (List.mem_flatMap.mpr ⟨p, hp, hc⟩)

theorem mem_written_lexemes {segs : List Piece} {c : Char} (h : c ∈ written (lexemes segs)) :
    c ∈ written segs := by
  obtain ⟨p, hp, hc⟩ := List.mem_flatMap.mp h
  exact List.mem_flatMap.mpr ⟨p, (List.mem_filter.mp hp).1, hc⟩

/-- Code that begins with a lexeme does not begin with a blank. -/
theorem Segmented.visible_of_isLexeme {code : List Char} {p : Piece} {segs : List Piece}
    (h : Segmented code (p :: segs)) (hp : p.isLexeme = true) :
    ∀ c, code.head? = some c → isBlank c = false := by
  cases h with
  | blank => cases hp
  | stray => cases hp
  | @lexeme kind found rest _ visible first _ =>
    intro c hc
    refine visible c ?_
    cases found with
    | nil => exact absurd rfl (firstLexeme?_eq_some first).2.1
    | cons d found => exact hc

/-- The lexemes of code, written with one blank between them, are cut as before. -/
theorem Segmented.respace {code : List Char} {segs : List Piece} (h : Segmented code segs) :
    Segmented (written (spread (lexemes segs))) (spread (lexemes segs)) := by
  -- A string reads on to the last quote of its line. It stays the same because each
  -- quote behind it in the new text was behind it in the old one.
  induction h with
  | nil => exact .nil
  | blank _ _ _ _ ih => exact ih
  | stray _ _ _ ih => exact ih
  | @lexeme kind found rest segs visible first tail ih =>
    have hcons : lexemes (.lexeme kind found :: segs) = .lexeme kind found :: lexemes segs := rfl
    rw [hcons]
    cases hl : lexemes segs with
    | nil =>
      exact .lexeme visible (firstLexeme?_respace first (fun _ => nofun) nofun) .nil
    | cons q others =>
      rw [hl] at ih
      rw [spread_cons_cons, written_cons, written_cons]
      have hq : q ∈ lexemes segs := by
        rw [hl]
        exact List.mem_cons_self
      have hvisible : ∀ c, (written (spread (q :: others))).head? = some c → isBlank c = false := by
        obtain ⟨more, hspread⟩ := exists_spread_cons q others
        rw [hspread] at ih ⊢
        exact ih.visible_of_isLexeme (List.mem_filter.mp hq).2
      have hquote : '"' ∈ [' '] ++ written (spread (q :: others)) → '"' ∈ rest := by
        intro hm
        rcases List.mem_append.mp hm with hm | hm
        · exact absurd (List.mem_singleton.mp hm) (by decide)
        · rcases mem_written_spread hm with hm | hm
          · exact absurd hm (by decide)
          · rw [← hl] at hm
            rw [← tail.flatMap_text]
            exact mem_written_lexemes hm
      have hblank : BlankNext ([' '] ++ written (spread (q :: others))) := by
        intro c hc
        exact (Option.some.inj hc).symm
      refine .lexeme visible (firstLexeme?_respace first hblank hquote) ?_
      refine .blank (List.cons_ne_nil _ _) (fun c hc => ?_) hvisible ih
      rw [List.mem_singleton.mp hc]
      rfl

end ScopeLex
