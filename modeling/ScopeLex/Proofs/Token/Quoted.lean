import ScopeLex.Proofs.Token.Lexeme

/-!
# The extent of quoted lexemes

A string is read from left to right, a backslash together with the character
after it, up to the first quote that no backslash protects. If there is none, the
search goes back to the last quote of the text.

* `lexeme?_stringLiteral`: where a string ends.
* `lexeme?_charLiteral`: an escaped character is tried before a plain one.
-/
namespace ScopeLex

open Regex (ways waysAfter char star ways_seq ways_alt ways_group ways_one_cons ways_one_nil
  ways_char_cons ways_char_nil ways_seq_star head?_waysAfter waysAfter_char)

/-! ## Quotes in a text -/

/-- The place of the first quote that no backslash protects; the first character
is protected if `escaped`. -/
def freeQuote? (escaped : Bool) : List Char → Option Nat
  | [] => none
  | c :: text =>
    if escaped then (freeQuote? false text).map (· + 1)
    else if c = '"' then some 0
    else (freeQuote? (c == '\\') text).map (· + 1)

/-- The place of the last quote. -/
def lastQuote? : List Char → Option Nat
  | [] => none
  | c :: text => ((lastQuote? text).map (· + 1)).or (if c = '"' then some 0 else none)

/-- The place of the quote that closes a string, whose text begins here. -/
def closingQuote? (text : List Char) : Option Nat := (freeQuote? false text).or (lastQuote? text)

theorem lastQuote?_eq_none {text : List Char} : lastQuote? text = none ↔ '"' ∉ text := by
  induction text with
  | nil => simp [lastQuote?]
  | cons c text ih =>
    rw [lastQuote?, Option.or_eq_none_iff, Option.map_eq_none_iff, ih, List.mem_cons]
    by_cases hc : c = '"'
    · simp [hc]
    · simp [hc, Ne.symm hc]

theorem freeQuote?_eq_none {text : List Char} (h : '"' ∉ text) (escaped : Bool) :
    freeQuote? escaped text = none := by
  induction text generalizing escaped with
  | nil => rfl
  | cons c text ih =>
    rw [List.mem_cons, not_or] at h
    obtain ⟨hc, ht⟩ := h
    unfold freeQuote?
    rw [ih ht, ih ht, if_neg (Ne.symm hc)]
    split <;> rfl

theorem closingQuote?_eq_none {text : List Char} (h : '"' ∉ text) : closingQuote? text = none := by
  rw [closingQuote?, freeQuote?_eq_none h, lastQuote?_eq_none.mpr h]
  rfl

theorem freeQuote?_lt {escaped : Bool} {text : List Char} {n : Nat}
    (h : freeQuote? escaped text = some n) : n < text.length := by
  induction text generalizing escaped n with
  | nil => cases h
  | cons c text ih =>
    unfold freeQuote? at h
    split at h
    · obtain ⟨m, hm, rfl⟩ := Option.map_eq_some_iff.mp h
      exact Nat.succ_lt_succ (ih hm)
    · split at h
      · cases h
        exact Nat.succ_pos _
      · obtain ⟨m, hm, rfl⟩ := Option.map_eq_some_iff.mp h
        exact Nat.succ_lt_succ (ih hm)

theorem lastQuote?_lt {text : List Char} {n : Nat} (h : lastQuote? text = some n) :
    n < text.length := by
  induction text generalizing n with
  | nil => cases h
  | cons c text ih =>
    rw [lastQuote?, Option.or_eq_some_iff] at h
    rcases h with h | ⟨-, h⟩
    · obtain ⟨m, hm, rfl⟩ := Option.map_eq_some_iff.mp h
      exact Nat.succ_lt_succ (ih hm)
    · obtain ⟨-, he⟩ := Option.ite_none_right_eq_some.mp h
      cases he
      exact Nat.succ_pos _

theorem closingQuote?_lt {text : List Char} {n : Nat} (h : closingQuote? text = some n) :
    n < text.length := by
  rw [closingQuote?, Option.or_eq_some_iff] at h
  rcases h with h | ⟨-, h⟩
  · exact freeQuote?_lt h
  · exact lastQuote?_lt h

theorem closingQuote?_quote (text : List Char) : closingQuote? ('"' :: text) = some 0 := rfl

/-- The character behind a backslash is passed with it. -/
theorem freeQuote?_pair (d : Char) (text : List Char) :
    freeQuote? false ('\\' :: d :: text) = (freeQuote? false text).map (· + 2) := by
  simp [freeQuote?, Function.comp_def]

theorem freeQuote?_plain {c : Char} {text : List Char} (hc : c ≠ '"')
    (hpair : ¬ (c = '\\' ∧ text.head?.any (· != '\n'))) :
    freeQuote? false (c :: text) = (freeQuote? false text).map (· + 1) := by
  by_cases hb : c = '\\'
  · cases text with
    | nil => simp [freeQuote?, hb]
    | cons d text =>
      have hd : d = '\n' := by simpa [hb] using hpair
      simp [freeQuote?, hb, hd]
  · have hbeq : (c == '\\') = false := beq_eq_false_iff_ne.mpr hb
    simp [freeQuote?, hc, hbeq]

/-- A pair is read as one, unless no quote is found that way. -/
theorem closingQuote?_pair (d : Char) (text : List Char) :
    closingQuote? ('\\' :: d :: text) =
      ((closingQuote? text).map (· + 2)).or ((closingQuote? (d :: text)).map (· + 1)) := by
  have hlast : lastQuote? ('\\' :: d :: text) = (lastQuote? (d :: text)).map (· + 1) := by
    rw [lastQuote?, if_neg (by decide), Option.or_none]
  have hunfold : closingQuote? ('\\' :: d :: text) =
      ((freeQuote? false text).map (· + 2)).or ((lastQuote? (d :: text)).map (· + 1)) := by
    rw [closingQuote?, freeQuote?_pair, hlast]
  rw [hunfold]
  cases hf : freeQuote? false text with
  | some n => simp [closingQuote?, hf]
  | none =>
    cases hl : lastQuote? text with
    | some n => simp [closingQuote?, hf, hl, lastQuote?]
    | none =>
      have hclosing : closingQuote? text = none := by rw [closingQuote?, hf, hl]; rfl
      rw [hclosing, lastQuote?, hl]
      by_cases hd : d = '"'
      · subst hd
        rfl
      · have hn : '"' ∉ d :: text := by
          rw [List.mem_cons, not_or]
          exact ⟨Ne.symm hd, lastQuote?_eq_none.mp hl⟩
        rw [closingQuote?_eq_none hn, if_neg hd]
        rfl

/-- Whatever is neither a quote nor the start of a pair is passed. -/
theorem closingQuote?_plain {c : Char} {text : List Char} (hc : c ≠ '"')
    (hpair : ¬ (c = '\\' ∧ text.head?.any (· != '\n'))) :
    closingQuote? (c :: text) = (closingQuote? text).map (· + 1) := by
  rw [closingQuote?, freeQuote?_plain hc hpair, lastQuote?, if_neg hc, Option.or_none,
    closingQuote?, Option.map_or]

/-! ## Quoted characters -/

/-- A backslash and the character after it are tried before the backslash alone. -/
theorem ways_quotedChar_cons (before : Option Char) (quote c : Char) (text : List Char) :
    ways before (c :: text) (Pattern.quotedChar quote) =
      (if c = '\\' ∧ text.head?.any (· != '\n') then [2] else []) ++
        if c = quote then [] else [1] := by
  have hpair : ways before (c :: text) (.seq (char '\\') (.one .inLine)) =
      if c = '\\' ∧ text.head?.any (· != '\n') then [2] else [] := by
    rw [ways_seq, ways_char_cons]
    by_cases hc : c = '\\'
    · cases text with
      | nil => simp [hc, waysAfter, ways_one_nil]
      | cons d text =>
        by_cases hd : d = '\n' <;> simp [hc, hd, waysAfter, ways_one_cons]
    · simp [hc]
  have hplain : ways before (c :: text) (.one (.except quote)) = if c = quote then [] else [1] := by
    rw [ways_one_cons, CharSet.contains_except]
    by_cases hc : c = quote <;> simp [hc]
  rw [Pattern.quotedChar, ways_group, ways_alt, hpair, hplain]

theorem ways_quotedChar_nil (before : Option Char) (quote : Char) :
    ways before [] (Pattern.quotedChar quote) = [] := by
  rw [Pattern.quotedChar, ways_group, ways_alt, ways_seq, ways_char_nil, ways_one_nil]
  rfl

/-! ## Strings -/

/-- What stands behind the first quote of a string. -/
def stringTail : Regex := .seq (star (Pattern.quotedChar '"')) (char '"')

/-- The best match of a string ends at the quote that closes it. -/
theorem head?_ways_stringTail (before : Option Char) (text : List Char) :
    (ways before text stringTail).head? = (closingQuote? text).map (· + 1) := by
  -- A pair is tried first, and then its backslash alone, so that the recursion goes
  -- two characters back as well as one.
  match text with
  | [] =>
    rw [stringTail, ways_seq_star, ways_quotedChar_nil, ways_char_nil]
    rfl
  | c :: text =>
    have ih := fun b => head?_ways_stringTail b text
    rw [stringTail, ways_seq_star, ways_quotedChar_cons, ways_char_cons, ← stringTail]
    by_cases hq : c = '"'
    · subst hq
      rw [closingQuote?_quote]
      rfl
    by_cases hpair : c = '\\' ∧ text.head?.any (· != '\n')
    · rw [if_pos hpair, if_neg hq, if_neg hq]
      obtain ⟨rfl, hd⟩ := hpair
      cases text with
      | nil => cases hd
      | cons d text =>
        have ih' := fun b => head?_ways_stringTail b text
        rw [closingQuote?_pair]
        simp only [List.singleton_append, List.filter_cons, Nat.lt_add_one, Nat.zero_lt_succ,
          decide_true, if_true, List.filter_nil, List.flatMap_cons, List.flatMap_nil,
          List.append_nil, List.head?_append, head?_waysAfter, List.drop_succ_cons, List.drop_zero,
          ih, ih', Option.map_or, Option.map_map, Function.comp_def]
        simp only [Nat.add_comm, Nat.add_left_comm]
    · rw [if_neg hpair, if_neg hq, if_neg hq, closingQuote?_plain hq hpair]
      simp [head?_waysAfter, ih, Function.comp_def, Nat.add_comm]
termination_by text.length

/-! ## Lexemes -/

/-- Behind the opening quote. -/
theorem lexeme?_quoted (kind : TokenKind) (quote : Char) (inner : Regex) (text : List Char) :
    (Pattern.mk kind (Pattern.quoted quote inner)).lexeme? (quote :: text) =
      ((ways (some quote) text (.seq inner (char quote))).head?).map fun n =>
        quote :: text.take n := by
  have hways : ways none (quote :: text) (Pattern.quoted quote inner) =
      (ways (some quote) text (.seq inner (char quote))).map (1 + ·) := by
    rw [Pattern.quoted, ways_seq, ways_char_cons, if_pos rfl, List.flatMap_singleton]
    simp [waysAfter]
  rw [lexeme?_eq, hways, List.head?_map]
  cases (ways (some quote) text (.seq inner (char quote))).head? with
  | none => rfl
  | some n =>
    rw [Option.map_some, Nat.add_comm 1 n]
    rfl

/-- A quoted lexeme begins with its quote. -/
theorem lexeme?_quoted_of_ne (kind : TokenKind) {quote c : Char} (inner : Regex)
    (text : List Char) (h : c ≠ quote) :
    (Pattern.mk kind (Pattern.quoted quote inner)).lexeme? (c :: text) = none := by
  rw [lexeme?_eq, Pattern.quoted, ways_seq, ways_char_cons, if_neg h]
  rfl

/-- A quoted lexeme needs its opening quote. -/
theorem eq_cons_of_lexeme?_quoted {kind : TokenKind} {quote : Char} {inner : Regex}
    {text lexeme : List Char}
    (h : (Pattern.mk kind (Pattern.quoted quote inner)).lexeme? text = some lexeme) :
    ∃ rest, text = quote :: rest := by
  cases text with
  | nil =>
    obtain ⟨hne, hprefix⟩ := Pattern.lexeme?_eq_some h
    exact absurd (List.prefix_nil.mp hprefix) hne
  | cons c rest =>
    by_cases hc : c = quote
    · exact ⟨rest, by rw [hc]⟩
    · rw [lexeme?_quoted_of_ne kind inner rest hc] at h
      cases h

/-- A string ends at the quote that closes it. -/
theorem lexeme?_stringLiteral (text : List Char) :
    Pattern.stringLiteral.lexeme? ('"' :: text) =
      (closingQuote? text).map fun n => '"' :: text.take (n + 1) := by
  have h := lexeme?_quoted .stringLiteral '"' (star (Pattern.quotedChar '"')) text
  rw [← stringTail, head?_ways_stringTail, Option.map_map] at h
  exact h

/-- The number of characters of a character literal behind its first quote. -/
def charEnd? : List Char → Option Nat
  | [] => none
  | c :: text =>
    if (c = '\\' ∧ text.head?.any (· != '\n')) ∧ text[1]? = some '\'' then some 3
    else if c ≠ '\'' ∧ text[0]? = some '\'' then some 2
    else none

/-- An escaped character is tried before a plain one. -/
theorem lexeme?_charLiteral (text : List Char) :
    Pattern.charLiteral.lexeme? ('\'' :: text) =
      (charEnd? text).map fun n => '\'' :: text.take n := by
  have h := lexeme?_quoted .charLiteral '\'' (Pattern.quotedChar '\'') text
  rw [Pattern.charLiteral, h]
  congr 1
  rw [ways_seq]
  cases text with
  | nil => rw [ways_quotedChar_nil]; rfl
  | cons c text =>
    rw [ways_quotedChar_cons, List.flatMap_append, List.head?_append]
    have hpair : ((if c = '\\' ∧ text.head?.any (· != '\n') then [2] else []).flatMap
        (waysAfter (some '\'') (c :: text) (char '\''))).head? =
        if (c = '\\' ∧ text.head?.any (· != '\n')) ∧ text[1]? = some '\'' then some 3
        else none := by
      by_cases hp : c = '\\' ∧ text.head?.any (· != '\n') <;>
        by_cases he : text[1]? = some '\'' <;> simp [hp, he, waysAfter_char]
    have hplain : ((if c = '\'' then [] else [1]).flatMap
        (waysAfter (some '\'') (c :: text) (char '\''))).head? =
        if c ≠ '\'' ∧ text[0]? = some '\'' then some 2 else none := by
      by_cases hc : c = '\'' <;> by_cases he : text[0]? = some '\'' <;>
        simp [hc, he, waysAfter_char]
    rw [hpair, hplain, charEnd?]
    split <;> rfl

/-! ## What stands behind a lexeme -/

/-- What is read next is protected once `text` has been read. -/
def protectsNext (escaped : Bool) : List Char → Bool
  | [] => escaped
  | c :: text => protectsNext (!escaped && c == '\\') text

theorem freeQuote?_append (escaped : Bool) (a b : List Char) :
    freeQuote? escaped (a ++ b) = (freeQuote? escaped a).or
      ((freeQuote? (protectsNext escaped a) b).map (· + a.length)) := by
  induction a generalizing escaped with
  | nil => simp [freeQuote?, protectsNext]
  | cons c a ih =>
    rw [List.cons_append, freeQuote?, freeQuote?, protectsNext]
    cases escaped with
    | true => simp [ih, Option.map_or, Function.comp_def, Nat.add_assoc]
    | false =>
      by_cases hc : c = '"'
      · simp [hc]
      · simp [hc, ih, Option.map_or, Function.comp_def, Nat.add_assoc]

theorem lastQuote?_append (a b : List Char) :
    lastQuote? (a ++ b) = ((lastQuote? b).map (· + a.length)).or (lastQuote? a) := by
  induction a with
  | nil => simp [lastQuote?]
  | cons c a ih =>
    rw [List.cons_append, lastQuote?, ih, lastQuote?, Option.map_or, Option.map_map,
      Option.or_assoc]
    simp [Function.comp_def, Nat.add_assoc]

/-- The closing quote stays the same behind another text, unless that is the first
to have a quote. -/
theorem closingQuote?_append_of_some {a rest follow : List Char} {n : Nat}
    (h : closingQuote? (a ++ rest) = some n) (hn : n < a.length)
    (hq : '"' ∈ follow → '"' ∈ rest) : closingQuote? (a ++ follow) = some n := by
  unfold closingQuote? at h ⊢
  rw [freeQuote?_append] at h ⊢
  cases hf : freeQuote? false a with
  | some m =>
    rw [hf] at h
    exact h
  | none =>
    rw [hf, Option.none_or, lastQuote?_append] at h
    cases hr : freeQuote? (protectsNext false a) rest with
    | some m =>
      rw [hr, Option.map_some, Option.some_or, Option.some.injEq] at h
      omega
    | none =>
      rw [hr, Option.map_none, Option.none_or] at h
      cases hl : lastQuote? rest with
      | some m =>
        rw [hl, Option.map_some, Option.some_or, Option.some.injEq] at h
        omega
      | none =>
        rw [hl, Option.map_none, Option.none_or] at h
        have hfollow : '"' ∉ follow := fun hm => lastQuote?_eq_none.mp hl (hq hm)
        rw [freeQuote?_eq_none hfollow, lastQuote?_append, lastQuote?_eq_none.mpr hfollow]
        exact h

theorem charEnd?_le {text : List Char} {n : Nat} (h : charEnd? text = some n) :
    n ≤ text.length := by
  unfold charEnd? at h
  split at h
  · cases h
  · rename_i c text
    split at h
    · rename_i hp
      obtain ⟨hlt, -⟩ := List.getElem?_eq_some_iff.mp hp.2
      cases h
      exact Nat.succ_le_succ hlt
    · obtain ⟨hp, he⟩ := Option.ite_none_right_eq_some.mp h
      obtain ⟨hlt, -⟩ := List.getElem?_eq_some_iff.mp hp.2
      cases he
      exact Nat.succ_le_succ hlt

theorem two_or_three_of_charEnd? {text : List Char} {n : Nat} (h : charEnd? text = some n) :
    n = 2 ∨ n = 3 := by
  unfold charEnd? at h
  split at h
  · cases h
  · split at h
    · cases h
      exact Or.inr rfl
    · obtain ⟨-, he⟩ := Option.ite_none_right_eq_some.mp h
      cases he
      exact Or.inl rfl

/-- A character literal stays the same unless an apostrophe comes to stand behind
it. -/
theorem charEnd?_append_of_some {a rest follow : List Char}
    (h : charEnd? (a ++ rest) = some a.length) (hq : follow.head? ≠ some '\'') :
    charEnd? (a ++ follow) = some a.length := by
  rcases two_or_three_of_charEnd? h with hlen | hlen
  · match a, hlen with
    | [c, d], _ =>
      have hfollow : follow[0]? ≠ some '\'' := by rwa [← List.head?_eq_getElem?]
      simp only [List.cons_append, List.nil_append, charEnd?] at h ⊢
      rw [if_neg (fun hp => hfollow hp.2)]
      split at h
      · cases h
      · exact h
  · match a, hlen with
    | [c, d, e], _ =>
      simp only [List.cons_append, List.nil_append, charEnd?] at h ⊢
      split at h
      · rename_i hp
        exact if_pos hp
      · split at h <;> cases h

end ScopeLex
