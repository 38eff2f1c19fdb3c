import ScopeLex.Proofs.Token.Lexeme

/-!
# Other classes of word characters

Which characters make words is settled by a table. Here any class takes the place of
the table. The patterns name ASCII characters only, so that a match depends on the
others through the class alone: in the *plain* form of a text two of them stand for all,
one that the table holds and one that it does not, and the table does to the plain form
what the class does to the text.

* `stepsBy_isWord`, `firstLexemeBy?_isWord`: the table is one of the classes.
* `stepsBy_eq`: one step of a match, through the plain form.
* `firstMatchBy?_eq`, `lexemeBy?_eq`, `firstLexemeBy?_eq`: whole matches.
-/
namespace ScopeLex

open Text (isWord isBoundary isWord_of_ascii)

/-! ## Matching for a class -/

namespace Regex

/-- The ways to go on where `word` tells which characters make words. -/
def stepsBy (word : Char → Bool) (before next : Option Char) : Regex → List Step
  | .empty => [.stop]
  | .one set => if next.any set.contains then [.take .empty] else []
  | .boundary => if before.any word != next.any word then [.stop] else []
  | .seq first second =>
    (first.stepsBy word before next).flatMap fun
      | .stop => second.stepsBy word before next
      | .take rest => [.take (rest.andThen second)]
  | .alt first second => first.stepsBy word before next ++ second.stepsBy word before next
  | .group body => body.stepsBy word before next
  | .loop body least most greedy =>
    let again :=
      if most = some 0 then []
      else (body.stepsBy word before next).filterMap
        (Step.again? (.loop body (least - 1) (most.map (· - 1)) greedy))
    let leave := if least = 0 then [Step.stop] else []
    if greedy then again ++ leave else leave ++ again

/-- The number of characters taken, on the first way that leads to the end. -/
def firstMatchBy? (word : Char → Bool) (before : Option Char) : List Char → Regex → Option Nat
  | [], r => (r.stepsBy word before none).findSome? (Step.length? fun _ => none)
  | c :: text, r =>
    (r.stepsBy word before (some c)).findSome? (Step.length? (firstMatchBy? word (some c) text))

/-- The table is one of the classes. -/
theorem stepsBy_isWord (before next : Option Char) (r : Regex) :
    r.stepsBy isWord before next = r.steps before next := by
  induction r with
  | empty => rfl
  | one set => rfl
  | boundary => rfl
  | seq first second ih ih' => rw [stepsBy, ih, ih']; rfl
  | alt first second ih ih' => rw [stepsBy, ih, ih']; rfl
  | group body ih => exact ih
  | loop body least most greedy ih => rw [stepsBy, ih]; rfl

theorem firstMatchBy?_isWord (before : Option Char) (text : List Char) (r : Regex) :
    firstMatchBy? isWord before text r = firstMatch? before text r := by
  induction text generalizing before r with
  | nil => simp only [firstMatchBy?, firstMatch?, stepsBy_isWord]
  | cons c text ih => simp only [firstMatchBy?, firstMatch?, stepsBy_isWord, funext (ih (some c))]

end Regex

/-- The lexeme at the start of `text` where `word` tells which characters make words. -/
def Pattern.lexemeBy? (word : Char → Bool) (p : Pattern) (text : List Char) :
    Option (List Char) :=
  ((p.regex.firstMatchBy? word none text).filter (0 < ·)).map (text.take ·)

/-- Kind and lexeme of the first pattern that matches. -/
def firstLexemeBy? (word : Char → Bool) (text : List Char) : Option (TokenKind × List Char) :=
  patterns.findSome? fun p => (p.lexemeBy? word text).map (p.kind, ·)

theorem lexemeBy?_isWord (p : Pattern) (text : List Char) :
    p.lexemeBy? isWord text = p.lexeme? text := by
  rw [Pattern.lexemeBy?, Regex.firstMatchBy?_isWord, Regex.firstMatch?_eq_head?, lexeme?_eq]

theorem firstLexemeBy?_isWord (text : List Char) :
    firstLexemeBy? isWord text = firstLexeme? text := by
  simp only [firstLexemeBy?, firstLexeme?, lexemeBy?_isWord]

/-! ## Patterns that name ASCII characters -/

namespace CharSet

/-- Every character that is told from others is an ASCII character. -/
def namesAscii : CharSet → Bool
  | .just c => c.toNat < 128
  | .inLine | .anything => true
  | .within ranges | .outside ranges => ranges.all fun r => r.2.toNat < 128

theorem inRanges_of_not_ascii {ranges : List (Char × Char)}
    (h : ranges.all (fun r => r.2.toNat < 128) = true) {c : Char} (hc : 128 ≤ c.toNat) :
    inRanges ranges c = false := by
  refine List.any_eq_false.mpr fun r hr hin => ?_
  have hr := List.all_eq_true.mp h r hr
  simp only [Bool.and_eq_true, decide_eq_true_eq, Char.le_def, UInt32.le_iff_toNat_le] at hin hr
  have : c.toNat ≤ r.2.toNat := hin.2
  omega

/-- The others are all alike. -/
theorem contains_of_not_ascii {set : CharSet} (h : set.namesAscii = true) {c d : Char}
    (hc : 128 ≤ c.toNat) (hd : 128 ≤ d.toNat) : set.contains c = set.contains d := by
  cases set with
  | just e =>
    have he : e.toNat < 128 := of_decide_eq_true h
    have hne : ∀ {a : Char}, 128 ≤ a.toNat → (a == e) = false := by
      intro a ha
      rw [beq_eq_false_iff_ne]
      rintro rfl
      omega
    rw [contains, contains, hne hc, hne hd]
  | inLine =>
    have hne : ∀ {a : Char}, 128 ≤ a.toNat → (a != '\n') = true := by
      intro a ha
      rw [bne_iff_ne]
      rintro rfl
      simp at ha
    rw [contains, contains, hne hc, hne hd]
  | anything => rfl
  | within ranges => simp [contains, inRanges_of_not_ascii h hc, inRanges_of_not_ascii h hd]
  | outside ranges => simp [contains, inRanges_of_not_ascii h hc, inRanges_of_not_ascii h hd]

end CharSet

namespace Regex

/-- So it is in every set of the pattern. -/
def namesAscii : Regex → Bool
  | .empty | .boundary => true
  | .one set => set.namesAscii
  | .seq first second | .alt first second => first.namesAscii && second.namesAscii
  | .group body | .loop body _ _ _ => body.namesAscii

theorem namesAscii_andThen {r s : Regex} (hr : r.namesAscii = true) (hs : s.namesAscii = true) :
    (r.andThen s).namesAscii = true := by
  cases r <;> simp_all [andThen, namesAscii]

/-- What is left of the pattern behind a step names no others. -/
theorem namesAscii_of_take {r rest : Regex} {before next : Option Char}
    (h : r.namesAscii = true) (hm : .take rest ∈ r.steps before next) :
    rest.namesAscii = true := by
  induction r generalizing rest with
  | empty => simp [steps] at hm
  | one set =>
    unfold steps at hm
    split at hm
    · cases List.mem_singleton.mp hm
      rfl
    · cases hm
  | boundary =>
    unfold steps at hm
    split at hm <;> simp at hm
  | seq first second ih ih' =>
    simp only [namesAscii, Bool.and_eq_true] at h
    rw [steps, List.mem_flatMap] at hm
    obtain ⟨step, hstep, hm⟩ := hm
    cases step with
    | stop => exact ih' h.2 hm
    | take r =>
      cases List.mem_singleton.mp hm
      exact namesAscii_andThen (ih h.1 hstep) h.2
  | alt first second ih ih' =>
    simp only [namesAscii, Bool.and_eq_true] at h
    rcases List.mem_append.mp hm with hm | hm
    · exact ih h.1 hm
    · exact ih' h.2 hm
  | group body ih => exact ih h hm
  | loop body least most greedy ih =>
    have hleave : .take rest ∉ if least = 0 then [Step.stop] else [] := by
      split <;> simp
    have hagain : .take rest ∈ (body.steps before next).filterMap
        (Step.again? (.loop body (least - 1) (most.map (· - 1)) greedy)) := by
      rw [steps_loop] at hm
      by_cases hmost : most = some 0
      · cases greedy <;> simp [hmost, hleave] at hm
      · cases greedy <;> simpa only [hmost, hleave, Bool.false_eq_true, if_true, if_false,
          List.mem_append, or_false, false_or] using hm
    obtain ⟨step, hstep, he⟩ := List.mem_filterMap.mp hagain
    cases step with
    | stop => cases he
    | take r =>
      cases he
      exact namesAscii_andThen (ih h hstep) h

end Regex

theorem namesAscii_of_mem_patterns : ∀ p ∈ patterns, p.regex.namesAscii = true := by decide

/-! ## Plain texts -/

section
variable {word : Char → Bool}

/-- An ASCII character as it is; for the others, one that makes words or one that does
not. -/
def plain (word : Char → Bool) (c : Char) : Char :=
  if c.toNat < 128 then c else if word c then '\u00aa' else '\u00d7'

theorem plain_of_ascii {c : Char} (h : c.toNat < 128) : plain word c = c := if_pos h

theorem contains_plain {set : CharSet} (h : set.namesAscii = true) (c : Char) :
    set.contains (plain word c) = set.contains c := by
  by_cases hc : c.toNat < 128
  · rw [plain_of_ascii hc]
  · refine CharSet.contains_of_not_ascii h ?_ (by omega)
    unfold plain
    rw [if_neg hc]
    split <;> decide

/-- The class `word` holds the ASCII characters that the table holds. -/
def AsciiWords (word : Char → Bool) : Prop :=
  ∀ c : Char, c.toNat < 128 → word c = (c.isAlphanum || c == '_')

theorem asciiWords_isWord : AsciiWords isWord := fun _ => isWord_of_ascii

/-- The table does to the plain character what the class does to the character. -/
theorem isWord_plain (ascii : AsciiWords word) (c : Char) : isWord (plain word c) = word c := by
  by_cases hc : c.toNat < 128
  · rw [plain_of_ascii hc, isWord_of_ascii hc, ascii c hc]
  · have hin : isWord '\u00aa' = true := by decide +kernel
    have hout : isWord '\u00d7' = false := by decide +kernel
    rw [plain, if_neg hc]
    cases word c
    · exact hout
    · exact hin

namespace Regex

/-- A step of a match is a step of a match of the plain text. -/
theorem stepsBy_eq (ascii : AsciiWords word) {r : Regex} (h : r.namesAscii = true)
    (before next : Option Char) :
    r.stepsBy word before next = r.steps (before.map (plain word)) (next.map (plain word)) := by
  induction r with
  | empty => rfl
  | one set => simp only [stepsBy, steps, Option.any_map, contains_plain h]
  | boundary => simp only [stepsBy, steps, isBoundary, Option.any_map, isWord_plain ascii]
  | seq first second ih ih' =>
    simp only [namesAscii, Bool.and_eq_true] at h
    rw [stepsBy, ih h.1, ih' h.2]
    rfl
  | alt first second ih ih' =>
    simp only [namesAscii, Bool.and_eq_true] at h
    rw [stepsBy, ih h.1, ih' h.2]
    rfl
  | group body ih => exact ih h
  | loop body least most greedy ih =>
    rw [stepsBy, ih h]
    rfl

/-- Steps lead to the same if what is left behind each does. -/
theorem findSome?_length?_congr {next : List Step} {go go' : Regex → Option Nat}
    (h : ∀ rest, .take rest ∈ next → go rest = go' rest) :
    next.findSome? (Step.length? go) = next.findSome? (Step.length? go') := by
  induction next with
  | nil => rfl
  | cons step next ih =>
    have hstep : step.length? go = step.length? go' := by
      cases step with
      | stop => rfl
      | take rest => rw [Step.length?, Step.length?, h rest List.mem_cons_self]
    rw [List.findSome?_cons, List.findSome?_cons, hstep,
      ih fun rest hr => h rest (List.mem_cons_of_mem _ hr)]

/-- A match takes as much as the match of the plain text. -/
theorem firstMatchBy?_eq (ascii : AsciiWords word) {r : Regex} (h : r.namesAscii = true)
    (before : Option Char) (text : List Char) :
    firstMatchBy? word before text r =
      firstMatch? (before.map (plain word)) (text.map (plain word)) r := by
  induction text generalizing before r with
  | nil =>
    rw [firstMatchBy?, stepsBy_eq ascii h]
    rfl
  | cons c text ih =>
    rw [firstMatchBy?, stepsBy_eq ascii h]
    exact findSome?_length?_congr fun rest hr => ih (namesAscii_of_take h hr) (some c)

end Regex

/-- A lexeme is as long as that of the plain text. -/
theorem lexemeBy?_eq (ascii : AsciiWords word) {p : Pattern} (h : p.regex.namesAscii = true)
    (text : List Char) :
    p.lexemeBy? word text =
      (p.lexeme? (text.map (plain word))).map fun found => text.take found.length := by
  rw [Pattern.lexemeBy?, Regex.firstMatchBy?_eq ascii h, lexeme?_eq, ← Regex.firstMatch?_eq_head?,
    Option.map_map]
  refine Option.map_congr fun n hn => ?_
  have hle := Regex.firstMatch?_le_length (Option.filter_eq_some_iff.mp hn).1
  rw [List.length_map] at hle
  simp [Nat.min_eq_left hle]

theorem firstLexemeBy?_eq (ascii : AsciiWords word) (text : List Char) :
    firstLexemeBy? word text =
      (firstLexeme? (text.map (plain word))).map fun found =>
        (found.1, text.take found.2.length) := by
  have each : ∀ l : List Pattern, (∀ p ∈ l, p.regex.namesAscii = true) →
      l.findSome? (fun p => (p.lexemeBy? word text).map (p.kind, ·)) =
        (l.findSome? fun p => (p.lexeme? (text.map (plain word))).map (p.kind, ·)).map
          fun found => (found.1, text.take found.2.length) := by
    intro l hl
    induction l with
    | nil => rfl
    | cons p l ih =>
      rw [List.findSome?_cons, List.findSome?_cons, lexemeBy?_eq ascii (hl p List.mem_cons_self),
        ih fun q hq => hl q (List.mem_cons_of_mem _ hq)]
      cases p.lexeme? (text.map (plain word)) <;> rfl
  exact each patterns namesAscii_of_mem_patterns

end

end ScopeLex
