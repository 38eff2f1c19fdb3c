import ScopeLex.Comment
import ScopeLex.Proofs.Comment.Marker
import ScopeLex.Proofs.Regex.Ways

/-!
# Which block comments a text has

A text is read by places: an opener `/*` at a place begins a comment if a
closer `*/` follows at least two characters further on, and the comment ends
with the first such closer. `Scanned` is the scanner that takes, from the end
of the previous comment, the first opener that can be closed.

* `matchLength?_regex_iff`: the pattern matches exactly a comment.
* `all_eq_map_ofSpan`: the comments found are those of the scanner.
* `Scanned.unique`, `Scanned.pairwise`: the scanner has one answer, its
  comments ascend and do not overlap.
* `Scanned.overlaps`: it passes no opener that can be closed.
-/
namespace ScopeLex

open Text (byteSize byteSize_append lineAt? lineAt?_append)

/-! ## Openers and closers -/

/-- `/*` stands at place `i`. -/
def Opens (text : List Char) (i : Nat) : Prop := ['/', '*'] <+: text.drop i

/-- `*/` stands at place `i`. -/
def Closes (text : List Char) (i : Nat) : Prop := ['*', '/'] <+: text.drop i

instance (text : List Char) (i : Nat) : Decidable (Opens text i) :=
  inferInstanceAs (Decidable (_ <+: _))

/-- `/*` stands at place `i` and some `*/` behind it. -/
def Closable (text : List Char) (i : Nat) : Prop :=
  Opens text i ∧ ∃ j, i + 2 ≤ j ∧ Closes text j

/-- A comment begins at place `i` and ends before place `e`: the closer in
front of `e` is the first that shares no character with the opener. -/
structure IsCommentAt (text : List Char) (i e : Nat) : Prop where
  opens : Opens text i
  long : i + 4 ≤ e
  closes : Closes text (e - 2)
  first : ∀ j, i + 2 ≤ j → j + 2 < e → ¬ Closes text j

theorem opens_drop {text : List Char} {p i : Nat} : Opens (text.drop p) i ↔ Opens text (p + i) := by
  rw [Opens, Opens, List.drop_drop]

theorem closes_drop {text : List Char} {p i : Nat} :
    Closes (text.drop p) i ↔ Closes text (p + i) := by
  rw [Closes, Closes, List.drop_drop]

theorem IsCommentAt.closable {text : List Char} {i e : Nat} (h : IsCommentAt text i e) :
    Closable text i :=
  ⟨h.opens, e - 2, by have := h.long; omega, h.closes⟩

/-- A comment has one end only. -/
theorem IsCommentAt.end_unique {text : List Char} {i e e' : Nat} (h : IsCommentAt text i e)
    (h' : IsCommentAt text i e') : e = e' := by
  have hl := h.long
  have hl' := h'.long
  rcases Nat.lt_trichotomy e e' with hlt | rfl | hlt
  · exact absurd h.closes (h'.first _ (by omega) (by omega))
  · rfl
  · exact absurd h'.closes (h.first _ (by omega) (by omega))

theorem Closes.le_length {text : List Char} {i : Nat} (h : Closes text i) :
    i + 2 ≤ text.length := pair_le_length h

theorem IsCommentAt.le_length {text : List Char} {i e : Nat} (h : IsCommentAt text i e) :
    e ≤ text.length := by
  have := h.closes.le_length
  have := h.long
  omega

/-- A comment may be looked at from any place in front of it. -/
theorem isCommentAt_drop {text : List Char} {p i e : Nat} :
    IsCommentAt (text.drop p) i e ↔ IsCommentAt text (p + i) (p + e) := by
  constructor
  · intro hcomment
    obtain ⟨ho, hl, hc, hf⟩ := hcomment
    refine ⟨opens_drop.mp ho, by omega, ?_, ?_⟩
    · rw [show p + e - 2 = p + (e - 2) by omega]
      exact closes_drop.mp hc
    · intro j h1 h2 hj
      refine hf (j - p) (by omega) (by omega) (closes_drop.mpr ?_)
      rwa [show p + (j - p) = j by omega]
  · intro hcomment
    obtain ⟨ho, hl, hc, hf⟩ := hcomment
    refine ⟨opens_drop.mpr ho, by omega, closes_drop.mpr ?_, ?_⟩
    · rwa [show p + (e - 2) = p + e - 2 by omega]
    · intro j h1 h2 hj
      exact hf (p + j) (by omega) (by omega) (closes_drop.mp hj)

theorem closable_drop {text : List Char} {p i : Nat} :
    Closable (text.drop p) i ↔ Closable text (p + i) := by
  constructor
  · intro hclosable
    obtain ⟨ho, j, h1, hj⟩ := hclosable
    exact ⟨opens_drop.mp ho, p + j, by omega, closes_drop.mp hj⟩
  · intro hclosable
    obtain ⟨ho, j, h1, hj⟩ := hclosable
    refine ⟨opens_drop.mpr ho, j - p, by omega, closes_drop.mpr ?_⟩
    rwa [show p + (j - p) = j by omega]

/-! ## What the pattern matches -/

/-- How many characters stand in front of the first closer. -/
def firstClose? : List Char → Option Nat
  | [] => none
  | c :: text => if ['*', '/'] <+: c :: text then some 0 else (firstClose? text).map (· + 1)

theorem firstClose?_eq_some {text : List Char} {n : Nat} (h : firstClose? text = some n) :
    Closes text n ∧ ∀ j < n, ¬ Closes text j := by
  induction text generalizing n with
  | nil => cases h
  | cons c text ih =>
    rw [firstClose?] at h
    split at h
    · rename_i hp
      cases h
      exact ⟨hp, fun j hj => absurd hj (Nat.not_lt_zero j)⟩
    · rename_i hp
      obtain ⟨m, hm, rfl⟩ := Option.map_eq_some_iff.mp h
      obtain ⟨hc, hf⟩ := ih hm
      refine ⟨hc, fun j hj => ?_⟩
      cases j with
      | zero => exact hp
      | succ j => exact hf j (by omega)

theorem firstClose?_eq_none {text : List Char} (h : firstClose? text = none) (j : Nat) :
    ¬ Closes text j := by
  induction text generalizing j with
  | nil => simp [Closes]
  | cons c text ih =>
    rw [firstClose?] at h
    split at h
    · cases h
    · rename_i hp
      cases j with
      | zero => exact hp
      | succ j => exact ih (Option.map_eq_none_iff.mp h) j

open Regex in
/-- Behind its opener the pattern takes everything up to the first closer. -/
theorem head?_ways_close (before : Option Char) (text : List Char) :
    (ways before text (.seq (lazyStar (.one .anything)) (chars ['*', '/']))).head? =
      (firstClose? text).map (· + 2) := by
  induction text generalizing before with
  | nil => rw [ways_seq_lazyStar, ways_chars, ways_one_nil]; rfl
  | cons c text ih =>
    rw [ways_seq_lazyStar, ways_chars, ways_one_cons, firstClose?]
    split
    · rfl
    · have h := ih (some c)
      simp only [CharSet.contains_anything, if_true, List.nil_append]
      rw [show [1].filter (fun n => decide (0 < n)) = [1] from rfl, List.flatMap_singleton,
        waysAfter_cons, waysAfter_zero, List.head?_map, h]
      cases firstClose? text <;> rfl

namespace BlockComment

open Regex in
theorem matchLength?_regex (text : List Char) :
    regex.matchLength? text =
      if Opens text 0 then (firstClose? (text.drop 2)).map (· + 4) else none := by
  have ho : Opens text 0 ↔ ['/', '*'] <+: text := Iff.rfl
  rw [matchLength?_eq_head?, regex, ways_seq, ways_chars]
  simp only [ho]
  split
  · rw [List.flatMap_singleton, waysAfter, List.head?_map]
    simp only [List.length_cons, List.length_nil, head?_ways_close]
    cases firstClose? (text.drop 2) with
    | none => rfl
    | some n => simp only [Option.map_some]; congr 1; omega
  · rfl

/-- The pattern matches exactly a comment at the start of the text. -/
theorem matchLength?_regex_iff {text : List Char} {n : Nat} :
    regex.matchLength? text = some n ↔ IsCommentAt text 0 n := by
  rw [matchLength?_regex]
  constructor
  · intro h
    split at h
    · rename_i ho
      obtain ⟨m, hm, rfl⟩ := Option.map_eq_some_iff.mp h
      obtain ⟨hc, hf⟩ := firstClose?_eq_some hm
      rw [closes_drop] at hc
      refine ⟨ho, by omega, by rwa [show m + 4 - 2 = 2 + m by omega], fun j h1 h2 hj => ?_⟩
      refine hf (j - 2) (by omega) (closes_drop.mpr ?_)
      rwa [show 2 + (j - 2) = j by omega]
    · cases h
  · intro hcomment
    obtain ⟨ho, hl, hc, hf⟩ := hcomment
    rw [if_pos ho]
    have hc' : Closes (text.drop 2) (n - 4) := closes_drop.mpr (by
      rwa [show 2 + (n - 4) = n - 2 by omega])
    cases hm : firstClose? (text.drop 2) with
    | none => exact absurd hc' (firstClose?_eq_none hm _)
    | some m =>
      obtain ⟨hcm, hfm⟩ := firstClose?_eq_some hm
      have h1 : ¬ n - 4 < m := fun hlt => hfm _ hlt hc'
      have h2 : ¬ m < n - 4 := fun hlt =>
        hf (2 + m) (by omega) (by omega) (closes_drop.mp hcm)
      simp only [Option.map_some, Option.some.injEq]
      omega

theorem matchLength?_regex_eq_none {text : List Char} (h : regex.matchLength? text = none) :
    ¬ Closable text 0 := by
  intro hclosable
  obtain ⟨ho, j, hj, hc⟩ := hclosable
  rw [matchLength?_regex, if_pos ho, Option.map_eq_none_iff] at h
  refine firstClose?_eq_none h (j - 2) (closes_drop.mpr ?_)
  rwa [show 2 + (j - 2) = j by omega]

end BlockComment

/-! ## The scanner -/

/-- From place `p` on, `spans` are the comments of `text`, each by its first
place and the place behind it. -/
inductive Scanned (text : List Char) : Nat → List (Nat × Nat) → Prop
  /-- Nothing that could be closed is left. -/
  | done {p : Nat} (none_left : ∀ i, p ≤ i → ¬ Closable text i) : Scanned text p []
  /-- The first opener that can be closed begins the next comment. -/
  | found {p i e : Nat} {spans : List (Nat × Nat)} (le : p ≤ i) (here : IsCommentAt text i e)
      (none_before : ∀ k, p ≤ k → k < i → ¬ Closable text k) (rest : Scanned text e spans) :
      Scanned text p ((i, e) :: spans)

namespace Scanned

variable {text : List Char} {p : Nat} {spans : List (Nat × Nat)}

theorem unique (h : Scanned text p spans) {other : List (Nat × Nat)} (h' : Scanned text p other) :
    other = spans := by
  induction h generalizing other with
  | done none_left =>
    cases h' with
    | done _ => rfl
    | found le here _ _ => exact absurd here.closable (none_left _ le)
  | @found p i e spans le here none_before _ ih =>
    cases h' with
    | done none_left => exact absurd here.closable (none_left _ le)
    | @found _ i' e' spans' le' here' none_before' rest' =>
      have hi : i' = i := by
        rcases Nat.lt_trichotomy i' i with hlt | he | hlt
        · exact absurd here'.closable (none_before _ le' hlt)
        · exact he
        · exact absurd here.closable (none_before' _ le hlt)
      subst hi
      obtain rfl := here.end_unique here'
      rw [ih rest']

theorem mem (h : Scanned text p spans) {s : Nat × Nat} (hs : s ∈ spans) :
    p ≤ s.1 ∧ IsCommentAt text s.1 s.2 := by
  induction h with
  | done _ => cases hs
  | found le here _ _ ih =>
    rcases List.mem_cons.mp hs with rfl | hs
    · exact ⟨le, here⟩
    · obtain ⟨hle, hc⟩ := ih hs
      have := here.long
      exact ⟨by omega, hc⟩

/-- Each comment ends before the next one begins. -/
theorem pairwise (h : Scanned text p spans) : spans.Pairwise fun a b => a.2 ≤ b.1 := by
  induction h with
  | done _ => exact List.Pairwise.nil
  | found _ _ _ rest ih => exact List.Pairwise.cons (fun s hs => (rest.mem hs).1) ih

/-- Every opener that can be closed shares a character with a comment. -/
theorem overlaps (h : Scanned text p spans) {i : Nat} (hp : p ≤ i) (hi : Closable text i) :
    ∃ s ∈ spans, s.1 < i + 2 ∧ i < s.2 := by
  induction h with
  | done none_left => exact absurd hi (none_left i hp)
  | @found p k e spans _ _ none_before _ ih =>
    rcases Nat.lt_or_ge i k with hlt | hge
    · exact absurd hi (none_before i hp hlt)
    rcases Nat.lt_or_ge i e with hlt | hge'
    · exact ⟨(k, e), List.mem_cons_self, by simp only; omega, hlt⟩
    · obtain ⟨s, hs, ho⟩ := ih hge'
      exact ⟨s, List.mem_cons_of_mem _ hs, ho⟩

/-- A place that is no comment is passed. -/
theorem skip (h : Scanned text (p + 1) spans) (hp : ¬ Closable text p) : Scanned text p spans := by
  cases h with
  | done none_left =>
    refine .done fun i hi => ?_
    rcases Nat.eq_or_lt_of_le hi with rfl | hlt
    · exact hp
    · exact none_left i hlt
  | found le here none_before rest =>
    refine .found (by omega) here (fun k hk hki => ?_) rest
    rcases Nat.eq_or_lt_of_le hk with rfl | hlt
    · exact hp
    · exact none_before k hlt hki

end Scanned

/-! ## The comments found -/

namespace BlockComment

/-- The comment between two places of a text. -/
def ofSpan (text : List Char) (span : Nat × Nat) : BlockComment :=
  ⟨Place.afterAll ⟨0, 1⟩ (text.take span.1), (text.take span.2).drop span.1⟩

theorem afterAll_take (place : Place) (text : List Char) (p n : Nat) :
    (place.afterAll (text.take p)).afterAll ((text.drop p).take n) =
      place.afterAll (text.take (p + n)) := by
  simp only [Place.afterAll, ← List.foldl_append, ← List.take_add]

/-- From any place on, the search finds what the scanner finds. -/
theorem exists_scanned (text : List Char) (p : Nat) :
    ∃ spans, Scanned text p spans ∧
      allFrom (Place.afterAll ⟨0, 1⟩ (text.take p)) (text.drop p) = spans.map (ofSpan text) := by
  -- The recursion is on the characters left. What carries it is that the search
  -- keeps the place where it stands, so that each comment is a slice of the whole text.
  cases hd : text.drop p with
  | nil =>
    refine ⟨[], .done fun i hi hc => ?_, rfl⟩
    obtain ⟨ho, -⟩ := hc
    rw [Opens, ← Nat.add_sub_cancel' hi, ← List.drop_drop, hd, List.drop_nil] at ho
    exact absurd ho (by simp)
  | cons c rest =>
    have hlt : p < text.length := by
      have := congrArg List.length hd
      simp only [List.length_drop, List.length_cons] at this
      omega
    cases hm : regex.matchLength? (c :: rest) with
    | none =>
      have hn : ¬ Closable text p := by
        have := matchLength?_regex_eq_none hm
        rwa [← hd, closable_drop, Nat.add_zero] at this
      obtain ⟨spans, hs, ha⟩ := exists_scanned text (p + 1)
      refine ⟨spans, hs.skip hn, ?_⟩
      rw [allFrom_cons_of_no_match fun n => by rw [hm]; simp]
      rw [← ha, ← afterAll_take, ← List.drop_drop, hd]
      rfl
    | some n =>
      have hc : IsCommentAt text p (p + n) := by
        have := matchLength?_regex_iff.mp hm
        rwa [← hd, isCommentAt_drop, Nat.add_zero] at this
      have hl := hc.long
      obtain ⟨m, rfl⟩ : ∃ m, n = m + 1 := ⟨n - 1, by omega⟩
      obtain ⟨spans, hs, ha⟩ := exists_scanned text (p + (m + 1))
      refine ⟨(p, p + (m + 1)) :: spans, .found (Nat.le_refl p) hc
        (fun k h1 h2 => by omega) hs, ?_⟩
      rw [allFrom_cons_of_match hm, List.map_cons, ← ha, ← hd, ofSpan, List.drop_take,
        afterAll_take, List.drop_drop, Nat.add_sub_cancel_left]
termination_by text.length - p

/-- The comments found are those of the scanner. -/
theorem all_eq_map_ofSpan (text : List Char) :
    ∃ spans, Scanned text 0 spans ∧ all text = spans.map (ofSpan text) :=
  exists_scanned text 0

end BlockComment

end ScopeLex
