import ScopeLex.Proofs.Analysis.Comment
import ScopeLex.Proofs.Comment.Respaced

/-!
# Comments of joined texts

Two texts are joined by a newline. No opener and no closer stands across it, so that
the comments of the first text stay where they are. Behind the last of them nothing
opens a comment by assumption; therefore the search begins anew with the second text,
and finds its comments further on.

* `ClosedBehind`: nothing is opened behind the last comment.
* `Scanned.join`: the scanner goes through both texts one after the other.
* `BlockComment.all_join`: the comments of the joined text.
* `covers_first_iff`, `covers_second_iff`: the lines that they cover.
-/
namespace ScopeLex

open Text (byteSize byteSize_append byteSize_cons lines length_lines)

/-! ## Across the newline -/

/-- The text `a`, a newline and the text `b`. -/
def join (a b : List Char) : List Char := a ++ '\n' :: b

variable {a b : List Char}

theorem drop_join (i : Nat) : (join a b).drop (a.length + 1 + i) = b.drop i := by
  rw [join, ← List.drop_drop, ← List.drop_drop, List.drop_left]
  rfl

theorem take_join_of_le {i : Nat} (h : i ≤ a.length) : (join a b).take i = a.take i :=
  List.take_append_of_le_length h

theorem take_join (i : Nat) : (join a b).take (a.length + 1 + i) = join a (b.take i) := by
  rw [Nat.add_assoc, join, List.take_length_add_append, Nat.add_comm 1 i]
  rfl

/-- Two signs stand side by side within the first text or behind the newline. -/
theorem pair_join {c d : Char} (hc : ¬ IsGap c) (hd : ¬ IsGap d) {i : Nat}
    (h : [c, d] <+: (join a b).drop i) :
    (i + 2 ≤ a.length ∧ [c, d] <+: a.drop i) ∨ a.length < i := by
  have apart : ∀ e, ('\n' :: b).head? = some e → IsGap e := by
    intro e he
    cases he
    exact Or.inr rfl
  rcases Respaced.pair_keep apart hd h with hpart | ⟨hle, hcopy⟩
  · exact Or.inl hpart
  rcases Nat.eq_or_lt_of_le hle with rfl | hlt
  · rw [Nat.sub_self, List.drop_zero, List.cons_prefix_cons] at hcopy
    exact absurd (Or.inr hcopy.1) hc
  · exact Or.inr hlt

/-- What stands in the first text stands in the joined one. -/
theorem pair_join_of_le {c d : Char} {i : Nat} (h : [c, d] <+: a.drop i) (hi : i + 2 ≤ a.length) :
    [c, d] <+: (join a b).drop i :=
  Respaced.prefix_drop_append h hi

theorem opens_join {i : Nat} (h : Opens (join a b) i) (hi : i ≤ a.length) : Opens a i := by
  rcases pair_join Respaced.not_isGap_slash Respaced.not_isGap_star h with h | h
  · exact h.2
  · omega

theorem closes_join {i : Nat} (h : Closes (join a b) i) (hi : i ≤ a.length) : Closes a i := by
  rcases pair_join Respaced.not_isGap_star Respaced.not_isGap_slash h with h | h
  · exact h.2
  · omega

/-- A comment of the first text is one of the joined text. -/
theorem IsCommentAt.join {i e : Nat} (h : IsCommentAt a i e) (b : List Char) :
    IsCommentAt (join a b) i e := by
  have hl := h.long
  have hlen := h.le_length
  refine ⟨pair_join_of_le h.opens (by omega), hl, pair_join_of_le h.closes (by omega), ?_⟩
  exact fun j h1 h2 hj => h.first j h1 h2 (closes_join hj (by omega))

/-- What can be closed in front of a comment can be closed in the first text. -/
theorem Closable.of_join {i e k : Nat} (h : IsCommentAt a i e) (hk : k < i)
    (hc : Closable (join a b) k) : Closable a k := by
  have hl := h.long
  have hlen := h.le_length
  exact ⟨opens_join hc.1 (by omega), e - 2, by omega, h.closes⟩

/-! ## The scanner -/

/-- The span `d` characters further on. -/
def shiftSpan (d : Nat) (span : Nat × Nat) : Nat × Nat := (d + span.1, d + span.2)

namespace Scanned

variable {text : List Char} {p q d : Nat} {spans : List (Nat × Nat)}

/-- Places that are no comments are passed. -/
theorem skip_to (h : Scanned text q spans) (hp : p ≤ q)
    (hnone : ∀ k, p ≤ k → k < q → ¬ Closable text k) : Scanned text p spans := by
  induction hp with
  | refl => exact h
  | step hq ih =>
    exact ih (h.skip (hnone _ hq (Nat.lt_succ_self _))) fun k h1 h2 =>
      hnone k h1 (Nat.lt_succ_of_lt h2)

/-- The rest of a text is scanned like the text. -/
theorem of_drop (h : Scanned (text.drop d) p spans) :
    Scanned text (d + p) (spans.map (shiftSpan d)) := by
  have in_rest : ∀ {k}, d ≤ k → Closable text k → Closable (text.drop d) (k - d) := by
    intro k hk hc
    rw [closable_drop]
    rwa [Nat.add_sub_cancel' hk]
  induction h with
  | done none_left =>
    exact .done fun i hi hc => none_left (i - d) (by omega) (in_rest (by omega) hc)
  | found le here none_before _ ih =>
    refine .found (Nat.add_le_add_left le d) (isCommentAt_drop.mp here) (fun k h1 h2 hc => ?_) ih
    exact none_before (k - d) (by omega) (by omega) (in_rest (by omega) hc)

/-- The scanner goes through the first text as by itself. Behind its last comment
nothing is opened, so that it comes to the second text, which it scans as by itself. -/
theorem join (h : Scanned a p spans) (hp : p ≤ a.length)
    (hclosed : ∀ i, p ≤ i → (∀ s ∈ spans, s.2 ≤ i) → ¬ Opens a i) {spans' : List (Nat × Nat)}
    (h' : Scanned b 0 spans') :
    Scanned (join a b) p (spans ++ spans'.map (shiftSpan (a.length + 1))) := by
  induction h with
  | @done p none_left =>
    have hsecond : Scanned (ScopeLex.join a b) (a.length + 1)
        (spans'.map (shiftSpan (a.length + 1))) := by
      refine of_drop (p := 0) ?_
      rwa [show (ScopeLex.join a b).drop (a.length + 1) = b from drop_join 0]
    refine hsecond.skip_to (by omega) fun k h1 h2 hc => ?_
    exact hclosed k h1 (fun s hs => nomatch hs) (opens_join hc.1 (by omega))
  | @found p i e spans le here none_before rest ih =>
    have hl := here.long
    refine .found le (here.join b) (fun k h1 h2 hc => none_before k h1 h2 (hc.of_join here h2)) ?_
    refine ih here.le_length fun k hk hbehind => hclosed k (by omega) fun s hs => ?_
    rcases List.mem_cons.mp hs with rfl | hs
    · exact hk
    · exact hbehind s hs

end Scanned

/-! ## The comments found -/

/-- Nothing is opened behind the last comment. -/
def ClosedBehind (text : List Char) : Prop :=
  ∀ i, (∀ c ∈ BlockComment.all text, c.stop ≤ byteSize (text.take i)) → ¬ Opens text i

theorem Opens.lt_length {text : List Char} {i : Nat} (h : Opens text i) : i < text.length :=
  Nat.lt_of_succ_lt (pair_le_length h)

instance (text : List Char) : Decidable (ClosedBehind text) :=
  decidable_of_iff (∀ i < text.length,
      (∀ c ∈ BlockComment.all text, c.stop ≤ byteSize (text.take i)) → ¬ Opens text i)
    ⟨fun h i hi ho => h i ho.lt_length hi ho, fun h i _ => h i⟩

namespace BlockComment

/-- The comment so many bytes and lines further on. -/
def shift (bytes lines : Nat) (c : BlockComment) : BlockComment :=
  ⟨⟨bytes + c.start.offset, lines + c.start.line⟩, c.text⟩

theorem exists_span_of_mem_all {text : List Char} {c : BlockComment} (h : c ∈ all text) :
    ∃ i e, IsCommentAt text i e ∧ c = ofSpan text (i, e) := by
  obtain ⟨spans, hs, hf⟩ := all_eq_map_ofSpan text
  rw [hf] at h
  obtain ⟨⟨i, e⟩, hm, rfl⟩ := List.mem_map.mp h
  exact ⟨i, e, (hs.mem hm).2, rfl⟩

theorem ofSpan_join_of_le {i e : Nat} (hi : i ≤ e) (he : e ≤ a.length) :
    ofSpan (join a b) (i, e) = ofSpan a (i, e) := by
  rw [ofSpan, ofSpan, take_join_of_le he, take_join_of_le (Nat.le_trans hi he)]

theorem ofSpan_join (span : Nat × Nat) :
    ofSpan (join a b) (shiftSpan (a.length + 1) span) =
      (ofSpan b span).shift (byteSize a + 1) (lines a).length := by
  obtain ⟨i, e⟩ := span
  have hsize : byteSize (join a (b.take i)) = byteSize a + 1 + byteSize (b.take i) := by
    rw [join, byteSize_append, byteSize_cons, Nat.add_assoc]
    rfl
  have hcount : 1 + (join a (b.take i)).count '\n' =
      (lines a).length + (1 + (b.take i).count '\n') := by
    rw [join, List.count_append, List.count_cons_self, length_lines]
    omega
  rw [shiftSpan, ofSpan, ofSpan, shift]
  simp only [take_join, drop_join, Place.afterAll_eq, Nat.zero_add, hsize, hcount]

/-- The comments of the joined text: those of the first one where they are, and those of
the second one behind it. -/
theorem all_join (h : ClosedBehind a) (b : List Char) :
    all (join a b) = all a ++ (all b).map (shift (byteSize a + 1) (lines a).length) := by
  obtain ⟨spans, hs, hf⟩ := all_eq_map_ofSpan a
  obtain ⟨spans', hs', hf'⟩ := all_eq_map_ofSpan b
  obtain ⟨joined, hj, hfj⟩ := all_eq_map_ofSpan (join a b)
  have hscanned := hs.join (Nat.zero_le _) (fun i _ hbehind => h i fun c hc => ?_) hs'
  · rw [hfj, ← hj.unique hscanned, List.map_append, List.map_map, hf, hf', List.map_map]
    congr 1
    · refine List.map_congr_left fun s hm => ?_
      have hc := (hs.mem hm).2
      exact ofSpan_join_of_le (by have := hc.long; omega) hc.le_length
    · exact List.map_congr_left fun s _ => ofSpan_join s
  · rw [hf] at hc
    obtain ⟨s, hm, rfl⟩ := List.mem_map.mp hc
    have hlong := (hs.mem hm).2.long
    rw [stop_ofSpan (by omega)]
    exact byteSize_take_le a (hbehind s hm)

/-! ## The lines that are covered -/

theorem one_le_firstLine {text : List Char} {c : BlockComment} (h : c ∈ all text) :
    1 ≤ c.firstLine := by
  obtain ⟨i, e, -, rfl⟩ := exists_span_of_mem_all h
  rw [firstLine, start_ofSpan]
  exact Nat.le_add_right _ _

theorem last_le_length_lines {text : List Char} {c : BlockComment} (h : c ∈ all text) :
    c.firstLine + c.text.count '\n' ≤ (lines text).length := by
  obtain ⟨i, e, hc, rfl⟩ := exists_span_of_mem_all h
  have hlong := hc.long
  have hle := count_take_le text hc.le_length
  rw [List.take_length] at hle
  rw [firstLine, start_ofSpan, Nat.add_assoc, ← List.count_append, take_append_text (by omega),
    length_lines]
  omega

end BlockComment

theorem covers_append {found found' : List BlockComment} {k : Nat} :
    Covers (found ++ found') k ↔ Covers found k ∨ Covers found' k := by
  simp only [Covers, List.mem_append, or_and_right, exists_or]

/-- Lines of the first text are covered as before, -/
theorem covers_first_iff (h : ClosedBehind a) {k : Nat} (hk : k ≤ (lines a).length) :
    Covers (BlockComment.all (join a b)) k ↔ Covers (BlockComment.all a) k := by
  rw [BlockComment.all_join h, covers_append, or_iff_left]
  intro hcovers
  obtain ⟨c, hc, hfirst, -⟩ := hcovers
  obtain ⟨d, hd, rfl⟩ := List.mem_map.mp hc
  have hline := BlockComment.one_le_firstLine hd
  have hfirst : (lines a).length + d.firstLine ≤ k := hfirst
  omega

/-- and those of the second one too. -/
theorem covers_second_iff (h : ClosedBehind a) {k : Nat} (hk : 1 ≤ k) :
    Covers (BlockComment.all (join a b)) ((lines a).length + k) ↔
      Covers (BlockComment.all b) k := by
  rw [BlockComment.all_join h, covers_append, or_iff_right]
  · constructor
    · intro hcovers
      obtain ⟨c, hc, hfirst, hlast⟩ := hcovers
      obtain ⟨d, hd, rfl⟩ := List.mem_map.mp hc
      have hfirst : (lines a).length + d.firstLine ≤ (lines a).length + k := hfirst
      have hlast : (lines a).length + k ≤ (lines a).length + d.firstLine + d.text.count '\n' :=
        hlast
      exact ⟨d, hd, by omega, by omega⟩
    · intro hcovers
      obtain ⟨c, hc, hfirst, hlast⟩ := hcovers
      refine ⟨_, List.mem_map_of_mem hc, Nat.add_le_add_left hfirst _, ?_⟩
      have hlast : (lines a).length + k ≤ (lines a).length + c.firstLine + c.text.count '\n' := by
        omega
      exact hlast
  · intro hcovers
    obtain ⟨c, hc, -, hlast⟩ := hcovers
    have := BlockComment.last_le_length_lines hc
    omega

end ScopeLex
