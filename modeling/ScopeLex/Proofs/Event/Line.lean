import ScopeLex.Event

/-!
# The events of one line

Every event belongs to a line, and the scan visits the lines in order, so the
events of line `k` are those of its own scan, or none if the line is left out.

* `line_of_mem_ofLine`: scanning line `k` gives events of line `k` only.
* `mem_ofLines`: every event of the scan comes from a line that is not covered.
* `pairwise_line_ofLines`: the scan goes from line to line.
* `filter_line_ofLines`: the events of one line among those of the scan.
-/
namespace ScopeLex

open Text (lines trimReturns)

namespace Event

/-- The line on which an event happens. -/
def line : Event → Nat
  | .token t => t.line
  | .stray _ line _ => line

theorem line_of_ofPiece? {k : Nat} {p : Nat × Piece} {e : Event} (h : ofPiece? k p = some e) :
    e.line = k := by
  obtain ⟨column, piece⟩ := p
  cases piece with
  | blank text => cases h
  | lexeme kind text => cases h; rfl
  | stray c => cases h; rfl

theorem line_of_mem_ofCode {k column : Nat} {code : List Char} {e : Event}
    (h : e ∈ ofCode k column code) : e.line = k := by
  obtain ⟨p, -, hp⟩ := List.mem_filterMap.mp h
  exact line_of_ofPiece? hp

theorem ofLine_eq (k : Nat) (text : List Char) :
    ofLine k text =
      ofLineComment k (splitMarker text).2 ++ ofCode k 1 (splitMarker text).1 := rfl

theorem line_of_mem_ofLine {k : Nat} {text : List Char} {e : Event} (h : e ∈ ofLine k text) :
    e.line = k := by
  rw [ofLine_eq, List.mem_append] at h
  rcases h with h | h
  · unfold ofLineComment at h
    split at h
    · cases h
    · cases List.mem_singleton.mp h; rfl
  · exact line_of_mem_ofCode h

/-- A line is covered if one of the ranges holds it. -/
theorem isCovered_iff {ranges : List (Nat × Nat)} {k : Nat} :
    isCovered ranges k = true ↔ ∃ r ∈ ranges, r.1 ≤ k ∧ k ≤ r.2 := by
  simp [isCovered]

/-- The events of a line, unless it is covered. -/
def ofLineUnless (ranges : List (Nat × Nat)) (numbered : List Char × Nat) : List Event :=
  if isCovered ranges numbered.2 then [] else ofLine numbered.2 numbered.1

theorem ofLines_eq (ranges : List (Nat × Nat)) (source : List Char) :
    ofLines ranges source = ((lines source).zipIdx 1).flatMap (ofLineUnless ranges) := rfl

theorem line_of_mem_ofLineUnless {ranges : List (Nat × Nat)} {numbered : List Char × Nat}
    {e : Event} (h : e ∈ ofLineUnless ranges numbered) : e.line = numbered.2 := by
  unfold ofLineUnless at h
  split at h
  · cases h
  · exact line_of_mem_ofLine h

/-- Every event of the scan comes from a line that is not covered. -/
theorem mem_ofLines {ranges : List (Nat × Nat)} {source : List Char} {e : Event}
    (h : e ∈ ofLines ranges source) :
    1 ≤ e.line ∧ e.line ≤ (lines source).length ∧ isCovered ranges e.line = false ∧
      ∃ text, (lines source)[e.line - 1]? = some text ∧ e ∈ ofLine e.line text := by
  obtain ⟨⟨text, k⟩, hm, he⟩ := List.mem_flatMap.mp (ofLines_eq ranges source ▸ h)
  obtain ⟨h1, h2, ht⟩ := List.mem_zipIdx hm
  have hk : e.line = k := line_of_mem_ofLineUnless he
  unfold ofLineUnless at he
  split at he
  · cases he
  · rename_i hc
    subst hk
    refine ⟨h1, by omega, by simpa using hc, text, ?_, he⟩
    rw [ht, List.getElem?_eq_getElem]

/-- Numbered parts whose members carry the number of their part: the members
with number `k` are those of one part. -/
theorem filter_flatMap_zipIdx {α β : Type} (part : α × Nat → List β) (number : β → Nat)
    (h : ∀ p, ∀ b ∈ part p, number b = p.2) (l : List α) (n k : Nat) (hk : n ≤ k) :
    ((l.zipIdx n).flatMap part).filter (fun b => number b = k) =
      ((l[k - n]?).map fun a => part (a, k)).getD [] := by
  induction l generalizing n with
  | nil => rfl
  | cons a l ih =>
    rw [List.zipIdx_cons, List.flatMap_cons, List.filter_append]
    rcases Nat.eq_or_lt_of_le hk with rfl | hlt
    · have hrest : ((l.zipIdx (n + 1)).flatMap part).filter (fun b => number b = n) = [] := by
        refine List.filter_eq_nil_iff.mpr fun b hb => ?_
        obtain ⟨p, hp, hbp⟩ := List.mem_flatMap.mp hb
        have := (List.mem_zipIdx (x := p.1) (i := p.2) hp).1
        have := h p b hbp
        simp only [decide_eq_true_eq]
        omega
      have hself : (part (a, n)).filter (fun b => number b = n) = part (a, n) :=
        List.filter_eq_self.mpr fun b hb => by simpa using h _ b hb
      simp [hrest, hself]
    · have hhead : (part (a, n)).filter (fun b => number b = k) = [] := by
        refine List.filter_eq_nil_iff.mpr fun b hb => ?_
        have : number b = n := h _ b hb
        simp only [decide_eq_true_eq]
        omega
      rw [hhead, List.nil_append, ih (n + 1) hlt]
      obtain ⟨m, hm⟩ : ∃ m, k - n = m + 1 := ⟨k - n - 1, by omega⟩
      rw [hm, List.getElem?_cons_succ, show k - (n + 1) = m by omega]

/-- The numbers of the members ascend. -/
theorem pairwise_flatMap_zipIdx {α β : Type} (part : α × Nat → List β) (number : β → Nat)
    (h : ∀ p, ∀ b ∈ part p, number b = p.2) (l : List α) (n : Nat) :
    ((l.zipIdx n).flatMap part).Pairwise fun a b => number a ≤ number b := by
  have hnumbers : (l.zipIdx n).Pairwise fun p q => p.2 < q.2 := by
    rw [← List.pairwise_map (f := Prod.snd) (R := (· < ·)), List.zipIdx_map_snd]
    exact List.pairwise_lt_range'
  refine List.pairwise_flatMap.mpr ⟨fun p _ => ?_, hnumbers.imp fun {p q} hlt a ha b hb => ?_⟩
  · exact List.pairwise_of_forall_mem_list fun a ha b hb =>
      Nat.le_of_eq ((h p a ha).trans (h p b hb).symm)
  · rw [h p a ha, h q b hb]
    exact Nat.le_of_lt hlt

/-- The scan goes from line to line. -/
theorem pairwise_line_ofLines (ranges : List (Nat × Nat)) (source : List Char) :
    (ofLines ranges source).Pairwise fun e f => e.line ≤ f.line :=
  pairwise_flatMap_zipIdx _ _ (fun _ _ hb => line_of_mem_ofLineUnless hb) _ _

/-- The events of one line among those of the scan. -/
theorem filter_line_ofLines (ranges : List (Nat × Nat)) (source : List Char) {k : Nat}
    (hk : 1 ≤ k) :
    (ofLines ranges source).filter (fun e => e.line = k) =
      (((lines source)[k - 1]?).map fun text => ofLineUnless ranges (text, k)).getD [] :=
  filter_flatMap_zipIdx _ _ (fun _ _ hb => line_of_mem_ofLineUnless hb) _ _ _ hk

end Event

end ScopeLex
