import ScopeLex.Proofs.Analysis.Comment
import ScopeLex.Proofs.Comment.Respaced
import ScopeLex.Proofs.Text.Lines

/-!
# Copying a text line by line

A text is copied line by line: lines that hold a part of a block comment are left
empty, of the others parts are kept whole and apart. However the parts are chosen, the
copy has the same number of lines and no block comment of its own, so that each of its
lines is scanned.

* `CopiesParts`: what a copy of a line may keep.
* `not_closable_copied`: no block comment begins in the copy.
* `lines_copied`: the copy has the copied lines.
* `ofSource_copied`: the copy is scanned line by line.
-/
namespace ScopeLex

open Text (lines lines_intercalate intercalate_lines)

/-- A way of copying lines that keeps parts of them whole and apart. -/
structure CopiesParts (copy : List Char → List Char) : Prop where
  respaced {ok : Nat → Prop} {p : Nat} {line : List Char} (here : ∀ i < line.length, ok (p + i)) :
    Respaced ok p line (copy line)
  newline_notMem {line : List Char} (h : '\n' ∉ line) : '\n' ∉ copy line

section
variable (copy : List Char → List Char)

/-- A line that holds no part of a comment is copied, any other left empty. -/
def openLine (found : List BlockComment) (numbered : List Char × Nat) : List Char :=
  if Covers found numbered.2 then [] else copy numbered.1

/-- The lines of the copy. -/
def copiedLines (text : List Char) : List (List Char) :=
  ((lines text).zipIdx 1).map (openLine copy (BlockComment.all text))

/-- The copy of a text. -/
def copied (text : List Char) : List Char := ['\n'].intercalate (copiedLines copy text)

theorem length_copiedLines (text : List Char) :
    (copiedLines copy text).length = (lines text).length := by
  rw [copiedLines, List.length_map, List.length_zipIdx]

theorem getElem?_copiedLines (text : List Char) (k : Nat) :
    (copiedLines copy text)[k]? = (lines text)[k]?.map fun line =>
      openLine copy (BlockComment.all text) (line, k + 1) := by
  rw [copiedLines, List.getElem?_map, List.getElem?_zipIdx, Option.map_map, Nat.add_comm 1 k]
  rfl

end

variable {copy : List Char → List Char}

/-! ## Copied characters stand on open lines -/

/-- Place `p` is on a line that holds no part of a comment. -/
def IsOpen (text : List Char) (p : Nat) : Prop :=
  ¬ Covers (BlockComment.all text) (1 + (text.take p).count '\n')

theorem CopiesParts.respaced_openLine (hcopy : CopiesParts copy) {text pre line : List Char}
    (ht : ∃ rest, text = pre ++ line ++ rest) (hn : '\n' ∉ line) :
    Respaced (IsOpen text) pre.length line
      (openLine copy (BlockComment.all text) (line, 1 + pre.count '\n')) := by
  unfold openLine
  split
  · exact .nil
  · rename_i hopen
    obtain ⟨rest, ht⟩ := ht
    refine hcopy.respaced fun i hi => ?_
    have htake : text.take (pre.length + i) = pre ++ line.take i := by
      rw [ht, List.append_assoc, List.take_length_add_append,
        List.take_append_of_le_length (Nat.le_of_lt hi)]
    have hcount : (line.take i).count '\n' = 0 :=
      List.count_eq_zero.mpr fun hm => hn (List.mem_of_mem_take hm)
    rw [IsOpen, htake, List.count_append, hcount]
    exact hopen

theorem CopiesParts.respaced_lines (hcopy : CopiesParts copy) {text pre : List Char}
    {ls : List (List Char)} (ht : text = pre ++ ['\n'].intercalate ls)
    (hn : ∀ line ∈ ls, '\n' ∉ line) :
    Respaced (IsOpen text) pre.length (['\n'].intercalate ls)
      (['\n'].intercalate ((ls.zipIdx (1 + pre.count '\n')).map
        (openLine copy (BlockComment.all text)))) := by
  -- The lines are copied from the front. `pre` is the text in front of them, whose
  -- newlines number the next line and whose length is the place where it begins.
  induction ls generalizing pre with
  | nil => exact .nil
  | cons line ls ih =>
    have hline := hn line List.mem_cons_self
    cases ls with
    | nil =>
      rw [List.intercalate_singleton] at ht ⊢
      rw [List.zipIdx_cons, List.zipIdx_nil, List.map_singleton, List.intercalate_singleton]
      exact hcopy.respaced_openLine ⟨[], by rw [ht, List.append_nil]⟩ hline
    | cons next ls =>
      have hcons : ['\n'].intercalate (line :: next :: ls) =
          line ++ '\n' :: ['\n'].intercalate (next :: ls) := by
        rw [List.intercalate_cons_cons, List.append_assoc, List.singleton_append]
      rw [hcons] at ht ⊢
      have hpre : text = (pre ++ line ++ ['\n']) ++ ['\n'].intercalate (next :: ls) := by
        rw [ht]
        simp
      have hcount : (pre ++ line ++ ['\n']).count '\n' = pre.count '\n' + 1 := by
        rw [List.count_append, List.count_append, List.count_eq_zero.mpr hline]
        rfl
      have hrest := ih hpre fun l hl => hn l (List.mem_cons_of_mem _ hl)
      have hlength : (pre ++ line ++ ['\n']).length = pre.length + line.length + 1 := by
        rw [List.length_append, List.length_append, List.length_singleton]
      rw [hcount, hlength] at hrest
      have hlines : ['\n'].intercalate (((line :: next :: ls).zipIdx (1 + pre.count '\n')).map
          (openLine copy (BlockComment.all text))) =
          openLine copy (BlockComment.all text) (line, 1 + pre.count '\n') ++ '\n' ::
            ['\n'].intercalate (((next :: ls).zipIdx (1 + (pre.count '\n' + 1))).map
              (openLine copy (BlockComment.all text))) := by
        rw [List.zipIdx_cons, List.map_cons, List.intercalate_cons_of_ne_nil (by simp),
          List.append_assoc, List.singleton_append, Nat.add_assoc]
      have hsplit : text = pre ++ line ++ '\n' :: ['\n'].intercalate (next :: ls) := by
        rw [ht, List.append_assoc]
      have hfirst := hcopy.respaced_openLine ⟨_, hsplit⟩ hline
      rw [hlines]
      refine hfirst.append (.drop (.gap (Or.inr rfl) hrest)) fun c hc => ?_
      exact Or.inr (Option.some.inj hc).symm

/-- No block comment begins in the copy. -/
theorem CopiesParts.not_closable_copied (hcopy : CopiesParts copy) (text : List Char) (i : Nat) :
    ¬ Closable (copied copy text) i := by
  intro hi
  have htext : text = [] ++ ['\n'].intercalate (lines text) := (intercalate_lines text).symm
  have hrespaced : Respaced (IsOpen text) 0 (['\n'].intercalate (lines text)) (copied copy text) :=
    hcopy.respaced_lines htext fun _ => Text.newline_notMem_of_mem_lines
  rw [intercalate_lines] at hrespaced
  obtain ⟨j, hopen, hj⟩ := hrespaced.closable hi
  rw [Nat.zero_add] at hopen
  exact hopen (covers_of_closable hj)

/-! ## The copy line by line -/

theorem CopiesParts.newline_notMem_copiedLines (hcopy : CopiesParts copy) {text line : List Char}
    (h : line ∈ copiedLines copy text) : '\n' ∉ line := by
  obtain ⟨⟨whole, k⟩, hm, rfl⟩ := List.mem_map.mp h
  unfold openLine
  split
  · exact List.not_mem_nil
  · have hwhole : whole ∈ lines text := List.fst_mem_of_mem_zipIdx hm
    exact hcopy.newline_notMem (Text.newline_notMem_of_mem_lines hwhole)

/-- The copy has the copied lines. -/
theorem CopiesParts.lines_copied (hcopy : CopiesParts copy) (text : List Char) :
    lines (copied copy text) = copiedLines copy text := by
  refine lines_intercalate (fun hnil => ?_) fun _ => hcopy.newline_notMem_copiedLines
  have hlength := length_copiedLines copy text
  rw [hnil, List.length_nil] at hlength
  exact Text.lines_ne_nil _ (List.length_eq_zero_iff.mp hlength.symm)

theorem zipIdx_map_zipIdx {α β : Type} (f : α × Nat → β) (l : List α) (n : Nat) :
    ((l.zipIdx n).map f).zipIdx n = (l.zipIdx n).map fun p => (f p, p.2) := by
  induction l generalizing n with
  | nil => rfl
  | cons a l ih => rw [List.zipIdx_cons, List.map_cons, List.zipIdx_cons, ih, List.map_cons]

theorem ofOpenLines_nil (text : List Char) :
    Event.ofOpenLines [] text =
      ((lines text).zipIdx 1).flatMap fun numbered => Event.ofLine numbered.2 numbered.1 := by
  have hopen : ∀ k, ¬ Covers [] k := fun k h => by
    obtain ⟨b, hb, -⟩ := h
    cases hb
  simp only [Event.ofOpenLines, hopen, if_false]

/-- The copy is scanned line by line, with nothing left out. -/
theorem CopiesParts.ofSource_copied (hcopy : CopiesParts copy) (text : List Char) :
    Event.ofSource (copied copy text) = ((lines text).zipIdx 1).flatMap fun numbered =>
      Event.ofLine numbered.2 (openLine copy (BlockComment.all text) numbered) := by
  have hnone : BlockComment.all (copied copy text) = [] :=
    BlockComment.all_eq_nil (hcopy.not_closable_copied text)
  rw [Event.ofSource_eq, hnone, List.map_nil, List.nil_append, ofOpenLines_nil,
    hcopy.lines_copied, copiedLines, zipIdx_map_zipIdx, List.flatMap_map]

end ScopeLex
