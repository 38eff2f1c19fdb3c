import ScopeLex.Regex.Basic
import ScopeLex.Text.Word

/-!
# Matching by preference

A pattern matches in an ordered choice of ways: alternatives prefer their
first side, greedy loops prefer to go on, and the match is the first way that
leads to the end of the pattern. `firstMatch?` states this directly, as a
depth-first search; it may look at the same rest of the text again and again.
`race` follows all ways at once, one character at a time and without
repetitions, and takes time proportional to the length of the text.

* `race_eq`: both find the same match.
* `matchLength?_eq`: the match of one pattern at the start of a text.
-/
namespace ScopeLex.Regex

open Text (isBoundary)

/-! ## The ways of one pattern -/

/-- A way to go on: the pattern is finished, or takes the next character and
then has to match `rest`. -/
inductive Step where
  | stop
  | take (rest : Regex)
  deriving DecidableEq, Repr

/-- The ways to go on at a place between two characters, best first. An
iteration of a loop takes at least one character. -/
def steps (before next : Option Char) : Regex → List Step
  | .empty => [.stop]
  | .one set => if next.any set.contains then [.take .empty] else []
  | .boundary => if isBoundary before next then [.stop] else []
  | .seq first second =>
    (first.steps before next).flatMap fun
      | .stop => second.steps before next
      | .take rest => [.take (rest.andThen second)]
  | .alt first second => first.steps before next ++ second.steps before next
  | .group body => body.steps before next
  | .loop body least most greedy =>
    let again :=
      if most = some 0 then []
      else (body.steps before next).filterMap fun
        | .stop => none
        | .take rest =>
          some (.take (rest.andThen (.loop body (least - 1) (most.map (· - 1)) greedy)))
    let leave := if least = 0 then [Step.stop] else []
    if greedy then again ++ leave else leave ++ again

/-- The length of the match that a step leads to, where `go` is the length of
the match of a pattern after the next character. -/
def Step.length? (go : Regex → Option Nat) : Step → Option Nat
  | .stop => some 0
  | .take rest => (go rest).map (· + 1)

/-- The number of characters that the pattern takes from the start of the
text, on the first way that leads to its end. -/
def firstMatch? (before : Option Char) : List Char → Regex → Option Nat
  | [], r => (r.steps before none).findSome? (Step.length? fun _ => none)
  | c :: text, r => (r.steps before (some c)).findSome? (Step.length? (firstMatch? (some c) text))

/-! ## All ways at once -/

/-- What is still running before the first way that stops. -/
def running : List Step → List Regex
  | .take rest :: ways => rest :: running ways
  | _ => []

/-- The length of the best match when the patterns `ways`, best first, go on
after `taken` characters; `best` is the match found so far, worse than any
that they still find. -/
def race (before : Option Char) (taken : Nat) (best : Option Nat) :
    List Char → List Regex → Option Nat
  | [], ways =>
    if (ways.flatMap (steps before none)).contains .stop then some taken else best
  | c :: text, ways =>
    let next := ways.flatMap (steps before (some c))
    let best := if next.contains .stop then some taken else best
    match (running next).eraseDups with
    | [] => best
    | ways => race (some c) (taken + 1) best text ways

/-- The length of the match of `r` at the start of `text`, where nothing
stands before. -/
def matchLength? (r : Regex) (text : List Char) : Option Nat := race none 0 none text [r]

/-! ## Both agree -/

theorem findSome?_flatMap {α β γ : Type} (f : α → List β) (g : β → Option γ) (l : List α) :
    (l.flatMap f).findSome? g = l.findSome? fun a => (f a).findSome? g := by
  induction l with
  | nil => rfl
  | cons a l ih =>
    rw [List.flatMap_cons, List.findSome?_append, ih, List.findSome?_cons]
    cases (f a).findSome? g <;> rfl

theorem findSome?_filter_ne {α β : Type} [BEq α] [LawfulBEq α] (g : α → Option β) {a : α}
    (ha : g a = none) (l : List α) : (l.filter fun b => !b == a).findSome? g = l.findSome? g := by
  induction l with
  | nil => rfl
  | cons b l ih =>
    by_cases h : b = a
    · subst h; simp [ha, ih]
    · simp [h, ih, List.findSome?_cons]

/-- A repetition never changes what is found first. -/
theorem findSome?_eraseDups {α β : Type} [BEq α] [LawfulBEq α] (g : α → Option β) (l : List α) :
    l.eraseDups.findSome? g = l.findSome? g := by
  match l with
  | [] => simp
  | a :: l =>
    rw [List.eraseDups_cons, List.findSome?_cons, List.findSome?_cons]
    cases ha : g a with
    | some b => rfl
    | none =>
      exact (findSome?_eraseDups g _).trans (findSome?_filter_ne g ha l)
termination_by l.length
decreasing_by exact Nat.lt_succ_of_le (List.length_filter_le _ _)

/-- Of the steps at one place only those before the first stop matter, then
the stop itself. -/
theorem findSome?_length? (go : Regex → Option Nat) (next : List Step) :
    next.findSome? (Step.length? go) =
      (((running next).findSome? go).map (· + 1)).or
        (if next.contains .stop then some 0 else none) := by
  induction next with
  | nil => rfl
  | cons step next ih =>
    cases step with
    | stop => rw [List.findSome?_cons]; simp [running, Step.length?]
    | take rest =>
      have hc : (Step.take rest :: next).contains .stop = next.contains .stop := by simp
      rw [List.findSome?_cons, running, List.findSome?_cons, hc, ih]
      cases h : go rest <;> simp [Step.length?, h]

theorem race_eq (before : Option Char) (taken : Nat) (best : Option Nat) (text : List Char)
    (ways : List Regex) :
    race before taken best text ways =
      ((ways.findSome? (firstMatch? before text)).map (taken + ·)).or best := by
  induction text generalizing before taken best ways with
  | nil =>
    have h : ways.findSome? (firstMatch? before []) =
        (ways.flatMap (steps before none)).findSome? (Step.length? fun _ => none) :=
      (findSome?_flatMap _ _ _).symm
    have hn : (running (ways.flatMap (steps before none))).findSome? (fun _ => (none : Option Nat))
        = none := by simp
    rw [h, findSome?_length?, hn, race]
    split <;> simp
  | cons c text ih =>
    have h : ways.findSome? (firstMatch? before (c :: text)) =
        (ways.flatMap (steps before (some c))).findSome?
          (Step.length? (firstMatch? (some c) text)) :=
      (findSome?_flatMap _ _ _).symm
    rw [h, findSome?_length?]
    simp only [race]
    generalize ways.flatMap (steps before (some c)) = next
    split
    · rename_i hnil
      have hn : (running next).findSome? (firstMatch? (some c) text) = none := by
        rw [← findSome?_eraseDups, hnil]; rfl
      rw [hn]
      split <;> simp
    · rw [ih, findSome?_eraseDups]
      cases (running next).findSome? (firstMatch? (some c) text) with
      | none => split <;> simp
      | some n => simp; omega

theorem matchLength?_eq (r : Regex) (text : List Char) :
    r.matchLength? text = firstMatch? none text r := by
  rw [matchLength?, race_eq]
  cases h : firstMatch? none text r <;> simp [h]

/-! ## A match lies in the text -/

theorem firstMatch?_le_length {before : Option Char} {text : List Char} {r : Regex} {n : Nat}
    (h : firstMatch? before text r = some n) : n ≤ text.length := by
  induction text generalizing before r n with
  | nil =>
    rw [firstMatch?] at h
    obtain ⟨s, -, hs⟩ := List.exists_of_findSome?_eq_some h
    cases s <;> simp_all [Step.length?]
  | cons c text ih =>
    rw [firstMatch?] at h
    obtain ⟨s, -, hs⟩ := List.exists_of_findSome?_eq_some h
    cases s with
    | stop => simp only [Step.length?, Option.some.injEq] at hs; omega
    | take rest =>
      obtain ⟨m, hm, rfl⟩ := Option.map_eq_some_iff.mp hs
      exact Nat.succ_le_succ (ih hm)

theorem matchLength?_le_length {r : Regex} {text : List Char} {n : Nat}
    (h : r.matchLength? text = some n) : n ≤ text.length :=
  firstMatch?_le_length (r.matchLength?_eq text ▸ h)

end ScopeLex.Regex
