import ScopeLex.Regex.Match

/-!
# All matches of a pattern

`ways` lists the lengths of every match at the start of a text, best first.
Unlike the first match alone, the whole list composes: each constructor of a
pattern has an equation for it.

* `firstMatch?_eq_head?`, `matchLength?_eq_head?`: the match that is found is
  the first of the list.
* `ways_seq`, `ways_alt`, `ways_loop`: the list of a compound pattern.
* `ways_seq_star`, `ways_seq_lazyStar`: what stands behind a loop is tried last
  or first at each place.
* `mem_ways_loop_one`: a loop over single characters takes any admissible part
  of the run of these characters.
-/
namespace ScopeLex.Regex

open Text (isBoundary)

/-! ## The list -/

/-- The lengths of the matches that a step leads to. -/
def Step.lengths (go : Regex → List Nat) : Step → List Nat
  | .stop => [0]
  | .take rest => (go rest).map (· + 1)

/-- The lengths of the matches at the start of a text, best first. -/
def ways (before : Option Char) : List Char → Regex → List Nat
  | [], r => (r.steps before none).flatMap (Step.lengths fun _ => [])
  | c :: text, r => (r.steps before (some c)).flatMap (Step.lengths (ways (some c) text))

/-- The lengths of the matches one character further on. -/
def waysBehind : List Char → Regex → List Nat
  | [], _ => []
  | c :: text, r => ways (some c) text r

theorem ways_eq (before : Option Char) (text : List Char) (r : Regex) :
    ways before text r = (r.steps before text.head?).flatMap (Step.lengths (waysBehind text)) := by
  cases text <;> rfl

theorem findSome?_length?_eq_head? (go : Regex → Option Nat) (all : Regex → List Nat)
    (h : ∀ r, go r = (all r).head?) (next : List Step) :
    next.findSome? (Step.length? go) = (next.flatMap (Step.lengths all)).head? := by
  induction next with
  | nil => rfl
  | cons s next ih =>
    have hs : s.length? go = (s.lengths all).head? := by
      cases s with
      | stop => rfl
      | take rest => simp [Step.length?, Step.lengths, h, List.head?_map]
    rw [List.findSome?_cons, List.flatMap_cons, List.head?_append, ih, hs]
    cases (s.lengths all).head? <;> rfl

/-- The match that is found is the best one. -/
theorem firstMatch?_eq_head? (before : Option Char) (text : List Char) (r : Regex) :
    firstMatch? before text r = (ways before text r).head? := by
  induction text generalizing before r with
  | nil => exact findSome?_length?_eq_head? (fun _ => none) (fun _ => []) (fun _ => rfl) _
  | cons c text ih => exact findSome?_length?_eq_head? _ _ (fun r => ih (some c) r) _

theorem matchLength?_eq_head? (r : Regex) (text : List Char) :
    r.matchLength? text = (ways none text r).head? := by
  rw [matchLength?_eq, firstMatch?_eq_head?]

/-! ## Equations -/

/-- The character in front of the place `n` characters further on. -/
def charBefore (before : Option Char) : List Char → Nat → Option Char
  | _, 0 => before
  | [], _ + 1 => before
  | c :: text, n + 1 => charBefore (some c) text n

@[simp] theorem charBefore_zero (before : Option Char) (text : List Char) :
    charBefore before text 0 = before := by
  cases text <;> rfl

@[simp] theorem charBefore_cons (before : Option Char) (c : Char) (text : List Char) (n : Nat) :
    charBefore before (c :: text) (n + 1) = charBefore (some c) text n := rfl

theorem ways_empty (before : Option Char) (text : List Char) : ways before text .empty = [0] := by
  cases text <;> rfl

theorem ways_one_nil (before : Option Char) (set : CharSet) : ways before [] (.one set) = [] := rfl

theorem ways_one_cons (before : Option Char) (c : Char) (text : List Char) (set : CharSet) :
    ways before (c :: text) (.one set) = if set.contains c then [1] else [] := by
  simp only [ways, steps, Option.any_some]
  split
  · simp [Step.lengths, ways_empty]
  · rfl

theorem ways_boundary (before : Option Char) (text : List Char) :
    ways before text .boundary = if isBoundary before text.head? then [0] else [] := by
  rw [ways_eq, steps]
  split <;> simp [Step.lengths]

theorem ways_alt (before : Option Char) (text : List Char) (r s : Regex) :
    ways before text (.alt r s) = ways before text r ++ ways before text s := by
  cases text <;> simp [ways, steps]

theorem ways_group (before : Option Char) (text : List Char) (r : Regex) :
    ways before text (.group r) = ways before text r := by
  cases text <;> rfl

/-- The lengths of `second` after a match of `n` characters, counted from the
start of `text`. -/
def waysAfter (before : Option Char) (text : List Char) (second : Regex) (n : Nat) : List Nat :=
  (ways (charBefore before text n) (text.drop n) second).map (n + ·)

theorem head?_waysAfter (before : Option Char) (text : List Char) (r : Regex) (n : Nat) :
    (waysAfter before text r n).head? =
      ((ways (charBefore before text n) (text.drop n) r).head?).map (n + ·) := by
  rw [waysAfter, List.head?_map]

theorem waysAfter_zero (before : Option Char) (text : List Char) (second : Regex) :
    waysAfter before text second 0 = ways before text second := by
  simp [waysAfter]

theorem waysAfter_cons (before : Option Char) (c : Char) (text : List Char) (second : Regex)
    (n : Nat) : waysAfter before (c :: text) second (n + 1) =
      (waysAfter (some c) text second n).map (· + 1) := by
  simp only [waysAfter, charBefore_cons, List.drop_succ_cons, List.map_map, Function.comp_def]
  exact List.map_congr_left fun m _ => Nat.add_right_comm n 1 m

theorem ways_andThen (before : Option Char) (text : List Char) (r s : Regex)
    (h : ways before text (.seq r s) = (ways before text r).flatMap (waysAfter before text s)) :
    ways before text (r.andThen s) = (ways before text r).flatMap (waysAfter before text s) := by
  cases r with
  | empty => simp [andThen, ways_empty, waysAfter_zero]
  | _ => exact h

/-- A step into a sequence, if its equation holds one character further on. -/
theorem lengths_take_andThen (before : Option Char) (text : List Char) (rest s : Regex)
    (h : ∀ c behind, text = c :: behind → ways (some c) behind (rest.andThen s) =
      (ways (some c) behind rest).flatMap (waysAfter (some c) behind s)) :
    (Step.take (rest.andThen s)).lengths (waysBehind text) =
      ((Step.take rest).lengths (waysBehind text)).flatMap (waysAfter before text s) := by
  cases text with
  | nil => rfl
  | cons c behind =>
    simp only [Step.lengths, waysBehind, h c behind rfl, List.map_flatMap, List.flatMap_map,
      waysAfter_cons]

theorem ways_seq (before : Option Char) (text : List Char) (r s : Regex) :
    ways before text (.seq r s) = (ways before text r).flatMap (waysAfter before text s) := by
  induction text generalizing before r s with
  | nil =>
    simp only [ways_eq, steps, List.flatMap_assoc]
    congr 1
    funext step
    cases step with
    | stop => simp [Step.lengths, waysAfter_zero, ways_eq]
    | take rest => rfl
  | cons c text ih =>
    simp only [ways_eq, steps, List.flatMap_assoc]
    congr 1
    funext step
    cases step with
    | stop => simp [Step.lengths, waysAfter_zero, ways_eq]
    | take rest =>
      have h := lengths_take_andThen before (c :: text) rest s fun d behind he => by
        cases he; exact ways_andThen _ _ _ _ (ih _ _ _)
      simpa using h

/-- A step of a loop's body as a step of the loop, which goes on as `loop`;
an iteration that takes nothing is no step. -/
def Step.again? (loop : Regex) : Step → Option Step
  | .stop => none
  | .take rest => some (.take (rest.andThen loop))

theorem steps_loop (before next : Option Char) (body : Regex) (least : Nat) (most : Option Nat)
    (greedy : Bool) :
    (Regex.loop body least most greedy).steps before next =
      let again := if most = some 0 then [] else (body.steps before next).filterMap
        (Step.again? (.loop body (least - 1) (most.map (· - 1)) greedy))
      let leave := if least = 0 then [Step.stop] else []
      if greedy then again ++ leave else leave ++ again := rfl

/-- The matches of a loop that make one more iteration. -/
def waysAgain (before : Option Char) (text : List Char) (body : Regex) (least : Nat)
    (most : Option Nat) (greedy : Bool) : List Nat :=
  if most = some 0 then []
  else ((ways before text body).filter (0 < ·)).flatMap
    (waysAfter before text (.loop body (least - 1) (most.map (· - 1)) greedy))

theorem flatMap_lengths_again (before : Option Char) (text : List Char) (loop : Regex)
    (next : List Step) :
    (next.filterMap (Step.again? loop)).flatMap (Step.lengths (waysBehind text)) =
      ((next.flatMap (Step.lengths (waysBehind text))).filter (0 < ·)).flatMap
        (waysAfter before text loop) := by
  induction next with
  | nil => rfl
  | cons step next ih =>
    rw [List.flatMap_cons, List.filter_append, List.flatMap_append, ← ih]
    cases step with
    | stop => rfl
    | take rest =>
      have hp : ((Step.take rest).lengths (waysBehind text)).filter (0 < ·) =
          (Step.take rest).lengths (waysBehind text) := by
        simp [Step.lengths]
      rw [hp, ← lengths_take_andThen before text rest loop fun c behind _ =>
        ways_andThen _ _ _ _ (ways_seq _ _ _ _)]
      rfl

/-- A greedy loop would rather go on than leave, a lazy one the other way
round. -/
theorem ways_loop (before : Option Char) (text : List Char) (body : Regex) (least : Nat)
    (most : Option Nat) (greedy : Bool) :
    ways before text (.loop body least most greedy) =
      if greedy then waysAgain before text body least most greedy ++ (if least = 0 then [0] else [])
      else (if least = 0 then [0] else []) ++ waysAgain before text body least most greedy := by
  have leave : (if least = 0 then [Step.stop] else []).flatMap (Step.lengths (waysBehind text)) =
      if least = 0 then [0] else [] := by
    split <;> rfl
  have again : (if most = some 0 then [] else (body.steps before text.head?).filterMap
        (Step.again? (.loop body (least - 1) (most.map (· - 1)) greedy))).flatMap
        (Step.lengths (waysBehind text)) = waysAgain before text body least most greedy := by
    unfold waysAgain
    split
    · rfl
    · rw [flatMap_lengths_again before, ← ways_eq]
  rw [ways_eq, steps_loop]
  cases greedy <;>
    simp only [if_true, Bool.false_eq_true, if_false, List.flatMap_append, leave] <;> rw [again]

/-! ## A pattern behind a loop -/

theorem charBefore_add (before : Option Char) (text : List Char) (m n : Nat) :
    charBefore (charBefore before text m) (text.drop m) n = charBefore before text (m + n) := by
  induction m generalizing before text with
  | zero => simp
  | succ m ih =>
    cases text with
    | nil => cases n <;> simp [charBefore]
    | cons c text => rw [Nat.succ_add, charBefore_cons, charBefore_cons, List.drop_succ_cons, ih]

/-- Two parts in front of `s` may be taken one after the other. -/
theorem flatMap_waysAfter (before : Option Char) (text : List Char) (r s : Regex) (n : Nat) :
    (waysAfter before text r n).flatMap (waysAfter before text s) =
      waysAfter before text (.seq r s) n := by
  simp only [waysAfter, ways_seq, List.flatMap_map, List.map_flatMap]
  congr 1
  funext m
  simp [charBefore_add, List.drop_drop, Nat.add_assoc, Function.comp_def]

theorem waysAgain_star (before : Option Char) (text : List Char) (body : Regex) (greedy : Bool) :
    waysAgain before text body 0 none greedy =
      ((ways before text body).filter (0 < ·)).flatMap
        (waysAfter before text (.loop body 0 none greedy)) := rfl

/-- A greedy loop tries what follows it last at the place where it begins. -/
theorem ways_seq_star (before : Option Char) (text : List Char) (body s : Regex) :
    ways before text (.seq (star body) s) =
      ((ways before text body).filter (0 < ·)).flatMap
        (waysAfter before text (.seq (star body) s)) ++ ways before text s := by
  rw [ways_seq, star, ways_loop, waysAgain_star]
  simp [List.flatMap_assoc, flatMap_waysAfter, waysAfter_zero]

/-- A lazy loop tries what follows it first. -/
theorem ways_seq_lazyStar (before : Option Char) (text : List Char) (body s : Regex) :
    ways before text (.seq (lazyStar body) s) =
      ways before text s ++ ((ways before text body).filter (0 < ·)).flatMap
        (waysAfter before text (.seq (lazyStar body) s)) := by
  rw [ways_seq, lazyStar, ways_loop, waysAgain_star]
  simp [List.flatMap_assoc, flatMap_waysAfter, waysAfter_zero]

/-! ## Fixed characters -/

theorem ways_char_cons (before : Option Char) (c d : Char) (text : List Char) :
    ways before (c :: text) (char d) = if c = d then [1] else [] := by
  simp [char, ways_one_cons]

theorem ways_char_nil (before : Option Char) (d : Char) : ways before [] (char d) = [] := rfl

/-- A fixed character behind `n` others. -/
theorem waysAfter_char (before : Option Char) (text : List Char) (c : Char) (n : Nat) :
    waysAfter before text (char c) n = if text[n]? = some c then [n + 1] else [] := by
  have hd : text[n]? = (text.drop n).head? := by rw [List.head?_drop]
  rw [waysAfter, hd]
  cases text.drop n with
  | nil => rfl
  | cons d rest =>
    rw [ways_char_cons]
    by_cases h : d = c <;> simp [h]

/-- Fixed characters match where they are a prefix. -/
theorem ways_chars (before : Option Char) (text cs : List Char) :
    ways before text (chars cs) = if cs <+: text then [cs.length] else [] := by
  fun_induction chars cs generalizing before text with
  | case1 => simp [ways_empty]
  | case2 c =>
    cases text with
    | nil => simp [ways_char_nil]
    | cons d text => simp [ways_char_cons, eq_comm]
  | case3 c cs hne ih =>
    cases text with
    | nil => simp [ways_seq, ways_char_nil]
    | cons d text =>
      rw [ways_seq, ways_char_cons]
      by_cases hd : d = c
      · subst hd
        by_cases hp : cs <+: text <;> simp [waysAfter, ih, hp, List.cons_prefix_cons, Nat.add_comm]
      · rw [if_neg hd, if_neg (fun h => hd (List.cons_prefix_cons.mp h).1.symm)]
        rfl

/-! ## Membership -/

theorem mem_waysAfter {before : Option Char} {text : List Char} {s : Regex} {i n : Nat} :
    n ∈ waysAfter before text s i ↔
      ∃ j ∈ ways (charBefore before text i) (text.drop i) s, n = i + j := by
  simp [waysAfter, eq_comm]

theorem mem_ways_seq {before : Option Char} {text : List Char} {r s : Regex} {n : Nat} :
    n ∈ ways before text (.seq r s) ↔ ∃ i ∈ ways before text r,
      ∃ j ∈ ways (charBefore before text i) (text.drop i) s, n = i + j := by
  simp [ways_seq, mem_waysAfter]

theorem mem_ways_one {before : Option Char} {text : List Char} {set : CharSet} {n : Nat} :
    n ∈ ways before text (.one set) ↔
      ∃ c rest, text = c :: rest ∧ set.contains c = true ∧ n = 1 := by
  cases text with
  | nil => simp [ways_one_nil]
  | cons c rest =>
    rw [ways_one_cons]
    split <;> simp_all

theorem mem_ways_char {before : Option Char} {text : List Char} {c : Char} {n : Nat} :
    n ∈ ways before text (char c) ↔ text.head? = some c ∧ n = 1 := by
  cases text with
  | nil => simp [ways_char_nil]
  | cons d text =>
    rw [ways_char_cons, List.head?_cons, Option.some.injEq]
    by_cases h : d = c <;> simp [h]

/-- Fixed characters match in one way. -/
theorem mem_ways_chars {before : Option Char} {text cs : List Char} {n : Nat} :
    n ∈ ways before text (chars cs) ↔ cs <+: text ∧ n = cs.length := by
  rw [ways_chars]
  split <;> simp_all

/-- A choice matches in the ways of its parts. -/
theorem mem_ways_firstOf {before : Option Char} {text : List Char} {rs : List Regex}
    (hne : rs ≠ []) {n : Nat} :
    n ∈ ways before text (firstOf rs) ↔ ∃ r ∈ rs, n ∈ ways before text r := by
  fun_induction firstOf rs with
  | case1 => exact absurd rfl hne
  | case2 r => simp
  | case3 r rs h ih => simp [ways_alt, ih h]

theorem mem_ways_boundary {before : Option Char} {text : List Char} {n : Nat} :
    n ∈ ways before text .boundary ↔ n = 0 ∧ isBoundary before text.head? = true := by
  rw [ways_boundary]
  split <;> simp_all

theorem mem_ways_loop {before : Option Char} {text : List Char} {body : Regex} {least : Nat}
    {most : Option Nat} {greedy : Bool} {n : Nat} :
    n ∈ ways before text (.loop body least most greedy) ↔
      n ∈ waysAgain before text body least most greedy ∨ (least = 0 ∧ n = 0) := by
  have leave : n ∈ (if least = 0 then [0] else []) ↔ least = 0 ∧ n = 0 := by
    split <;> simp_all
  rw [ways_loop]
  cases greedy
  · simp only [Bool.false_eq_true, if_false, List.mem_append, leave]
    exact Or.comm
  · simp only [if_true, List.mem_append, leave]

theorem mem_waysAgain_one_cons {before : Option Char} {c : Char} {text : List Char} {set : CharSet}
    {least : Nat} {most : Option Nat} {greedy : Bool} {n : Nat} :
    n ∈ waysAgain before (c :: text) (.one set) least most greedy ↔
      most ≠ some 0 ∧ set.contains c = true ∧
        ∃ j ∈ ways (some c) text (.loop (.one set) (least - 1) (most.map (· - 1)) greedy),
          n = j + 1 := by
  unfold waysAgain
  split
  · simp_all
  · rename_i hm
    rw [ways_one_cons]
    split
    · rename_i hc
      simp [mem_waysAfter, hm, hc, Nat.add_comm 1]
    · rename_i hc
      simp [hc]

/-- A loop over single characters takes any admissible number of them from the
run at the start of the text. -/
theorem mem_ways_loop_one {before : Option Char} {text : List Char} {set : CharSet} {least : Nat}
    {most : Option Nat} {greedy : Bool} {n : Nat} :
    n ∈ ways before text (.loop (.one set) least most greedy) ↔
      least ≤ n ∧ (∀ m, most = some m → n ≤ m) ∧ n ≤ (text.takeWhile set.contains).length := by
  -- Where the run is empty, the loop can only leave.
  have at_empty_run : ∀ (least : Nat) (most : Option Nat) (n : Nat), least = 0 ∧ n = 0 ↔
      least ≤ n ∧ (∀ m, most = some m → n ≤ m) ∧ n ≤ 0 := by
    intro least most n
    constructor
    · intro h
      obtain ⟨rfl, rfl⟩ := h
      exact ⟨Nat.le_refl _, fun _ _ => Nat.zero_le _, Nat.le_refl _⟩
    · intro h
      obtain ⟨h1, -, h2⟩ := h
      omega
  induction text generalizing before least most n with
  | nil =>
    have : waysAgain before [] (.one set) least most greedy = [] := by
      simp [waysAgain, ways_one_nil]
    rw [mem_ways_loop, this]
    simp only [List.not_mem_nil, false_or, List.takeWhile_nil, List.length_nil]
    exact at_empty_run least most n
  | cons c text ih =>
    rw [mem_ways_loop, mem_waysAgain_one_cons]
    simp only [ih]
    by_cases hc : set.contains c = true
    · rw [List.takeWhile_cons_of_pos hc, List.length_cons]
      constructor
      · intro h
        rcases h with ⟨hm, -, j, ⟨h1, h2, h3⟩, rfl⟩ | ⟨rfl, rfl⟩
        · refine ⟨by omega, ?_, by omega⟩
          intro m hmost
          subst hmost
          have := h2 (m - 1) rfl
          have : m ≠ 0 := fun e => hm (by rw [e])
          omega
        · exact ⟨Nat.le_refl _, fun _ _ => Nat.zero_le _, Nat.zero_le _⟩
      · intro h
        obtain ⟨h1, h2, h3⟩ := h
        cases n with
        | zero => exact Or.inr ⟨by omega, rfl⟩
        | succ j =>
          refine Or.inl ⟨fun e => ?_, hc, j, ⟨by omega, ?_, by omega⟩, rfl⟩
          · have := h2 0 e; omega
          · intro m hm
            obtain ⟨m', rfl, rfl⟩ := Option.map_eq_some_iff.mp hm
            have := h2 m' rfl; omega
    · rw [List.takeWhile_cons_of_neg hc]
      simp only [hc, Bool.false_eq_true, false_and, and_false, false_or, List.length_nil]
      exact at_empty_run least most n

end ScopeLex.Regex
