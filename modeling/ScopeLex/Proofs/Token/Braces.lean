import Mathlib.Order.Bounds.Basic
import ScopeLex.Token.Basic

/-!
# Braces

Braces need not match: a closing one may find no block to close, and a block may stay
open. Of any braces those that do not match are first some that close and then some that
open. How many there are can be counted in three ways: by cutting out what matches, by
going through the braces with the depth, which does not go below zero, or by how many
more braces open than close, in every part at the beginning or at the end.

* `Unmatched`, `exists_unmatched`: the braces that do not match.
* `Unmatched.eq_of_depth`: what going through the braces makes of them.
* `depthAfter_eq_surplus`: the depth counts openings, closings and stray closings.
* `isGreatest_depthAfter`: the depth at the end is the greatest surplus of an ending.
* `isGreatest_strayCloses`: the stray closings are the greatest deficit of a beginning.
* `firstPassage_strayCloses`: each of them is where the deficit reaches its number first.
-/
namespace ScopeLex

/-! ## Braces -/

namespace Token

/-- The token opens a block. -/
def opensBlock (t : Token) : Bool := t.kind == .delimiter && t.lexeme == "\x7b"

/-- The token closes a block. -/
def closesBlock (t : Token) : Bool := t.kind == .delimiter && t.lexeme == "\x7d"

def isBrace (t : Token) : Bool := t.opensBlock || t.closesBlock

theorem closesBlock_eq_false {t : Token} (h : t.opensBlock = true) : t.closesBlock = false := by
  simp only [opensBlock, Bool.and_eq_true, beq_iff_eq] at h
  simp [closesBlock, h.2]

theorem opensBlock_eq_false {t : Token} (h : t.closesBlock = true) : t.opensBlock = false := by
  rw [← Bool.not_eq_true]
  intro ho
  rw [closesBlock_eq_false ho] at h
  cases h

/-- A token opens a block, closes one, or is no brace. -/
theorem brace_cases (t : Token) :
    (t.opensBlock = true ∧ t.closesBlock = false) ∨
      (t.opensBlock = false ∧ t.closesBlock = true) ∨
      (t.opensBlock = false ∧ t.closesBlock = false) := by
  cases ho : t.opensBlock with
  | true => simp [closesBlock_eq_false ho]
  | false => cases t.closesBlock <;> simp

/-- The depth behind the token, in front of which `depth` blocks are open. -/
def depthBehind (depth : Nat) (t : Token) : Nat :=
  if t.opensBlock then depth + 1 else if t.closesBlock then depth - 1 else depth

/-- The token closes a block where none is open. -/
def isStray (depth : Nat) (t : Token) : Bool := t.closesBlock && depth == 0

/-- Behind such a token still none is open. -/
theorem depthBehind_of_isStray {depth : Nat} {t : Token} (h : t.isStray depth = true) :
    t.depthBehind depth = 0 := by
  obtain ⟨hc, hd⟩ := Bool.and_eq_true_iff.mp h
  simp [depthBehind, opensBlock_eq_false hc, hc, beq_iff_eq.mp hd]

end Token

open Token (depthBehind)

/-- How many more braces open than close. -/
def surplus (tokens : List Token) : Int :=
  (tokens.countP Token.opensBlock : Int) - tokens.countP Token.closesBlock

/-- The depth behind tokens, in front of which `depth` blocks are open. -/
def depthAfter (depth : Nat) (tokens : List Token) : Nat := tokens.foldl depthBehind depth

/-- The tokens that close a block where none is open. -/
def strayCloses (depth : Nat) : List Token → List Token
  | [] => []
  | t :: tokens =>
    if t.isStray depth then t :: strayCloses (t.depthBehind depth) tokens
    else strayCloses (t.depthBehind depth) tokens

/-! ## Counting -/

@[simp] theorem surplus_nil : surplus [] = 0 := rfl

theorem surplus_append (a b : List Token) : surplus (a ++ b) = surplus a + surplus b := by
  simp only [surplus, List.countP_append]
  omega

theorem surplus_cons (t : Token) (tokens : List Token) :
    surplus (t :: tokens) = surplus [t] + surplus tokens := surplus_append [t] tokens

@[simp] theorem depthAfter_nil (depth : Nat) : depthAfter depth [] = depth := rfl

@[simp] theorem depthAfter_cons (depth : Nat) (t : Token) (tokens : List Token) :
    depthAfter depth (t :: tokens) = depthAfter (t.depthBehind depth) tokens := rfl

theorem depthAfter_append (depth : Nat) (a b : List Token) :
    depthAfter depth (a ++ b) = depthAfter (depthAfter depth a) b := List.foldl_append

theorem strayCloses_append (depth : Nat) (a b : List Token) :
    strayCloses depth (a ++ b) = strayCloses depth a ++ strayCloses (depthAfter depth a) b := by
  induction a generalizing depth with
  | nil => rfl
  | cons t a ih =>
    rw [List.cons_append, strayCloses, strayCloses, ih, depthAfter_cons]
    split <;> rfl

/-- A token that is no brace has no effect. -/
theorem depthAfter_filter (depth : Nat) (tokens : List Token) :
    depthAfter depth (tokens.filter Token.isBrace) = depthAfter depth tokens ∧
      strayCloses depth (tokens.filter Token.isBrace) = strayCloses depth tokens := by
  induction tokens generalizing depth with
  | nil => exact ⟨rfl, rfl⟩
  | cons t tokens ih =>
    cases ht : t.isBrace with
    | true =>
      obtain ⟨hdepth, hstray⟩ := ih (t.depthBehind depth)
      rw [List.filter_cons_of_pos ht, strayCloses, strayCloses, hstray]
      exact ⟨hdepth, rfl⟩
    | false =>
      obtain ⟨ho, hc⟩ := Bool.or_eq_false_iff.mp ht
      have hbehind : t.depthBehind depth = depth := by simp [depthBehind, ho, hc]
      rw [List.filter_cons_of_neg (by rw [ht]; decide), depthAfter_cons, strayCloses, hbehind]
      simpa [Token.isStray, hc] using ih depth

/-- One token: the depth counts what opens and what closes, and a stray token does not
count. -/
theorem depthBehind_eq (depth : Nat) (t : Token) :
    (t.depthBehind depth : Int) = depth + surplus [t] + (strayCloses depth [t]).length := by
  obtain ⟨ho, hc⟩ | ⟨ho, hc⟩ | ⟨ho, hc⟩ := t.brace_cases
  · have hsurplus : surplus [t] = 1 := by simp [surplus, ho, hc]
    have hstray : strayCloses depth [t] = [] := by simp [strayCloses, Token.isStray, hc]
    rw [hsurplus, hstray, depthBehind, if_pos ho, List.length_nil]
    omega
  · have hsurplus : surplus [t] = -1 := by simp [surplus, ho, hc]
    have hbehind : t.depthBehind depth = depth - 1 := by simp [depthBehind, ho, hc]
    rw [hsurplus, hbehind]
    cases depth with
    | zero =>
      have hstray : strayCloses 0 [t] = [t] := by simp [strayCloses, Token.isStray, hc]
      rw [hstray, List.length_singleton]
      omega
    | succ depth =>
      have hstray : strayCloses (depth + 1) [t] = [] := by simp [strayCloses, Token.isStray]
      rw [hstray, List.length_nil]
      omega
  · have hsurplus : surplus [t] = 0 := by simp [surplus, ho, hc]
    have hstray : strayCloses depth [t] = [] := by simp [strayCloses, Token.isStray, hc]
    have hbehind : t.depthBehind depth = depth := by simp [depthBehind, ho, hc]
    rw [hsurplus, hstray, hbehind, List.length_nil]
    omega

/-- So do many. -/
theorem depthAfter_eq_surplus (depth : Nat) (tokens : List Token) :
    (depthAfter depth tokens : Int) =
      depth + surplus tokens + (strayCloses depth tokens).length := by
  induction tokens generalizing depth with
  | nil => simp [strayCloses]
  | cons t tokens ih =>
    have hone := depthBehind_eq depth t
    have hsplit : strayCloses depth (t :: tokens) =
        strayCloses depth [t] ++ strayCloses (t.depthBehind depth) tokens :=
      strayCloses_append depth [t] tokens
    rw [depthAfter_cons, ih, surplus_cons, hsplit, List.length_append, hone]
    omega

/-! ## Matching -/

/-- All braces match: `tokens` is made of blocks. -/
inductive Matched : List Token → Prop
  | nil : Matched []
  | block {opening closing : Token} {inner rest : List Token} (opens : opening.opensBlock = true)
      (closes : closing.closesBlock = true) (inside : Matched inner) (behind : Matched rest) :
      Matched (opening :: (inner ++ closing :: rest))

/-- The braces that do not match are `closes` and behind them `opens`: between them all
braces match. -/
inductive Unmatched : List Token → List Token → List Token → Prop
  | matched {tokens : List Token} (all : Matched tokens) : Unmatched tokens [] []
  | close {front rest closes opens : List Token} {t : Token} (inFront : Matched front)
      (stray : t.closesBlock = true) (behind : Unmatched rest closes opens) :
      Unmatched (front ++ t :: rest) (t :: closes) opens
  | open {front rest opens : List Token} {t : Token} (inFront : Matched front)
      (unclosed : t.opensBlock = true) (behind : Unmatched rest [] opens) :
      Unmatched (front ++ t :: rest) [] (t :: opens)

theorem Matched.append {a b : List Token} (ha : Matched a) (hb : Matched b) : Matched (a ++ b) := by
  induction ha with
  | nil => exact hb
  | block opens closes inside _ _ ih =>
    rw [List.cons_append, List.append_assoc, List.cons_append]
    exact .block opens closes inside ih

theorem Unmatched.prepend {front tokens closes opens : List Token} (hf : Matched front)
    (h : Unmatched tokens closes opens) : Unmatched (front ++ tokens) closes opens := by
  cases h with
  | matched all => exact .matched (hf.append all)
  | close inFront stray behind =>
    rw [← List.append_assoc]
    exact .close (hf.append inFront) stray behind
  | «open» inFront unclosed behind =>
    rw [← List.append_assoc]
    exact .open (hf.append inFront) unclosed behind

/-- Any braces are of this form. -/
theorem exists_unmatched {braces : List Token} (h : ∀ t ∈ braces, t.isBrace = true) :
    ∃ closes opens, Unmatched braces closes opens := by
  induction braces with
  | nil => exact ⟨[], [], .matched .nil⟩
  | cons t braces ih =>
    obtain ⟨closes, opens, hrest⟩ := ih fun u hu => h u (List.mem_cons_of_mem _ hu)
    rcases Bool.or_eq_true_iff.mp (h t List.mem_cons_self) with ho | hc
    · -- An opening brace matches the first one that closes none of the blocks behind it.
      cases hrest with
      | matched all => exact ⟨[], [t], .open .nil ho (.matched all)⟩
      | «open» inFront unclosed behind =>
        exact ⟨[], _, .open .nil ho (.open inFront unclosed behind)⟩
      | @close front rest closes _ c inFront stray behind =>
        have hblock : Matched (t :: (front ++ [c])) := .block ho stray inFront .nil
        have happ := behind.prepend hblock
        rw [List.cons_append, List.append_assoc, List.singleton_append] at happ
        exact ⟨closes, opens, happ⟩
    · exact ⟨t :: closes, opens, .close .nil hc hrest⟩

/-- Blocks leave the depth as it was. -/
theorem Matched.depthAfter_eq {tokens : List Token} (h : Matched tokens) (depth : Nat) :
    depthAfter depth tokens = depth ∧ strayCloses depth tokens = [] := by
  induction h generalizing depth with
  | nil => exact ⟨rfl, rfl⟩
  | @block opening closing inner rest opens closes _ _ ih ih' =>
    have hopen : opening.depthBehind depth = depth + 1 := by simp [depthBehind, opens]
    have hclose : closing.depthBehind (depth + 1) = depth := by
      simp [depthBehind, Token.opensBlock_eq_false closes, closes]
    have hstray : opening.isStray depth = false := by
      simp [Token.isStray, Token.closesBlock_eq_false opens]
    have hstray' : closing.isStray (depth + 1) = false := by simp [Token.isStray]
    rw [depthAfter_cons, strayCloses, if_neg (by rw [hstray]; decide), hopen, depthAfter_append,
      strayCloses_append, (ih _).1, (ih _).2, depthAfter_cons, strayCloses,
      if_neg (by rw [hstray']; decide), hclose]
    exact ih' depth

theorem Unmatched.eq_of_depth {tokens closes opens : List Token} (h : Unmatched tokens closes opens)
    (depth : Nat) :
    depthAfter depth tokens = depth - closes.length + opens.length ∧
      strayCloses depth tokens = closes.drop depth := by
  induction h generalizing depth with
  | matched all =>
    obtain ⟨hdepth, hstray⟩ := all.depthAfter_eq depth
    simp [hdepth, hstray]
  | @close front rest closes opens t inFront stray _ ih =>
    obtain ⟨hdepth, hstray⟩ := inFront.depthAfter_eq depth
    have hbehind : t.depthBehind depth = depth - 1 := by
      simp [depthBehind, Token.opensBlock_eq_false stray, stray]
    obtain ⟨hrest, hrest'⟩ := ih (depth - 1)
    rw [depthAfter_append, strayCloses_append, hdepth, hstray, depthAfter_cons, strayCloses,
      hbehind, hrest, hrest', List.nil_append, List.length_cons]
    cases depth with
    | zero => simp [Token.isStray, stray]
    | succ depth => simp [Token.isStray]
  | @«open» front rest opens t inFront unclosed _ ih =>
    obtain ⟨hdepth, hstray⟩ := inFront.depthAfter_eq depth
    have hbehind : t.depthBehind depth = depth + 1 := by simp [depthBehind, unclosed]
    obtain ⟨hrest, hrest'⟩ := ih (depth + 1)
    rw [depthAfter_append, strayCloses_append, hdepth, hstray, depthAfter_cons, strayCloses,
      hbehind, hrest, hrest', List.nil_append, List.length_cons]
    simp [Token.isStray, Token.closesBlock_eq_false unclosed]
    omega

/-! ## Surplus and deficit -/

theorem surplus_le_depthAfter (depth : Nat) (tokens : List Token) :
    (depth : Int) + surplus tokens ≤ depthAfter depth tokens := by
  have := depthAfter_eq_surplus depth tokens
  omega

/-- The depth at the end is that at the beginning with the surplus, unless it was zero
in between. -/
theorem exists_suffix_of_depthAfter (depth : Nat) (tokens : List Token) :
    (depthAfter depth tokens : Int) = depth + surplus tokens ∨
      ∃ later, later <:+ tokens ∧ surplus later = depthAfter depth tokens := by
  induction tokens generalizing depth with
  | nil => exact Or.inl (by simp)
  | cons t tokens ih =>
    rw [depthAfter_cons]
    rcases ih (t.depthBehind depth) with h | ⟨later, hsuffix, h⟩
    · have hone := depthBehind_eq depth t
      unfold strayCloses at hone
      split at hone
      · -- Behind a stray closing the depth is zero.
        rename_i hstray
        have hzero := Token.depthBehind_of_isStray hstray
        refine Or.inr ⟨tokens, List.suffix_cons t tokens, ?_⟩
        rw [hzero] at h ⊢
        omega
      · refine Or.inl ?_
        rw [surplus_cons, h, hone]
        simp only [strayCloses, List.length_nil]
        omega
    · exact Or.inr ⟨later, hsuffix.trans (List.suffix_cons t tokens), h⟩

/-- The depth at the end is the greatest surplus of an ending. -/
theorem isGreatest_depthAfter (tokens : List Token) :
    IsGreatest {n : Int | ∃ later, later <:+ tokens ∧ surplus later = n} (depthAfter 0 tokens) := by
  constructor
  · rcases exists_suffix_of_depthAfter 0 tokens with h | h
    · exact ⟨tokens, List.suffix_rfl, by rw [h]; simp⟩
    · exact h
  · intro n hn
    obtain ⟨later, ⟨front, rfl⟩, rfl⟩ := hn
    have h := surplus_le_depthAfter (depthAfter 0 front) later
    rw [depthAfter_append]
    omega

/-- A beginning has no greater deficit than it has stray closings. -/
theorem deficit_le_length_strayCloses {earlier tokens : List Token} (h : earlier <+: tokens) :
    -surplus earlier ≤ (strayCloses 0 tokens).length := by
  obtain ⟨rest, rfl⟩ := h
  have := depthAfter_eq_surplus 0 earlier
  rw [strayCloses_append, List.length_append]
  omega

/-- Where a stray closing stands. -/
theorem exists_split_of_strayCloses {depth i : Nat} {tokens : List Token} {t : Token}
    (h : (strayCloses depth tokens)[i]? = some t) :
    ∃ before after, tokens = before ++ t :: after ∧ t.isStray (depthAfter depth before) = true ∧
      (strayCloses depth before).length = i := by
  induction tokens generalizing depth i with
  | nil => cases h
  | cons u tokens ih =>
    unfold strayCloses at h
    split at h
    · rename_i hstray
      cases i with
      | zero =>
        cases h
        exact ⟨[], tokens, rfl, hstray, rfl⟩
      | succ i =>
        obtain ⟨before, after, rfl, hdepth, hlen⟩ := ih h
        refine ⟨u :: before, after, rfl, hdepth, ?_⟩
        rw [strayCloses, if_pos hstray, List.length_cons, hlen]
    · rename_i hstray
      obtain ⟨before, after, rfl, hdepth, hlen⟩ := ih h
      refine ⟨u :: before, after, rfl, hdepth, ?_⟩
      rw [strayCloses, if_neg hstray, hlen]

/-- A stray closing is where the deficit of the beginnings reaches its number first. -/
theorem firstPassage_strayCloses {i : Nat} {tokens : List Token} {t : Token}
    (h : (strayCloses 0 tokens)[i]? = some t) :
    ∃ before after, tokens = before ++ t :: after ∧ -surplus (before ++ [t]) = i + 1 ∧
      ∀ earlier, earlier <+: before → -surplus earlier < i + 1 := by
  obtain ⟨before, after, hsplit, hstray, hlen⟩ := exists_split_of_strayCloses h
  refine ⟨before, after, hsplit, ?_, fun earlier hp => ?_⟩
  · have hdepth : depthAfter 0 (before ++ [t]) = 0 := by
      rw [depthAfter_append, depthAfter_cons, depthAfter_nil, Token.depthBehind_of_isStray hstray]
    have hcount : (strayCloses 0 (before ++ [t])).length = i + 1 := by
      rw [strayCloses_append, List.length_append, hlen, strayCloses, if_pos hstray]
      rfl
    have := depthAfter_eq_surplus 0 (before ++ [t])
    omega
  · have := deficit_le_length_strayCloses hp
    omega

/-- The stray closings are as many as the greatest deficit of a beginning. -/
theorem isGreatest_strayCloses (tokens : List Token) :
    IsGreatest {n : Int | ∃ earlier, earlier <+: tokens ∧ -surplus earlier = n}
      (strayCloses 0 tokens).length := by
  refine ⟨?_, fun n hn => ?_⟩
  · cases hl : (strayCloses 0 tokens).length with
    | zero => exact ⟨[], List.nil_prefix, rfl⟩
    | succ i =>
      obtain ⟨t, ht⟩ : ∃ t, (strayCloses 0 tokens)[i]? = some t :=
        ⟨_, List.getElem?_eq_getElem (by omega)⟩
      obtain ⟨before, after, hsplit, hdeficit, -⟩ := firstPassage_strayCloses ht
      refine ⟨before ++ [t], ⟨after, ?_⟩, by rw [hdeficit]; rfl⟩
      rw [hsplit, List.append_assoc, List.singleton_append]
  · obtain ⟨earlier, hp, rfl⟩ := hn
    exact deficit_le_length_strayCloses hp

end ScopeLex
