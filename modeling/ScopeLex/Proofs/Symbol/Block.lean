import ScopeLex.Proofs.Symbol.Visibility

/-!
# What a block leaves behind

Whatever happens inside a block happens above the frames that were there before.
When the block is closed they come back as they were, and only the history has
grown.

* `Above`: a table with further blocks and symbols on top of another one.
* `Above.step`, `above_applyAll`: what happens inside a block stays above.
* `Above.close`: closing the further blocks leaves the symbols behind.
* `SymbolTable.place?`: the place in the history that a name is taken to.
* `block_neutral`: a block that has been closed changed nothing but the history.
-/
namespace ScopeLex

open SymbolTable (Step)

/-- `u` has the frames `inner` above those of `t`, and the symbols `added` after
those of `t`. -/
structure Above (t : SymbolTable) (inner : List Frame) (added : List Symbol) (u : SymbolTable) :
    Prop where
  nested : u.nested = inner ++ t.nested
  globals : u.globals = t.globals
  history : u.history.toList = t.history.toList ++ added

/-- No exit leaves a level below this one. -/
def StaysAt (level : Nat) (outcomes : List Outcome) : Prop :=
  ∀ k, .exited k ∈ outcomes → level ≤ k

/-- The level that an exit leads to. -/
def Outcome.exited? : Outcome → Option Nat
  | .exited level => some level
  | _ => none

theorem staysAt_iff (level : Nat) (outcomes : List Outcome) :
    StaysAt level outcomes ↔ ∀ k ∈ outcomes.filterMap Outcome.exited?, level ≤ k := by
  have hmem : ∀ k, .exited k ∈ outcomes ↔ k ∈ outcomes.filterMap Outcome.exited? := by
    intro k
    rw [List.mem_filterMap]
    constructor
    · exact fun hk => ⟨_, hk, rfl⟩
    · intro hk
      obtain ⟨o, ho, he⟩ := hk
      cases o with
      | exited level => cases he; exact ho
      | _ => cases he
  exact forall_congr' fun k => by rw [hmem k]

instance (level : Nat) (outcomes : List Outcome) : Decidable (StaysAt level outcomes) :=
  decidable_of_iff _ (staysAt_iff level outcomes).symm

namespace Above

variable {t u v : SymbolTable} {inner : List Frame} {added : List Symbol}

theorem level (h : Above t inner added u) : u.level = inner.length + t.level := by
  rw [SymbolTable.level, h.nested, List.length_append, SymbolTable.level, Nat.add_assoc]

theorem enter (t : SymbolTable) : Above t [∅] [] t.enter :=
  ⟨rfl, rfl, (List.append_nil _).symm⟩

/-- A new symbol goes into the innermost of the further blocks. -/
theorem add {frame : Frame} (h : Above t (frame :: inner) added u) (s : Symbol) :
    ∃ frame', Above t (frame' :: inner) (added ++ [s]) (u.add s) := by
  obtain ⟨hn, hg, hh⟩ := h
  obtain ⟨nested, globals, history, nextAddress⟩ := u
  obtain rfl : nested = frame :: inner ++ t.nested := hn
  refine ⟨_, rfl, hg, ?_⟩
  rw [SymbolTable.history_add, Array.toList_push, ← List.append_assoc]
  exact congrArg (· ++ [s]) hh

/-- A step inside a block stays above, unless it closes the block itself. -/
theorem step (h : Above t inner added u) (hne : inner ≠ []) {change : Change} {outcome : Outcome}
    (hs : Step u change outcome v) (hstay : ∀ k, outcome = .exited k → t.level + 1 ≤ k) :
    ∃ inner', inner' ≠ [] ∧ Above t inner' (added ++ outcome.symbol?.toList) v := by
  obtain ⟨frame, outer, rfl⟩ := List.exists_cons_of_ne_nil hne
  cases hs with
  | enter =>
    refine ⟨∅ :: frame :: outer, List.cons_ne_nil _ _, ?_, h.globals, ?_⟩
    · exact congrArg (∅ :: ·) h.nested
    · exact h.history.trans (congrArg _ (List.append_nil _).symm)
  | exit hopen =>
    obtain ⟨rfl, rfl⟩ := List.cons.inj (h.nested.symm.trans hopen)
    refine ⟨outer, fun hnil => ?_, rfl, h.globals, ?_⟩
    · subst hnil
      exact absurd (hstay _ rfl) (Nat.lt_irrefl _)
    · exact h.history.trans (congrArg _ (List.append_nil _).symm)
  | exitGlobal hglobal =>
    have := h.nested
    rw [hglobal] at this
    cases this
  | register _ _ =>
    obtain ⟨frame', h'⟩ := h.add (u.symbolFor _ _ _)
    exact ⟨frame' :: outer, List.cons_ne_nil _ _, h'⟩
  | refuse _ _ =>
    exact ⟨frame :: outer, hne, h.nested, h.globals,
      h.history.trans (congrArg _ (List.append_nil _).symm)⟩

/-- Closing the innermost of the further blocks. -/
theorem exit {frame : Frame} (h : Above t (frame :: inner) added u) :
    Above t inner added (u.apply .exit).1 := by
  obtain ⟨hn, hg, hh⟩ := h
  obtain ⟨nested, globals, history, nextAddress⟩ := u
  obtain rfl : nested = frame :: inner ++ t.nested := hn
  exact ⟨rfl, hg, hh⟩

/-- Closing all of them leaves the symbols behind. -/
theorem close (h : Above t inner added u) :
    Above t [] added (u.performAll (List.replicate inner.length (.change .exit))) := by
  induction inner generalizing u with
  | nil => exact h
  | cons frame inner ih => exact ih h.exit

/-! ## When the blocks are closed -/

theorem frames_eq (h : Above t [] added u) : u.frames = t.frames := by
  rw [SymbolTable.frames, SymbolTable.frames, h.nested, h.globals, List.nil_append]

theorem current_eq (h : Above t [] added u) : u.current = t.current := by
  rw [SymbolTable.current, SymbolTable.current, h.nested, h.globals, List.nil_append]

end Above

/-- What happens inside a block stays above the table in which it was opened, as long
as the block itself is not closed. -/
theorem above_applyAll {t : SymbolTable} {changes : List Change}
    (hstay : StaysAt t.enter.level (t.enter.applyAll changes).2) :
    ∃ inner, inner ≠ [] ∧
      Above t inner ((t.enter.applyAll changes).2.filterMap Outcome.symbol?)
        (t.enter.applyAll changes).1 := by
  have start : Above t [∅] [] t.enter := .enter t
  refine SymbolTable.applyAll_induction
    (motive := fun outcomes u => StaysAt t.enter.level outcomes →
      ∃ inner, inner ≠ [] ∧ Above t inner (outcomes.filterMap Outcome.symbol?) u)
    ?_ (fun _ => ⟨[∅], List.cons_ne_nil _ _, start⟩) hstay
  intro _ _ outcomes u outcome v hs ih hstay
  obtain ⟨inner, hne, h⟩ := ih fun k hk => hstay k (List.mem_append_left _ hk)
  obtain ⟨inner', hne', h'⟩ := h.step hne hs fun k hk =>
    hstay k (List.mem_append_right _ (List.mem_singleton.mpr hk.symm))
  refine ⟨inner', hne', ?_⟩
  rwa [List.filterMap_append, SymbolTable.filterMap_symbol?_singleton]

/-! ## What a name means afterwards -/

/-- The place in the history of the symbol that a name means. -/
def SymbolTable.place? (t : SymbolTable) (name : String) : Option Nat :=
  t.frames.findSome? fun frame => frame[name]?

theorem SymbolTable.lookup?_eq_bind_place? (t : SymbolTable) (name : String) :
    t.lookup? name = (t.place? name).bind fun place => t.history[place]? := rfl

theorem Tracks.place?_lt {scopes : Scopes} {t : SymbolTable} (h : Tracks scopes t)
    {name : String} {place : Nat} (hp : t.place? name = some place) : place < t.history.size := by
  obtain ⟨s, hs, -⟩ := h.found hp
  exact (Array.getElem?_eq_some_iff.mp hs).1

namespace Above

variable {t u : SymbolTable} {added : List Symbol} {scopes : Scopes}

theorem getElem?_history (h : Above t [] added u) {place : Nat} (hlt : place < t.history.size) :
    u.history[place]? = t.history[place]? := by
  rw [← Array.getElem?_toList, ← Array.getElem?_toList, h.history, List.getElem?_append_left]
  rwa [Array.length_toList]

theorem place?_eq (h : Above t [] added u) (name : String) : u.place? name = t.place? name := by
  rw [SymbolTable.place?, SymbolTable.place?, h.frames_eq]

/-- Frames hold places of the older history only, so that names mean what they meant. -/
theorem lookup?_eq (h : Above t [] added u) (ht : Tracks scopes t) (name : String) :
    u.lookup? name = t.lookup? name := by
  rw [SymbolTable.lookup?_eq_bind_place?, SymbolTable.lookup?_eq_bind_place?, h.place?_eq]
  cases hp : t.place? name with
  | none => rfl
  | some place => exact h.getElem?_history (ht.place?_lt hp)

theorem fault?_register (h : Above t [] added u) (name : String) (category : Category)
    (scope : ScopeTag) :
    (u.apply (.register name category scope)).2.fault? =
      (t.apply (.register name category scope)).2.fault? := by
  have hrefusal : u.refusal? name category = t.refusal? name category := by
    unfold SymbolTable.refusal?
    rw [h.current_eq]
  have fault?_eq : ∀ t : SymbolTable,
      (t.apply (.register name category scope)).2.fault? = t.refusal? name category := by
    intro t
    rw [SymbolTable.apply]
    cases hr : t.refusal? name category with
    | none => rw [SymbolTable.register_of_no_refusal hr]; rfl
    | some fault => rw [SymbolTable.register_of_refusal hr]; rfl
  rw [fault?_eq, fault?_eq, hrefusal]

/-- The symbols left behind are not even like those in sight: their addresses are greater
than those of the older ones, as long as addresses ascend. -/
theorem lookup?_ne (h : Above t [] added u) (ht : Tracks scopes t) {base : Nat}
    (hu : u.Addressed base) (hroom : base + u.history.size ≤ UInt64.size) {s : Symbol}
    (hs : s ∈ added) (name : String) : u.lookup? name ≠ some s := by
  rw [h.lookup?_eq ht]
  intro hl
  obtain ⟨place, hplace, hold⟩ := Option.bind_eq_some_iff.mp hl
  obtain ⟨hlt, -⟩ := Array.getElem?_eq_some_iff.mp hold
  obtain ⟨i, hi⟩ := List.getElem?_of_mem hs
  have hnew : u.history[t.history.size + i]? = some s := by
    rw [← Array.getElem?_toList, h.history,
      List.getElem?_append_right (by rw [Array.length_toList]; exact Nat.le_add_right _ _),
      Array.length_toList, Nat.add_sub_cancel_left, hi]
  have hsame : u.history[place]? = some s := by
    rw [h.getElem?_history hlt]
    exact hold
  have := hu.address_of_room hroom hnew
  have := hu.address_of_room hroom hsame
  omega

end Above

/-- A block that has been closed changed nothing but the history. Whatever is done
inside it, as long as no exit goes below its level, and whatever fails: once its inner
blocks and the block itself are closed, the level is what it was, every name means what
it meant and is refused or not as it was, and the history has the symbols of the block
in addition. No name leads to one of them any more, nor, unless addresses have run out, to
one that is equal to one of them. -/
theorem block_neutral (base : Nat) (setup inside : List Call) :
    let t := (SymbolTable.empty base).performAll setup
    let reached := t.enter.performAll inside
    let added := (t.enter.answers inside).filterMap Outcome.symbol?
    let u := t.performAll (.change .enter :: inside ++
      List.replicate (reached.level - t.enter.level) (.change .exit) ++ [.change .exit])
    StaysAt t.enter.level (t.enter.answers inside) →
      u.level = t.level ∧ (∀ name, u.lookup? name = t.lookup? name) ∧
        (∀ name category scope, (u.apply (.register name category scope)).2.fault? =
          (t.apply (.register name category scope)).2.fault?) ∧
        u.history.toList = t.history.toList ++ added ∧
        (∀ name place, u.place? name = some place → place < t.history.size) ∧
        (base + u.history.size ≤ UInt64.size → ∀ s ∈ added, ∀ name, u.lookup? name ≠ some s) := by
  intro t reached added u hstay
  have ht : t = ((SymbolTable.empty base).applyAll (setup.flatMap Call.changes)).1 :=
    SymbolTable.performAll_eq_applyAll _ _
  have htracks := tracks_applyAll base (setup.flatMap Call.changes)
  rw [← ht] at htracks
  have hu : u.Addressed base := by
    have hrun : u = (SymbolTable.empty base).performAll (setup ++ (.change .enter :: inside ++
        List.replicate (reached.level - t.enter.level) (.change .exit) ++ [.change .exit])) :=
      List.foldl_append.symm
    rw [hrun]
    exact SymbolTable.addressed_performAll base _
  obtain ⟨inner, hne, habove⟩ := above_applyAll hstay
  have hreached : Above t inner added reached := by
    have heq : reached = (t.enter.applyAll (inside.flatMap Call.changes)).1 :=
      SymbolTable.performAll_eq_applyAll _ _
    rw [heq]
    exact habove
  have hcount : reached.level - t.enter.level + 1 = inner.length := by
    have := List.length_pos_iff.mpr hne
    rw [hreached.level, SymbolTable.level_enter]
    omega
  have hclosed : Above t [] added u := by
    have hrun : u = reached.performAll (List.replicate inner.length (.change .exit)) := by
      rw [← hcount, List.replicate_succ']
      simp only [u, reached, SymbolTable.performAll, List.foldl_append, List.foldl_cons]
      rfl
    rw [hrun]
    exact hreached.close
  exact ⟨hclosed.level.trans (Nat.zero_add _), hclosed.lookup?_eq htracks,
    hclosed.fault?_register, hclosed.history,
    fun name place hp => htracks.place?_lt ((hclosed.place?_eq name).symm.trans hp),
    fun hroom s hs name => hclosed.lookup?_ne htracks hu hroom hs name⟩

/-- A block that hides a name, fails twice and leaves a block of its own open. -/
theorem block_neutral_hiding :
    let t := (SymbolTable.empty 1000).performAll [.change (.declare "x" .int)]
    let inside := [.change (.declare "x" .char), .change .enter, .literals [⟨.integer, "5", 1⟩],
      .change .exit, .change (.declare "x" .bool), .change .enter, .change (.declare "Y" .int)]
    let reached := t.enter.performAll inside
    let u := t.performAll (.change .enter :: inside ++
      List.replicate (reached.level - t.enter.level) (.change .exit) ++ [.change .exit])
    StaysAt t.enter.level (t.enter.answers inside) ∧ u.level = t.level ∧
      ∀ name, u.lookup? name = t.lookup? name := by
  intro t inside reached u
  have hstay : StaysAt t.enter.level (t.enter.answers inside) := by decide +kernel
  obtain ⟨hlevel, hlookup, -⟩ :=
    block_neutral 1000 [.change (.declare "x" .int)] inside hstay
  exact ⟨hstay, hlevel, hlookup⟩

end ScopeLex
