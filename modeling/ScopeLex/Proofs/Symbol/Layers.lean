import ScopeLex.Proofs.Symbol.Step

/-!
# The frames of a table in layers

A frame holds places of the history and nothing else ties the two together. That they
fit is an invariant: each open frame holds places of symbols of its own name and depth,
and later ones than the frames around it.

* `Layered`: frames that fit a history, innermost first.
* `Layered.step`, `layered_applyAll`: they do so throughout every run.
* `Layered.entry`, `Layered.ascending`: the invariant, read by depth.
* `wellFormed_performAll`: history, addresses and frames of a table in use.
-/
namespace ScopeLex

open SymbolTable (Step)

/-! ## The invariant -/

/-- The frames, innermost first, fit the history: the entries of each have its depth and
stand behind those of the frames around it. -/
inductive Layered (history : Array Symbol) : List Frame → Prop
  | nil : Layered history []
  | cons {frame : Frame} {outer : List Frame}
      (entries : ∀ (name : String) (place : Nat), frame[name]? = some place →
        ∃ s : Symbol, history[place]? = some s ∧ s.name = name ∧ s.level = outer.length + 1)
      (behind : ∀ (name : String) (place : Nat), frame[name]? = some place →
        ∀ lower ∈ outer, ∀ (name' : String) (place' : Nat),
          lower[name']? = some place' → place' < place)
      (around : Layered history outer) : Layered history (frame :: outer)

namespace Layered

variable {history : Array Symbol} {frame : Frame} {outer frames : List Frame} {s : Symbol}

theorem place_lt (h : Layered history frames) (hm : frame ∈ frames) {name : String} {place : Nat}
    (hp : frame[name]? = some place) : place < history.size := by
  induction h with
  | nil => cases hm
  | cons entries _ _ ih =>
    rcases List.mem_cons.mp hm with rfl | hm
    · obtain ⟨s, hs, -⟩ := entries name place hp
      exact (Array.getElem?_eq_some_iff.mp hs).1
    · exact ih hm

theorem getElem?_push_of_some {place : Nat} {s' : Symbol} (h : history[place]? = some s') :
    (history.push s)[place]? = some s' := by
  have hlt := (Array.getElem?_eq_some_iff.mp h).1
  rw [Array.getElem?_push, if_neg (Nat.ne_of_lt hlt), h]

/-- Old entries keep their symbols. -/
theorem push (h : Layered history frames) (s : Symbol) : Layered (history.push s) frames := by
  induction h with
  | nil => exact .nil
  | cons entries behind _ ih =>
    refine .cons (fun name place hp => ?_) behind ih
    obtain ⟨s', hs, hname, hlevel⟩ := entries name place hp
    exact ⟨s', getElem?_push_of_some hs, hname, hlevel⟩

/-- An empty frame fits any frames. -/
theorem enter (h : Layered history frames) : Layered history (∅ :: frames) := by
  have none_here : ∀ (name : String) (place : Nat), (∅ : Frame)[name]? ≠ some place := by
    intro name place
    rw [Std.TreeMap.getElem?_emptyc]
    exact nofun
  exact .cons (fun name place hp => absurd hp (none_here name place))
    (fun name place hp => absurd hp (none_here name place)) h

/-- The newest symbol goes into the innermost frame, if it has the depth of that. -/
theorem insert (h : Layered history (frame :: outer)) (hlevel : s.level = outer.length + 1) :
    Layered (history.push s) (frame.insert s.name history.size :: outer) := by
  cases h with
  | cons entries behind around =>
    have split_insert : ∀ (name : String) (place : Nat),
        (frame.insert s.name history.size)[name]? = some place →
          (s.name = name ∧ place = history.size) ∨ frame[name]? = some place := by
      intro name place hp
      rw [Std.TreeMap.getElem?_insert] at hp
      split at hp
      · rename_i hname
        exact Or.inl ⟨Std.LawfulEqCmp.eq_of_compare hname, (Option.some.inj hp).symm⟩
      · exact Or.inr hp
    refine .cons ?_ ?_ (around.push s)
    · intro name place hp
      rcases split_insert name place hp with ⟨hname, rfl⟩ | hp
      · exact ⟨s, by rw [Array.getElem?_push, if_pos rfl], hname, hlevel⟩
      · obtain ⟨s', hs, hname, hlevel'⟩ := entries name place hp
        exact ⟨s', getElem?_push_of_some hs, hname, hlevel'⟩
    · intro name place hp lower hm name' place' hp'
      rcases split_insert name place hp with ⟨-, rfl⟩ | hp
      · exact around.place_lt hm hp'
      · exact behind name place hp lower hm name' place' hp'

theorem add {t : SymbolTable} (h : Layered t.history t.frames) (hlevel : s.level = t.level) :
    Layered (t.add s).history (t.add s).frames := by
  obtain ⟨nested, globals, history, nextAddress⟩ := t
  cases nested with
  | nil => exact h.insert hlevel
  | cons inner outer =>
    have hframes : (outer ++ [globals]).length = outer.length + 1 := List.length_append
    exact h.insert (hlevel.trans (congrArg (· + 1) hframes.symm))

theorem step {t u : SymbolTable} {change : Change} {outcome : Outcome}
    (h : Layered t.history t.frames) (hs : Step t change outcome u) :
    Layered u.history u.frames := by
  cases hs with
  | enter => exact h.enter
  | exit hopen =>
    rw [SymbolTable.frames, hopen] at h
    cases h with
    | cons _ _ around => exact around
  | exitGlobal _ => exact h
  | register _ _ => exact h.add rfl
  | refuse _ _ => exact h

end Layered

theorem layered_empty (base : Nat) :
    Layered (SymbolTable.empty base).history (SymbolTable.empty base).frames :=
  Layered.nil.enter

/-- Throughout every run the frames fit the history. -/
theorem layered_applyAll (base : Nat) (changes : List Change) :
    Layered ((SymbolTable.empty base).applyAll changes).1.history
      ((SymbolTable.empty base).applyAll changes).1.frames :=
  SymbolTable.applyAll_induction (motive := fun _ t => Layered t.history t.frames)
    (fun _ _ _ _ _ _ hs h => h.step hs) (layered_empty base)

theorem layered_performAll (base : Nat) (calls : List Call) :
    let t := (SymbolTable.empty base).performAll calls
    Layered t.history t.frames := by
  intro t
  rw [show t = _ from SymbolTable.performAll_eq_applyAll _ _]
  exact layered_applyAll base _

/-! ## Frames by depth -/

/-- The open frame at a depth; the global one has depth 1. -/
def SymbolTable.frameAt? (t : SymbolTable) : Nat → Option Frame
  | 0 => none
  | depth + 1 => t.frames.reverse[depth]?

theorem SymbolTable.length_frames (t : SymbolTable) : t.frames.length = t.level := by
  rw [frames, List.length_append, List.length_singleton, level]

theorem SymbolTable.isSome_frameAt?_iff (t : SymbolTable) (depth : Nat) :
    (t.frameAt? depth).isSome ↔ 1 ≤ depth ∧ depth ≤ t.level := by
  cases depth with
  | zero => simp [frameAt?]
  | succ depth =>
    rw [frameAt?, Option.isSome_iff_ne_none, ne_eq, List.getElem?_eq_none_iff,
      List.length_reverse, length_frames]
    omega

theorem SymbolTable.frameAt?_one (t : SymbolTable) : t.frameAt? 1 = some t.globals := by
  simp [frameAt?, frames]

namespace Layered

variable {history : Array Symbol} {frame lower upper : Frame} {frames : List Frame}

/-- In the reverse of some frames a frame comes from around the innermost one or is it. -/
theorem getElem?_reverse_cons {inner : Frame} {outer : List Frame} {i : Nat}
    (h : (inner :: outer).reverse[i]? = some frame) :
    outer.reverse[i]? = some frame ∨ (i = outer.length ∧ frame = inner) := by
  rw [List.reverse_cons, List.getElem?_append] at h
  split at h
  · exact Or.inl h
  · rename_i hge
    rw [List.getElem?_singleton] at h
    obtain ⟨hi, he⟩ := Option.ite_none_right_eq_some.mp h
    rw [List.length_reverse] at hge hi
    exact Or.inr ⟨by omega, (Option.some.inj he).symm⟩

theorem entry (h : Layered history frames) {i : Nat} (hf : frames.reverse[i]? = some frame)
    {name : String} {place : Nat} (hp : frame[name]? = some place) :
    ∃ s : Symbol, history[place]? = some s ∧ s.name = name ∧ s.level = i + 1 := by
  induction h with
  | nil => cases hf
  | cons entries _ _ ih =>
    rcases getElem?_reverse_cons hf with hf | ⟨rfl, rfl⟩
    · exact ih hf
    · exact entries name place hp

theorem ascending (h : Layered history frames) {i j : Nat} (hij : i < j)
    (hl : frames.reverse[i]? = some lower) (hu : frames.reverse[j]? = some upper)
    {name name' : String} {place place' : Nat} (hp : lower[name]? = some place)
    (hp' : upper[name']? = some place') : place < place' := by
  induction h with
  | nil => cases hl
  | @cons inner outer _ behind _ ih =>
    have hlower : outer.reverse[i]? = some lower := by
      rcases getElem?_reverse_cons hl with hl | ⟨rfl, -⟩
      · exact hl
      · have := (List.getElem?_eq_some_iff.mp hu).1
        rw [List.length_reverse, List.length_cons] at this
        omega
    rcases getElem?_reverse_cons hu with hu | ⟨-, rfl⟩
    · exact ih hlower hu
    · have hmem : lower ∈ outer := List.mem_reverse.mp (List.mem_of_getElem? hlower)
      exact behind name' place' hp' lower hmem name place hp

end Layered

/-! ## Tables in use -/

/-- The symbols have consecutive addresses from `base` on, and the next address is the one
behind them. -/
structure SymbolTable.Numbered (base : Nat) (t : SymbolTable) : Prop where
  address : ∀ place s, t.history[place]? = some s → s.address = base + place
  next : t.nextAddress.toNat = base + t.history.size

/-- What holds of the parts of a table at any time. -/
structure SymbolTable.WellFormed (t : SymbolTable) : Prop where
  one_le_level : 1 ≤ t.level
  /-- The open frames are those at the depths from 1 to the level. -/
  depths : ∀ depth, (t.frameAt? depth).isSome ↔ 1 ≤ depth ∧ depth ≤ t.level
  globals : t.frameAt? 1 = some t.globals
  /-- A name leads to a symbol of this name and of the depth of the frame. -/
  entry : ∀ (depth : Nat) (frame : Frame) (name : String) (place : Nat),
    t.frameAt? depth = some frame → frame[name]? = some place →
      place < t.history.size ∧
        ∃ s : Symbol, t.history[place]? = some s ∧ s.name = name ∧ s.level = depth
  /-- No two names lead to one place. -/
  once : ∀ (depth : Nat) (frame : Frame) (name : String) (depth' : Nat) (frame' : Frame)
    (name' : String) (place : Nat),
    t.frameAt? depth = some frame → frame[name]? = some place →
    t.frameAt? depth' = some frame' → frame'[name']? = some place → depth = depth' ∧ name = name'
  /-- Deeper frames lead to later places. -/
  ascending : ∀ (depth : Nat) (frame : Frame) (name : String) (place : Nat) (depth' : Nat)
    (frame' : Frame) (name' : String) (place' : Nat), depth < depth' →
    t.frameAt? depth = some frame → frame[name]? = some place →
    t.frameAt? depth' = some frame' → frame'[name']? = some place' → place < place'

namespace Layered

variable {t : SymbolTable} {depth depth' place place' : Nat} {frame frame' : Frame}
  {name name' : String}

theorem entry_frameAt? (h : Layered t.history t.frames) (hf : t.frameAt? depth = some frame)
    (hp : frame[name]? = some place) :
    ∃ s : Symbol, t.history[place]? = some s ∧ s.name = name ∧ s.level = depth := by
  cases depth with
  | zero => cases hf
  | succ depth => exact h.entry hf hp

theorem ascending_frameAt? (h : Layered t.history t.frames) (hlt : depth < depth')
    (hf : t.frameAt? depth = some frame) (hp : frame[name]? = some place)
    (hf' : t.frameAt? depth' = some frame') (hp' : frame'[name']? = some place') :
    place < place' := by
  cases depth with
  | zero => cases hf
  | succ depth =>
    cases depth' with
    | zero => cases hf'
    | succ depth' => exact h.ascending (Nat.lt_of_succ_lt_succ hlt) hf hf' hp hp'

/-- Depth and name of an entry are those of its symbol. -/
theorem once_frameAt? (h : Layered t.history t.frames) (hf : t.frameAt? depth = some frame)
    (hp : frame[name]? = some place) (hf' : t.frameAt? depth' = some frame')
    (hp' : frame'[name']? = some place) : depth = depth' ∧ name = name' := by
  obtain ⟨s, hs, hname, hlevel⟩ := h.entry_frameAt? hf hp
  obtain ⟨s', hs', hname', hlevel'⟩ := h.entry_frameAt? hf' hp'
  obtain rfl := Option.some.inj (hs.symm.trans hs')
  exact ⟨hlevel.symm.trans hlevel', hname.symm.trans hname'⟩

theorem wellFormed (h : Layered t.history t.frames) : t.WellFormed where
  one_le_level := t.one_le_level
  depths := t.isSome_frameAt?_iff
  globals := t.frameAt?_one
  entry := by
    intro depth frame name place hf hp
    obtain ⟨s, hs, hrest⟩ := h.entry_frameAt? hf hp
    exact ⟨(Array.getElem?_eq_some_iff.mp hs).1, s, hs, hrest⟩
  once := fun _ _ _ _ _ _ _ => h.once_frameAt?
  ascending := fun _ _ _ _ _ _ _ _ => h.ascending_frameAt?

/-- A search that meets the name finds a symbol. -/
theorem lookup?_eq_none_iff (h : Layered t.history t.frames) (name : String) :
    t.lookup? name = none ↔ ∀ frame ∈ t.frames, frame.contains name = false := by
  have none_iff : ∀ frame : Frame, frame[name]? = none ↔ frame.contains name = false := by
    intro frame
    rw [Std.TreeMap.contains_eq_isSome_getElem?, Option.isSome_eq_false_iff,
      Option.isNone_iff_eq_none]
  rw [SymbolTable.lookup?, Option.bind_eq_none_iff]
  constructor
  · intro hnone
    cases hs : t.frames.findSome? (fun frame => frame[name]?) with
    | none => exact fun frame hm => (none_iff frame).mp (List.findSome?_eq_none_iff.mp hs frame hm)
    | some place =>
      obtain ⟨frame, hm, hp⟩ := List.exists_of_findSome?_eq_some hs
      have hlt := h.place_lt hm hp
      rw [hs] at hnone
      have := hnone place rfl
      rw [Array.getElem?_eq_none_iff] at this
      omega
  · intro hfree place hs
    obtain ⟨frame, hm, hp⟩ := List.exists_of_findSome?_eq_some hs
    rw [(none_iff frame).mpr (hfree frame hm)] at hp
    cases hp

end Layered

/-- The table after any calls is well formed: its frames hold places of the history, each
once, of symbols of the right name and depth and the later the deeper the frame. Unless
addresses run out they count up from the base. No further calls change or remove what the
history has. A look-up therefore finds a symbol whenever an open frame holds the name. -/
theorem wellFormed_performAll (base : Nat) (calls : List Call) :
    let t := (SymbolTable.empty base).performAll calls
    t.WellFormed ∧ (base + t.history.size < UInt64.size → t.Numbered base) ∧
      (∀ more, t.history.toList <+: (t.performAll more).history.toList) ∧
      ∀ name, t.lookup? name = none ↔ ∀ frame ∈ t.frames, frame.contains name = false := by
  intro t
  have h : Layered t.history t.frames := layered_performAll base calls
  have ha : t.Addressed base := SymbolTable.addressed_performAll base calls
  refine ⟨h.wellFormed, fun hroom => ⟨fun _ _ => ha.address_of_room (Nat.le_of_lt hroom),
    ha.next_of_room hroom⟩, fun more => ?_, h.lookup?_eq_none_iff⟩
  rw [t.history_performAll]
  exact List.prefix_append _ _

/-- A name of the global scope, one of a closed block and one of an open block. -/
theorem wellFormed_in_block :
    let t := (SymbolTable.empty 1000).performAll [.change (.declare "x" .int), .change .enter,
      .change (.declare "y" .bool), .change .exit, .change .enter, .change (.declare "y" .int)]
    t.frameAt? 1 = some t.globals ∧ t.globals["x"]? = some 0 ∧
      t.frameAt? 2 = some t.current ∧ t.current["y"]? = some 2 ∧ t.current["x"]? = none ∧
      (∃ s : Symbol, t.history[2]? = some s ∧ s.name = "y" ∧ s.level = 2) ∧ 0 < 2 ∧
      t.nextAddress.toNat = 1003 := by
  intro t
  obtain ⟨h, hnumbered, -⟩ := wellFormed_performAll 1000
    [.change (.declare "x" .int), .change .enter, .change (.declare "y" .bool), .change .exit,
      .change .enter, .change (.declare "y" .int)]
  have hnext := (hnumbered (by decide +kernel)).next
  have hsize : t.history.size = 3 := by decide +kernel
  have hx : t.globals["x"]? = some 0 := by decide +kernel
  have hy : t.current["y"]? = some 2 := by decide +kernel
  exact ⟨h.globals, hx, rfl, hy, by decide +kernel, (h.entry 2 _ "y" 2 rfl hy).2,
    h.ascending 1 _ "x" 0 2 _ "y" 2 (by decide) h.globals hx rfl hy,
    hnext.trans (congrArg (1000 + ·) hsize)⟩

end ScopeLex
