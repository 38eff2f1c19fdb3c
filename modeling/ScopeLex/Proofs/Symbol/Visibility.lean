import Mathlib.Data.List.Forall2
import ScopeLex.Proofs.Symbol.Step

/-!
# Which symbol a name means

A run is told by its scopes: the global one has number 0, every block gets the next
number when it is opened, and each registration is noted with the scope that was
innermost at the time. A table keeps no such record. It searches its frames, from
the inside out, for a place in the history.

* `Tracks`: how the frames of a table and the scopes of its run go together.
* `Tracks.step`, `tracks_applyAll`: they do so throughout every run.
* `newest_of_search`: the search finds the newest place in the open scopes.
* `lookup?_iff_latest`: a name means the latest symbol that is still visible.
-/
namespace ScopeLex

/-! ## The scopes of a run -/

/-- The scopes of a run, and the symbols registered in each. -/
structure Scopes where
  /-- How many blocks have been opened; the newest one has this number. -/
  opened : Nat
  /-- The blocks that are open, innermost first. -/
  blocks : List Nat
  /-- Every registered symbol with its scope, oldest first. -/
  placed : List (Nat × Symbol)

namespace Scopes

/-- Before any change. -/
def start : Scopes := ⟨0, [], []⟩

/-- The scope that takes new symbols. -/
def innermost (scopes : Scopes) : Nat := scopes.blocks.head?.getD 0

/-- The scopes that are open, innermost first; the global one is never closed. -/
def stillOpen (scopes : Scopes) : List Nat := scopes.blocks ++ [0]

/-- The scopes after an answer. -/
def note (scopes : Scopes) : Outcome → Scopes
  | .entered _ =>
    { scopes with opened := scopes.opened + 1, blocks := (scopes.opened + 1) :: scopes.blocks }
  | .exited _ => { scopes with blocks := scopes.blocks.tail }
  | .registered s => { scopes with placed := scopes.placed ++ [(scopes.innermost, s)] }
  | .refused _ => scopes

/-- The scopes after answers in order. -/
def noteAll (scopes : Scopes) (outcomes : List Outcome) : Scopes := outcomes.foldl note scopes

/-- `s` was registered in a scope that is still open. -/
def IsVisible (scopes : Scopes) (s : Symbol) : Prop :=
  ∃ n ∈ scopes.stillOpen, (n, s) ∈ scopes.placed

/-- `s` is the visible symbol of that name with the greatest address. -/
structure IsLatest (scopes : Scopes) (name : String) (s : Symbol) : Prop where
  visible : scopes.IsVisible s
  named : s.name = name
  greatest : ∀ other, scopes.IsVisible other → other.name = name → other.address ≤ s.address

theorem noteAll_concat (scopes : Scopes) (outcomes : List Outcome) (outcome : Outcome) :
    scopes.noteAll (outcomes ++ [outcome]) = (scopes.noteAll outcomes).note outcome := by
  simp [noteAll]

theorem innermost_mem (scopes : Scopes) : scopes.innermost ∈ scopes.stillOpen := by
  unfold innermost stillOpen
  cases scopes.blocks <;> simp

end Scopes

/-! ## Frames and scopes -/

/-- The frame takes exactly the names registered in scope `n` to their places. -/
def Lists (placed : List (Nat × Symbol)) (n : Nat) (frame : Frame) : Prop :=
  ∀ name place, frame[name]? = some place ↔
    ∃ s : Symbol, placed[place]? = some (n, s) ∧ s.name = name

variable {placed : List (Nat × Symbol)} {n m : Nat} {frame : Frame}

theorem Lists.contains_iff (h : Lists placed n frame) (name : String) :
    frame.contains name = true ↔ ∃ s : Symbol, (n, s) ∈ placed ∧ s.name = name := by
  rw [Std.TreeMap.contains_eq_isSome_getElem?, Option.isSome_iff_exists]
  constructor
  · intro hp
    obtain ⟨place, hp⟩ := hp
    obtain ⟨s, hs, hname⟩ := (h name place).mp hp
    exact ⟨s, List.mem_of_getElem? hs, hname⟩
  · intro hs
    obtain ⟨s, hs, hname⟩ := hs
    obtain ⟨place, hp⟩ := List.getElem?_of_mem hs
    exact ⟨place, (h name place).mpr ⟨s, hp, hname⟩⟩

/-- A scope without symbols has an empty frame. -/
theorem lists_empty (h : ∀ p ∈ placed, p.1 ≠ n) : Lists placed n ∅ := by
  intro name place
  rw [Std.TreeMap.getElem?_emptyc]
  constructor
  · intro hp
    cases hp
  · intro hs
    obtain ⟨s, hs, -⟩ := hs
    exact absurd rfl (h _ (List.mem_of_getElem? hs))

theorem getElem?_snoc_eq_some_iff {α : Type} {l : List α} {a b : α} {i : Nat} :
    (l ++ [a])[i]? = some b ↔ l[i]? = some b ∨ (i = l.length ∧ a = b) := by
  rw [List.getElem?_append]
  split
  · rename_i hlt
    constructor
    · exact Or.inl
    · rintro (h | ⟨rfl, -⟩)
      · exact h
      · exact absurd hlt (Nat.lt_irrefl _)
  · rename_i hge
    rw [List.getElem?_eq_none (Nat.le_of_not_lt hge), List.getElem?_singleton]
    simp only [reduceCtorEq, false_or, Option.ite_none_right_eq_some, Option.some.injEq]
    exact and_congr_left fun _ => by omega

/-- A symbol of another scope leaves a frame as it is. -/
theorem Lists.snoc_of_ne (h : Lists placed n frame) (hne : m ≠ n) (s : Symbol) :
    Lists (placed ++ [(m, s)]) n frame := by
  intro name place
  rw [h name place]
  simp only [getElem?_snoc_eq_some_iff, Prod.mk.injEq, hne, false_and, and_false, or_false]

/-- A new symbol of the scope comes into its frame. -/
theorem Lists.snoc_insert (h : Lists placed n frame) {s : Symbol}
    (fresh : frame.contains s.name = false) :
    Lists (placed ++ [(n, s)]) n (frame.insert s.name placed.length) := by
  intro name place
  rw [Std.TreeMap.getElem?_insert]
  simp only [Std.LawfulEqCmp.compare_eq_iff_eq, getElem?_snoc_eq_some_iff, Prod.mk.injEq, true_and]
  split
  · rename_i hname
    subst hname
    have none_before : ∀ s', (n, s') ∈ placed → s'.name ≠ s.name := by
      intro s' hs' hn
      rw [(h.contains_iff s.name).mpr ⟨s', hs', hn⟩] at fresh
      cases fresh
    constructor
    · intro hp
      cases hp
      exact ⟨s, Or.inr ⟨rfl, rfl⟩, rfl⟩
    · intro hs
      obtain ⟨s', hp | ⟨rfl, -⟩, hn⟩ := hs
      · exact absurd hn (none_before s' (List.mem_of_getElem? hp))
      · rfl
  · rename_i hname
    rw [h name place]
    constructor
    · intro hs
      obtain ⟨s', hp, hn⟩ := hs
      exact ⟨s', Or.inl hp, hn⟩
    · intro hs
      obtain ⟨s', hp | ⟨-, rfl⟩, hn⟩ := hs
      · exact ⟨s', hp, hn⟩
      · exact absurd hn hname

/-- Symbols of open scopes stand in the order of their scopes: while a block is
open, nothing is registered outside of it. -/
def Nested (ns : List Nat) (placed : List (Nat × Symbol)) : Prop :=
  placed.Pairwise fun p q => p.1 ∈ ns → q.1 ∈ ns → p.1 ≤ q.1

theorem Nested.subset {ns ns' : List Nat} (h : Nested ns placed) (hsub : ns' ⊆ ns) :
    Nested ns' placed :=
  List.Pairwise.imp (fun hpq hp hq => hpq (hsub hp) (hsub hq)) h

/-- How a table goes with the scopes of its run. -/
structure Tracks (scopes : Scopes) (t : SymbolTable) : Prop where
  history : scopes.placed.map Prod.snd = t.history.toList
  blocks : List.Forall₂ (Lists scopes.placed) scopes.blocks t.nested
  globals : Lists scopes.placed 0 t.globals
  /-- An inner block was opened later. -/
  descending : scopes.stillOpen.Pairwise (· > ·)
  nested : Nested scopes.stillOpen scopes.placed
  /-- The next block is new. -/
  block_le : ∀ n ∈ scopes.stillOpen, n ≤ scopes.opened
  scope_le : ∀ p ∈ scopes.placed, p.1 ≤ scopes.opened

namespace Tracks

open SymbolTable (Step)

variable {scopes : Scopes} {t u : SymbolTable}

theorem frames (h : Tracks scopes t) :
    List.Forall₂ (Lists scopes.placed) scopes.stillOpen t.frames :=
  List.rel_append h.blocks (.cons h.globals .nil)

theorem current (h : Tracks scopes t) : Lists scopes.placed scopes.innermost t.current := by
  obtain ⟨opened, blocks, placed⟩ := scopes
  obtain ⟨nested, globals, history, nextAddress⟩ := t
  have hb : List.Forall₂ (Lists placed) blocks nested := h.blocks
  cases hb with
  | nil => exact h.globals
  | cons inner _ => exact inner

theorem le_innermost (h : Tracks scopes t) {n : Nat} (hn : n ∈ scopes.stillOpen) :
    n ≤ scopes.innermost := by
  obtain ⟨opened, blocks, placed⟩ := scopes
  cases blocks with
  | nil => exact Nat.le_of_eq (List.mem_singleton.mp hn)
  | cons inner outer =>
    rcases List.mem_cons.mp hn with rfl | hn
    · exact Nat.le_refl _
    · exact Nat.le_of_lt ((List.pairwise_cons.mp h.descending).1 n hn)

theorem size_eq (h : Tracks scopes t) : t.history.size = scopes.placed.length := by
  rw [← Array.length_toList, ← h.history, List.length_map]

theorem empty (base : Nat) : Tracks .start (SymbolTable.empty base) where
  history := rfl
  blocks := .nil
  globals := lists_empty fun _ h => nomatch h
  descending := List.pairwise_singleton _ _
  nested := .nil
  block_le := fun _ h => Nat.le_of_eq (List.mem_singleton.mp h)
  scope_le := fun _ h => nomatch h

theorem enter (h : Tracks scopes t) (level : Nat) :
    Tracks (scopes.note (.entered level)) t.enter where
  history := h.history
  blocks := by
    refine .cons (lists_empty fun p hp he => ?_) h.blocks
    have := h.scope_le p hp
    omega
  globals := h.globals
  descending := .cons (fun n hn => Nat.lt_succ_of_le (h.block_le n hn)) h.descending
  nested := by
    -- Nothing is registered in the new block yet.
    have old : ∀ p ∈ scopes.placed, p.1 ∈ (scopes.opened + 1) :: scopes.stillOpen →
        p.1 ∈ scopes.stillOpen := by
      intro p hp hm
      rcases List.mem_cons.mp hm with he | hm
      · have := h.scope_le p hp
        omega
      · exact hm
    exact h.nested.imp_of_mem fun hp hq hpq hp' hq' => hpq (old _ hp hp') (old _ hq hq')
  block_le := by
    intro n hn
    rcases List.mem_cons.mp hn with rfl | hn
    · exact Nat.le_refl _
    · exact Nat.le_succ_of_le (h.block_le n hn)
  scope_le := fun p hp => Nat.le_succ_of_le (h.scope_le p hp)

theorem exit (h : Tracks scopes t) {inner : Frame} {outer : List Frame}
    (hopen : t.nested = inner :: outer) (level : Nat) :
    Tracks (scopes.note (.exited level)) { t with nested := outer } := by
  obtain ⟨opened, blocks, placed⟩ := scopes
  have hb : List.Forall₂ (Lists placed) blocks t.nested := h.blocks
  rw [hopen] at hb
  cases hb with
  | @cons n _ ns _ _ rest =>
    have hsub : ns ++ [0] ⊆ n :: (ns ++ [0]) := List.subset_cons_self _ _
    exact ⟨h.history, rest, h.globals, (List.pairwise_cons.mp h.descending).2,
      h.nested.subset hsub, fun m hm => h.block_le m (hsub hm), h.scope_le⟩

/-- Only the innermost frame takes the new name. -/
theorem blocks_add (h : Tracks scopes t) {s : Symbol} (fresh : t.current.contains s.name = false) :
    List.Forall₂ (Lists (scopes.placed ++ [(scopes.innermost, s)])) scopes.blocks
      (t.add s).nested ∧
    Lists (scopes.placed ++ [(scopes.innermost, s)]) 0 (t.add s).globals := by
  have hcurrent := h.current.snoc_insert fresh
  have hsize := h.size_eq
  have hdesc := h.descending
  have hglobals := h.globals
  have hb := h.blocks
  obtain ⟨opened, blocks, placed⟩ := scopes
  obtain ⟨nested, globals, history, nextAddress⟩ := t
  dsimp only at hsize hb hglobals
  cases hb with
  | nil =>
    refine ⟨.nil, ?_⟩
    rw [← hsize] at hcurrent
    exact hcurrent
  | @cons n inner ns outer first rest =>
    have hne : ∀ m ∈ ns ++ [0], n ≠ m := fun m hm he =>
      absurd ((List.pairwise_cons.mp hdesc).1 m hm) (by omega)
    rw [← hsize] at hcurrent
    refine ⟨.cons hcurrent ?_, hglobals.snoc_of_ne (hne 0 (by simp)) s⟩
    have houter : List.Forall₂ (fun m f => n ≠ m ∧ Lists placed m f) ns outer :=
      (List.forall₂_and_left _ _).mpr ⟨fun m hm => hne m (List.mem_append_left _ hm), rest⟩
    exact houter.imp fun m f hf => hf.2.snoc_of_ne hf.1 s

theorem add (h : Tracks scopes t) {s : Symbol} (fresh : t.current.contains s.name = false) :
    Tracks (scopes.note (.registered s)) (t.add s) where
  history := by
    rw [SymbolTable.history_add, Array.toList_push, ← h.history]
    exact List.map_append
  blocks := (h.blocks_add fresh).1
  globals := (h.blocks_add fresh).2
  descending := h.descending
  nested := by
    refine List.pairwise_append.mpr ⟨h.nested, List.pairwise_singleton _ _, ?_⟩
    intro p _ q hq hp _
    cases List.mem_singleton.mp hq
    exact h.le_innermost hp
  block_le := h.block_le
  scope_le := by
    intro p hp
    rcases List.mem_append.mp hp with hp | hp
    · exact h.scope_le p hp
    · cases List.mem_singleton.mp hp
      exact h.block_le _ scopes.innermost_mem

theorem step (h : Tracks scopes t) {change : Change} {outcome : Outcome}
    (hs : Step t change outcome u) : Tracks (scopes.note outcome) u := by
  cases hs with
  | enter => exact h.enter _
  | exit hopen => exact h.exit hopen _
  | exitGlobal _ => exact h
  | refuse _ _ => exact h
  | register _ free => exact h.add (SymbolTable.not_contains_of_free free)

end Tracks

/-- Throughout every run the frames of the table go with the scopes. -/
theorem tracks_applyAll (base : Nat) (changes : List Change) :
    Tracks (Scopes.start.noteAll ((SymbolTable.empty base).applyAll changes).2)
      ((SymbolTable.empty base).applyAll changes).1 := by
  refine SymbolTable.applyAll_induction
    (motive := fun outcomes t => Tracks (Scopes.start.noteAll outcomes) t) ?_ (.empty base)
  intro _ _ outcomes t outcome u hs h
  rw [Scopes.noteAll_concat]
  exact h.step hs

/-! ## Searching the frames -/

/-- `place` is the last one that holds a symbol of that name in one of the scopes. -/
structure IsNewest (placed : List (Nat × Symbol)) (ns : List Nat) (name : String) (place : Nat) :
    Prop where
  holds : ∃ n ∈ ns, ∃ s : Symbol, placed[place]? = some (n, s) ∧ s.name = name
  last : ∀ later n, ∀ s : Symbol, placed[later]? = some (n, s) → n ∈ ns → s.name = name →
    later ≤ place

variable {ns : List Nat} {fs : List Frame} {name : String}

/-- A search that fails has passed no symbol of the name. -/
theorem no_symbol_of_search (hf : List.Forall₂ (Lists placed) ns fs)
    (h : fs.findSome? (fun frame => frame[name]?) = none) {n : Nat} {s : Symbol} (hn : n ∈ ns)
    (hs : (n, s) ∈ placed) : s.name ≠ name := by
  intro hname
  obtain ⟨place, hp⟩ := List.getElem?_of_mem hs
  induction hf with
  | nil => cases hn
  | cons first _ ih =>
    rw [List.findSome?_cons] at h
    split at h
    · cases h
    · rename_i hnone
      rcases List.mem_cons.mp hn with rfl | hn
      · rw [(first name place).mpr ⟨s, hp, hname⟩] at hnone
        cases hnone
      · exact ih h hn

/-- The search from the inside out finds the newest place. -/
theorem newest_of_search (hf : List.Forall₂ (Lists placed) ns fs) (hd : ns.Pairwise (· > ·))
    (ho : Nested ns placed) {place : Nat}
    (h : fs.findSome? (fun frame => frame[name]?) = some place) :
    IsNewest placed ns name place := by
  induction hf with
  | nil => cases h
  | @cons n frame ns fs first _ ih =>
    obtain ⟨hlt, hd⟩ := List.pairwise_cons.mp hd
    rw [List.findSome?_cons] at h
    split at h
    · rename_i hfound
      cases h
      obtain ⟨s, hp, hname⟩ := (first name place).mp hfound
      refine ⟨⟨n, List.mem_cons_self, s, hp, hname⟩, fun later m s' hl hm hname' => ?_⟩
      rcases List.mem_cons.mp hm with rfl | hm'
      · have := (first name later).mpr ⟨s', hl, hname'⟩
        rw [hfound] at this
        exact Nat.le_of_eq (Option.some.inj this).symm
      · -- A later symbol would belong to this block or to one inside it.
        refine Nat.le_of_not_lt fun hgt => ?_
        obtain ⟨hi, hpi⟩ := List.getElem?_eq_some_iff.mp hp
        obtain ⟨hj, hlj⟩ := List.getElem?_eq_some_iff.mp hl
        have hle := List.pairwise_iff_getElem.mp ho place later hi hj hgt
        rw [hpi, hlj] at hle
        have := hle List.mem_cons_self hm
        have := hlt m hm'
        omega
    · rename_i hnone
      obtain ⟨⟨m, hm, s, hp, hname⟩, hlast⟩ := ih hd (ho.subset (List.subset_cons_self _ _)) h
      refine ⟨⟨m, List.mem_cons_of_mem _ hm, s, hp, hname⟩, fun later k s' hl hk hname' => ?_⟩
      rcases List.mem_cons.mp hk with rfl | hk
      · rw [(first name later).mpr ⟨s', hl, hname'⟩] at hnone
        cases hnone
      · exact hlast later k s' hl hk hname'

/-! ## What a name means -/

namespace Tracks

variable {scopes : Scopes} {t : SymbolTable}

theorem getElem?_history (h : Tracks scopes t) {place n : Nat} {s : Symbol}
    (hp : scopes.placed[place]? = some (n, s)) : t.history[place]? = some s := by
  rw [← Array.getElem?_toList, ← h.history, List.getElem?_map, hp]
  rfl

/-- The search finds a visible symbol, and the newest one of its name. -/
theorem found (h : Tracks scopes t) {name : String} {place : Nat}
    (hs : t.frames.findSome? (fun frame => frame[name]?) = some place) :
    ∃ s : Symbol, t.history[place]? = some s ∧ t.lookup? name = some s ∧ scopes.IsVisible s ∧
      s.name = name ∧ ∀ other, scopes.IsVisible other → other.name = name →
        ∃ earlier ≤ place, t.history[earlier]? = some other := by
  obtain ⟨⟨n, hn, s, hp, hname⟩, hlast⟩ := newest_of_search h.frames h.descending h.nested hs
  have hh := h.getElem?_history hp
  refine ⟨s, hh, ?_, ⟨n, hn, List.mem_of_getElem? hp⟩, hname, ?_⟩
  · unfold SymbolTable.lookup?
    rw [hs]
    exact hh
  · intro other hother hname'
    obtain ⟨m, hm, hmem⟩ := hother
    obtain ⟨earlier, hl⟩ := List.getElem?_of_mem hmem
    exact ⟨earlier, hlast earlier m other hl hm hname', h.getElem?_history hl⟩

section
variable {base : Nat} (ha : t.Addressed base) (hroom : base + t.history.size ≤ UInt64.size)
include ha hroom

/-- As long as addresses ascend, it is the latest one. -/
theorem isLatest (h : Tracks scopes t) {name : String} {place : Nat}
    (hs : t.frames.findSome? (fun frame => frame[name]?) = some place) :
    ∃ s, t.lookup? name = some s ∧ scopes.IsLatest name s := by
  obtain ⟨s, hplace, hfound, hvisible, hname, hnewest⟩ := h.found hs
  refine ⟨s, hfound, hvisible, hname, fun other hother hname' => ?_⟩
  obtain ⟨earlier, hle, hearlier⟩ := hnewest other hother hname'
  rw [ha.address_of_room hroom hplace, ha.address_of_room hroom hearlier]
  exact Nat.add_le_add_left hle base

/-- No two visible symbols are the latest of a name. -/
theorem isLatest_unique (h : Tracks scopes t) {name : String} {s s' : Symbol}
    (hs : scopes.IsLatest name s) (hs' : scopes.IsLatest name s') : s = s' := by
  obtain ⟨n, -, hn⟩ := hs.visible
  obtain ⟨m, -, hm⟩ := hs'.visible
  obtain ⟨i, hi⟩ := List.getElem?_of_mem hn
  obtain ⟨j, hj⟩ := List.getElem?_of_mem hm
  have haddress : s.address = s'.address := Nat.le_antisymm
    (hs'.greatest s hs.visible hs.named) (hs.greatest s' hs'.visible hs'.named)
  have hi' := h.getElem?_history hi
  have hj' := h.getElem?_history hj
  rw [ha.address_of_room hroom hi', ha.address_of_room hroom hj'] at haddress
  obtain rfl := Nat.add_left_cancel haddress
  exact Option.some.inj (hi'.symm.trans hj')

end

end Tracks

/-- A name means the latest symbol that is still visible: every symbol of the history
has a scope, and unless addresses have run out the one that is found is the one with the
greatest address among those of the name whose scope is still open. Nothing is found
exactly if there is none. -/
theorem lookup?_iff_latest (base : Nat) (calls : List Call) (name : String) :
    let t := (SymbolTable.empty base).performAll calls
    let scopes := Scopes.start.noteAll ((SymbolTable.empty base).answers calls)
    scopes.placed.map Prod.snd = t.history.toList ∧
      (base + t.history.size ≤ UInt64.size →
        ∀ s, t.lookup? name = some s ↔ scopes.IsLatest name s) ∧
      (t.lookup? name = none ↔ ∀ s, scopes.IsVisible s → s.name ≠ name) := by
  intro t scopes
  have ht : t = ((SymbolTable.empty base).applyAll (calls.flatMap Call.changes)).1 :=
    SymbolTable.performAll_eq_applyAll _ _
  have h : Tracks scopes t := ht ▸ tracks_applyAll base _
  have ha : t.Addressed base := SymbolTable.addressed_performAll base calls
  cases hs : t.frames.findSome? (fun frame => frame[name]?) with
  | none =>
    have hnone : t.lookup? name = none := by
      unfold SymbolTable.lookup?
      rw [hs]
      rfl
    have hfree : ∀ s, scopes.IsVisible s → s.name ≠ name := by
      intro s hv
      obtain ⟨n, hn, hm⟩ := hv
      exact no_symbol_of_search h.frames hs hn hm
    refine ⟨h.history, fun _ s => ?_, fun _ => hfree, fun _ => hnone⟩
    rw [hnone]
    exact ⟨nofun, fun hl => absurd hl.named (hfree s hl.visible)⟩
  | some place =>
    refine ⟨h.history, fun hroom s' => ?_, ?_⟩
    · obtain ⟨s, hfound, hlatest⟩ := h.isLatest ha hroom hs
      rw [hfound, Option.some.injEq]
      constructor
      · rintro rfl
        exact hlatest
      · exact fun hl => h.isLatest_unique ha hroom hlatest hl
    · obtain ⟨s, -, hfound, hvisible, hname, -⟩ := h.found hs
      rw [hfound]
      exact ⟨nofun, fun hfree => absurd hname (hfree s hvisible)⟩

/-- A block hides a name; once it is closed the older symbol is the latest visible one. -/
theorem lookup?_iff_latest_behind_block :
    let calls : List Call := [.change (.declare "x" .int), .change .enter,
      .change (.declare "x" .char), .literals [⟨.integer, "5", 1⟩], .change .exit]
    let scopes := Scopes.start.noteAll ((SymbolTable.empty 1000).answers calls)
    scopes.placed.length = 3 ∧ scopes.IsLatest "x" ⟨"x", .datatype .int, .global, 1, 1000⟩ ∧
      ∀ s, scopes.IsVisible s → s.name ≠ "5" := by
  intro calls scopes
  refine ⟨by decide +kernel, ?_, ?_⟩
  · exact ((lookup?_iff_latest 1000 calls "x").2.1 (by decide +kernel) _).mp (by decide +kernel)
  · exact (lookup?_iff_latest 1000 calls "5").2.2.mp (by decide +kernel)

end ScopeLex
