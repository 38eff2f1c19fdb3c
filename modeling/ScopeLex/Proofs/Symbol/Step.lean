import ScopeLex.Symbol.Call

/-!
# What a change does to a table

`Step` lists the ways in which a table answers a change, each with its guard. What
every step keeps holds after every run.

* `step_apply`: a change is one of these steps.
* `applyAll_induction`: from steps to runs.
* `addressed_applyAll`: addresses count up from the base address, as the counter does.
* `Addressed.address_of_room`: as long as it does not run out they are the numbers from
  the base address on.
* `history_applyAll`: the history grows by the symbols of the answers.
* `request_of_mem_history`: every symbol was asked for.
-/
namespace ScopeLex

/-- The registration that a change asks a table of some level for. -/
def Change.request? (level : Nat) : Change → Option (String × Category × ScopeTag)
  | .enter | .exit => none
  | .declare name type => some (name, .datatype type, .forLevel level)
  | .register name category scope => some (name, category, scope)

namespace SymbolTable

/-! ## Steps -/

/-- The table `t` answers a change and becomes another table. -/
inductive Step (t : SymbolTable) : Change → Outcome → SymbolTable → Prop
  | enter : Step t .enter (.entered (t.level + 1)) t.enter
  | exit {inner : Frame} {outer : List Frame} (opened : t.nested = inner :: outer) :
      Step t .exit (.exited (outer.length + 1)) { t with nested := outer }
  /-- The global scope stays open. -/
  | exitGlobal (global : t.nested = []) : Step t .exit (.refused .unmatchedClose) t
  | register {change : Change} {name : String} {category : Category} {scope : ScopeTag}
      (asks : change.request? t.level = some (name, category, scope))
      (free : t.refusal? name category = none) :
      Step t change (.registered (t.symbolFor name category scope))
        (t.add (t.symbolFor name category scope))
  | refuse {change : Change} {name : String} {category : Category} {scope : ScopeTag}
      {fault : Fault} (asks : change.request? t.level = some (name, category, scope))
      (taken : t.refusal? name category = some fault) : Step t change (.refused fault) t

theorem step_registered {t : SymbolTable} {change : Change} {name : String} {category : Category}
    {scope : ScopeTag} (asks : change.request? t.level = some (name, category, scope)) :
    Step t change (apply.registered (t.register name category scope)).2
      (apply.registered (t.register name category scope)).1 := by
  cases h : t.refusal? name category with
  | none => rw [register_of_no_refusal h]; exact .register asks h
  | some fault => rw [register_of_refusal h]; exact .refuse asks h

/-- A change is one of these steps. -/
theorem step_apply (t : SymbolTable) (change : Change) :
    Step t change (t.apply change).2 (t.apply change).1 := by
  cases change with
  | enter => exact .enter
  | exit =>
    obtain ⟨nested, globals, history, nextAddress⟩ := t
    cases nested with
    | nil => exact .exitGlobal rfl
    | cons inner outer => exact .exit rfl
  | declare name type => exact step_registered rfl
  | register name category scope => exact step_registered rfl

theorem not_contains_of_free {t : SymbolTable} {name : String} {category : Category}
    (h : t.refusal? name category = none) : t.current.contains name = false := by
  unfold refusal? at h
  split at h
  · cases h
  · rename_i hc
    exact Bool.eq_false_iff.mpr hc

/-! ## Runs -/

theorem applyAll_induction_from {motive : List Outcome → SymbolTable → Prop}
    {changes : List Change} (step : ∀ change ∈ changes, ∀ {outcomes t outcome u},
      Step t change outcome u → motive outcomes t → motive (outcomes ++ [outcome]) u)
    (outcomes : List Outcome) {t : SymbolTable} (start : motive outcomes t) :
    motive (outcomes ++ (t.applyAll changes).2) (t.applyAll changes).1 := by
  induction changes generalizing outcomes t with
  | nil => rwa [applyAll_nil, List.append_nil]
  | cons change changes ih =>
    have first := step change List.mem_cons_self (step_apply t change) start
    have rest := ih (fun c hc => step c (List.mem_cons_of_mem _ hc)) _ first
    rw [applyAll_cons]
    rwa [List.append_assoc, List.singleton_append] at rest

/-- What every step keeps holds after every run. -/
theorem applyAll_induction {motive : List Outcome → SymbolTable → Prop} {changes : List Change}
    (step : ∀ change ∈ changes, ∀ {outcomes t outcome u}, Step t change outcome u →
      motive outcomes t → motive (outcomes ++ [outcome]) u)
    {t : SymbolTable} (start : motive [] t) :
    motive (t.applyAll changes).2 (t.applyAll changes).1 :=
  applyAll_induction_from step [] start

/-- The answers that a table gives to calls, in order. -/
def answers (t : SymbolTable) (calls : List Call) : List Outcome :=
  (t.applyAll (calls.flatMap Call.changes)).2

/-! ## Addresses -/

/-- The symbols have the addresses that a counter of 64 bits takes from `base` on. -/
structure Addressed (base : Nat) (t : SymbolTable) : Prop where
  address : ∀ place s, t.history[place]? = some s → s.address = (base + place) % UInt64.size
  next : t.nextAddress = .ofNat (base + t.history.size)

theorem addressed_empty (base : Nat) : Addressed base (empty base) :=
  ⟨fun _ _ h => (nomatch h), rfl⟩

/-- While there are addresses left they are consecutive numbers. -/
theorem Addressed.address_of_room {base : Nat} {t : SymbolTable} (h : Addressed base t)
    (hroom : base + t.history.size ≤ UInt64.size) {place : Nat} {s : Symbol}
    (hs : t.history[place]? = some s) : s.address = base + place := by
  obtain ⟨hlt, -⟩ := Array.getElem?_eq_some_iff.mp hs
  rw [h.address place s hs]
  exact Nat.mod_eq_of_lt (by omega)

theorem Addressed.address_lt {base : Nat} {t : SymbolTable} (h : Addressed base t)
    (hroom : base + t.history.size ≤ UInt64.size) {s : Symbol} (hs : s ∈ t.history.toList) :
    s.address < base + t.history.size := by
  obtain ⟨place, hplace⟩ := List.mem_iff_getElem?.mp hs
  rw [Array.getElem?_toList] at hplace
  obtain ⟨hlt, -⟩ := Array.getElem?_eq_some_iff.mp hplace
  rw [h.address_of_room hroom hplace]
  omega

theorem Addressed.next_of_room {base : Nat} {t : SymbolTable} (h : Addressed base t)
    (hroom : base + t.history.size < UInt64.size) :
    t.nextAddress.toNat = base + t.history.size := by
  rw [h.next, UInt64.toNat_ofNat_of_lt' hroom]

theorem Addressed.step {base : Nat} {t u : SymbolTable} {change : Change} {outcome : Outcome}
    (h : Addressed base t) (hs : Step t change outcome u) : Addressed base u := by
  cases hs with
  | enter => exact ⟨h.address, h.next⟩
  | exit _ => exact ⟨h.address, h.next⟩
  | exitGlobal _ => exact h
  | refuse _ _ => exact h
  | register _ _ =>
    refine ⟨fun place s hp => ?_, ?_⟩
    · rw [history_add, Array.getElem?_push] at hp
      split at hp
      · rename_i he
        cases hp
        rw [he, symbolFor, h.next]
        exact UInt64.toNat_ofNat'
      · exact h.address place s hp
    · rw [nextAddress_add, history_add, Array.size_push, h.next, ← Nat.add_assoc]
      exact (UInt64.ofNat_add _ 1).symm

theorem Addressed.applyAll {base : Nat} {t : SymbolTable} (h : Addressed base t)
    (changes : List Change) : Addressed base (t.applyAll changes).1 :=
  applyAll_induction (motive := fun _ t => Addressed base t)
    (fun _ _ _ _ _ _ hs h => h.step hs) h

theorem Addressed.performAll {base : Nat} {t : SymbolTable} (h : Addressed base t)
    (calls : List Call) : Addressed base (t.performAll calls) := by
  rw [performAll_eq_applyAll]
  exact h.applyAll _

theorem addressed_applyAll (base : Nat) (changes : List Change) :
    Addressed base ((empty base).applyAll changes).1 :=
  (addressed_empty base).applyAll changes

theorem addressed_performAll (base : Nat) (calls : List Call) :
    Addressed base ((empty base).performAll calls) :=
  (addressed_empty base).performAll calls

/-! ## Where symbols come from -/

theorem filterMap_symbol?_singleton (outcome : Outcome) :
    [outcome].filterMap Outcome.symbol? = outcome.symbol?.toList := by
  cases outcome <;> rfl

theorem Step.history_eq {t u : SymbolTable} {change : Change} {outcome : Outcome}
    (hs : Step t change outcome u) :
    u.history.toList = t.history.toList ++ outcome.symbol?.toList := by
  cases hs with
  | register _ _ => rw [history_add, Array.toList_push]; rfl
  | _ => exact (List.append_nil _).symm

/-- The history grows by the symbols of the answers, and keeps what it has. -/
theorem history_applyAll (t : SymbolTable) (changes : List Change) :
    (t.applyAll changes).1.history.toList =
      t.history.toList ++ (t.applyAll changes).2.filterMap Outcome.symbol? := by
  refine applyAll_induction (motive := fun outcomes u =>
    u.history.toList = t.history.toList ++ outcomes.filterMap Outcome.symbol?) ?_
    (List.append_nil _).symm
  intro _ _ outcomes u outcome v hs ih
  rw [hs.history_eq, ih, List.filterMap_append, filterMap_symbol?_singleton, List.append_assoc]

theorem history_performAll (t : SymbolTable) (calls : List Call) :
    (t.performAll calls).history.toList =
      t.history.toList ++ (t.answers calls).filterMap Outcome.symbol? := by
  rw [performAll_eq_applyAll, history_applyAll]
  rfl

/-- Every symbol that is answered was asked for. -/
theorem request_of_registered {t : SymbolTable} {changes : List Change} {s : Symbol}
    (h : .registered s ∈ (t.applyAll changes).2) :
    ∃ change ∈ changes, ∃ level,
      change.request? level = some (s.name, s.category, s.scope) := by
  refine applyAll_induction (motive := fun outcomes _ => .registered s ∈ outcomes →
    ∃ change ∈ changes, ∃ level, change.request? level = some (s.name, s.category, s.scope))
    ?_ (fun hm => by cases hm) h
  intro change hchange outcomes u outcome v hs ih hm
  rcases List.mem_append.mp hm with hm | hm
  · exact ih hm
  · cases List.mem_singleton.mp hm
    cases hs with
    | register asks _ => exact ⟨change, hchange, u.level, asks⟩

theorem mem_filterMap_symbol? {outcomes : List Outcome} {s : Symbol} :
    s ∈ outcomes.filterMap Outcome.symbol? ↔ .registered s ∈ outcomes := by
  rw [List.mem_filterMap]
  constructor
  · intro h
    obtain ⟨outcome, hm, he⟩ := h
    cases outcome with
    | registered symbol => cases he; exact hm
    | _ => cases he
  · exact fun hm => ⟨_, hm, rfl⟩

/-- Every symbol was asked for by a change. -/
theorem request_of_mem_history {t : SymbolTable} {changes : List Change} {s : Symbol}
    (h : s ∈ (t.applyAll changes).1.history) :
    s ∈ t.history ∨ ∃ change ∈ changes, ∃ level,
      change.request? level = some (s.name, s.category, s.scope) := by
  rw [← Array.mem_toList_iff, history_applyAll, List.mem_append, Array.mem_toList_iff] at h
  rcases h with h | h
  · exact Or.inl h
  · exact Or.inr (request_of_registered (mem_filterMap_symbol?.mp h))

end SymbolTable

end ScopeLex
