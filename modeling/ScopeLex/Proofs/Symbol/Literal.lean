import ScopeLex.Proofs.Analysis.Report

/-!
# Registering literals

Of the literals among some tokens each lexeme counts where it is first seen. Those
whose lexeme the innermost block does not hold are registered there, the others are
reported.

* `ofTokens_eq_firstSeen`: the literals that are tried, and their order.
* `applyAll_literals`: the table afterwards.
* `refusals_literals`: what is reported.
* `fst_registerLiterals`, `toList_snd_registerLiterals`: both for a token list.
* `registerLiterals_again`: a second registration takes none.
-/
namespace ScopeLex

namespace Literal

/-! ## Each lexeme once -/

/-- The literals among tokens, each lexeme where it is first seen. -/
def firstSeen (tokens : List Token) : List Literal :=
  (tokens.filterMap ofToken?).eraseDupsBy fun l m => l.lexeme == m.lexeme

theorem distinct_eq (seen : Std.TreeSet String) (ls : List Literal) :
    distinct seen ls =
      (ls.filter fun l => !seen.contains l.lexeme).eraseDupsBy fun l m => l.lexeme == m.lexeme := by
  induction ls generalizing seen with
  | nil => rfl
  | cons l ls ih =>
    rw [distinct]
    cases hl : seen.contains l.lexeme with
    | true => rw [if_pos rfl, List.filter_cons_of_neg (by rw [hl]; decide), ih]
    | false =>
      rw [if_neg (by decide), List.filter_cons_of_pos (by rw [hl]; decide), List.eraseDupsBy_cons,
        ih, List.filter_filter]
      congr 2
      refine List.filter_congr fun m _ => ?_
      rw [Bool.eq_iff_iff, Std.TreeSet.contains_insert]
      simp [Std.LawfulEqCmp.compare_eq_iff_eq, @eq_comm _ m.lexeme]

/-- The literals that are tried. -/
theorem ofTokens_eq_firstSeen (tokens : List Token) : ofTokens tokens = firstSeen tokens := by
  rw [ofTokens, distinct_eq, firstSeen]
  congr 1
  exact List.filter_eq_self.mpr fun l _ => by simp

theorem nodup_distinct (seen : Std.TreeSet String) (ls : List Literal) :
    ((distinct seen ls).map lexeme).Nodup := by
  induction ls generalizing seen with
  | nil => exact List.Pairwise.nil
  | cons l ls ih =>
    rw [distinct]
    split
    · exact ih seen
    · refine List.nodup_cons.mpr ⟨fun hl => ?_, ih _⟩
      exact ((mem_map_lexeme_distinct_iff _ _ _).mp hl).2 Std.TreeSet.mem_insert_self

theorem nodup_firstSeen (tokens : List Token) : ((firstSeen tokens).map lexeme).Nodup := by
  rw [← ofTokens_eq_firstSeen]
  exact nodup_distinct _ _

theorem distinct_sublist (seen : Std.TreeSet String) (ls : List Literal) :
    (distinct seen ls).Sublist ls := by
  induction ls generalizing seen with
  | nil => exact .slnil
  | cons l ls ih =>
    rw [distinct]
    split
    · exact .cons _ (ih seen)
    · exact .cons_cons _ (ih _)

/-- `l` is one of the literals, and none in front of it has its lexeme. -/
def IsFirst (ls : List Literal) (l : Literal) : Prop :=
  ∃ before after, ls = before ++ l :: after ∧ ∀ m ∈ before, m.lexeme ≠ l.lexeme

theorem isFirst_cons {ls : List Literal} {l m : Literal} :
    IsFirst (m :: ls) l ↔ l = m ∨ m.lexeme ≠ l.lexeme ∧ IsFirst ls l := by
  constructor
  · intro hfirst
    obtain ⟨before, after, he, hb⟩ := hfirst
    cases before with
    | nil => exact Or.inl (List.cons.inj he).1.symm
    | cons b before =>
      obtain ⟨rfl, rfl⟩ := List.cons.inj he
      exact Or.inr ⟨hb m List.mem_cons_self, before, after, rfl,
        fun n hn => hb n (List.mem_cons_of_mem _ hn)⟩
  · rintro (rfl | ⟨hne, before, after, rfl, hb⟩)
    · exact ⟨[], ls, rfl, fun _ hm => nomatch hm⟩
    · refine ⟨m :: before, after, rfl, fun n hn => ?_⟩
      rcases List.mem_cons.mp hn with rfl | hn
      · exact hne
      · exact hb n hn

theorem mem_distinct_iff (seen : Std.TreeSet String) (ls : List Literal) (l : Literal) :
    l ∈ distinct seen ls ↔ ¬ l.lexeme ∈ seen ∧ IsFirst ls l := by
  induction ls generalizing seen with
  | nil => simp [distinct, IsFirst]
  | cons m ls ih =>
    rw [distinct, isFirst_cons]
    cases hm : seen.contains m.lexeme with
    | true =>
      rw [if_pos rfl, ih]
      refine and_congr_right fun hl => ⟨fun h => Or.inr ⟨fun he => hl ?_, h⟩, ?_⟩
      · rwa [← he, Std.TreeSet.mem_iff_contains]
      · rintro (rfl | h)
        · exact absurd (Std.TreeSet.mem_iff_contains.mpr hm) hl
        · exact h.2
    | false =>
      rw [if_neg (by decide), List.mem_cons, ih, Std.TreeSet.mem_insert,
        Std.LawfulEqCmp.compare_eq_iff_eq, not_or]
      constructor
      · rintro (rfl | ⟨⟨hne, hl⟩, h⟩)
        · refine ⟨fun hs => ?_, Or.inl rfl⟩
          rw [Std.TreeSet.mem_iff_contains, hm] at hs
          cases hs
        · exact ⟨hl, Or.inr ⟨hne, h⟩⟩
      · rintro ⟨hl, rfl | ⟨hne, h⟩⟩
        · exact Or.inl rfl
        · exact Or.inr ⟨⟨hne, hl⟩, h⟩

theorem mem_firstSeen_iff (tokens : List Token) (l : Literal) :
    l ∈ firstSeen tokens ↔ IsFirst (tokens.filterMap ofToken?) l := by
  rw [← ofTokens_eq_firstSeen, ofTokens, mem_distinct_iff]
  exact and_iff_right Std.TreeSet.not_mem_emptyc

theorem firstSeen_sublist (tokens : List Token) :
    (firstSeen tokens).Sublist (tokens.filterMap ofToken?) := by
  rw [← ofTokens_eq_firstSeen]
  exact distinct_sublist _ _

/-- A literal that counts is the literal of a token. -/
theorem exists_of_mem_firstSeen {tokens : List Token} {l : Literal} (h : l ∈ firstSeen tokens) :
    ∃ t ∈ tokens, ofToken? t = some l :=
  List.mem_filterMap.mp ((firstSeen_sublist tokens).subset h)

/-- The lexeme of every literal counts. -/
theorem exists_mem_firstSeen {tokens : List Token} {t : Token} (ht : t ∈ tokens) {l : Literal}
    (hl : ofToken? t = some l) : ∃ m ∈ firstSeen tokens, m.lexeme = l.lexeme := by
  have hm : l.lexeme ∈ (firstSeen tokens).map lexeme := by
    rw [← ofTokens_eq_firstSeen]
    refine (mem_map_lexeme_distinct_iff _ _ _).mpr ⟨?_, Std.TreeSet.not_mem_emptyc⟩
    exact List.mem_map_of_mem (List.mem_filterMap.mpr ⟨t, ht, hl⟩)
  exact List.mem_map.mp hm

/-- No literal is registered as a variable. -/
theorem isVariable_of_categoryOf? {t : Token} {category : Category}
    (h : categoryOf? t = some category) : category.isVariable = false := by
  unfold categoryOf? at h
  grind [Category.isVariable]

theorem isVariable_of_mem_firstSeen {tokens : List Token} {l : Literal}
    (h : l ∈ firstSeen tokens) : l.category.isVariable = false := by
  obtain ⟨t, -, ht⟩ := exists_of_mem_firstSeen h
  obtain ⟨category, hc, rfl⟩ := Option.map_eq_some_iff.mp ht
  exact isVariable_of_categoryOf? hc

/-- The report on a literal that cannot be registered. -/
def clash (l : Literal) : Diagnostic := .ofFault (.redeclared l.lexeme) l.line none

end Literal

/-! ## The table afterwards -/

namespace SymbolTable

/-- Add symbols in order. -/
def addAll (t : SymbolTable) (symbols : List Symbol) : SymbolTable := symbols.foldl add t

theorem addAll_cons (t : SymbolTable) (s : Symbol) (symbols : List Symbol) :
    t.addAll (s :: symbols) = (t.add s).addAll symbols := rfl

@[simp] theorem level_addAll (t : SymbolTable) (symbols : List Symbol) :
    (t.addAll symbols).level = t.level := by
  induction symbols generalizing t with
  | nil => rfl
  | cons s symbols ih => rw [addAll_cons, ih, level_add]

theorem history_addAll (t : SymbolTable) (symbols : List Symbol) :
    (t.addAll symbols).history.toList = t.history.toList ++ symbols := by
  induction symbols generalizing t with
  | nil => exact (List.append_nil _).symm
  | cons s symbols ih => rw [addAll_cons, ih, history_add, Array.toList_push, List.append_assoc,
    List.singleton_append]

theorem contains_current_add (t : SymbolTable) (s : Symbol) (name : String) :
    (t.add s).current.contains name = (t.current.contains name || s.name == name) := by
  rw [current_add, Std.TreeMap.contains_insert, Bool.or_comm, Bool.eq_iff_iff]
  simp [Std.LawfulEqCmp.compare_eq_iff_eq]

theorem contains_current_addAll (t : SymbolTable) (symbols : List Symbol) (name : String) :
    (t.addAll symbols).current.contains name =
      (t.current.contains name || symbols.any (·.name == name)) := by
  induction symbols generalizing t with
  | nil => exact (Bool.or_false _).symm
  | cons s symbols ih => rw [addAll_cons, ih, contains_current_add, List.any_cons, Bool.or_assoc]

/-- The symbols that literals get when they are registered one after the other and the
counter stands at `next`. -/
def literalSymbols (t : SymbolTable) (next : Nat) (ls : List Literal) : List Symbol :=
  (ls.zipIdx next).map fun (l, address) =>
    ⟨l.lexeme, l.category, .global, t.level, address % UInt64.size⟩

/-- The innermost block does not hold the literal. -/
def isFree (t : SymbolTable) (l : Literal) : Bool := !t.current.contains l.lexeme

/-- A literal is refused exactly if the innermost block holds its lexeme. -/
theorem apply_literal (t : SymbolTable) {l : Literal} (hl : l.category.isVariable = false) :
    t.apply l.change =
      if t.isFree l then
        (t.add (t.symbolFor l.lexeme l.category .global),
          .registered (t.symbolFor l.lexeme l.category .global))
      else (t, .refused (.redeclared l.lexeme)) := by
  rw [Literal.change, apply, isFree]
  cases hc : t.current.contains l.lexeme with
  | true =>
    have hr : t.refusal? l.lexeme l.category = some (.redeclared l.lexeme) := by
      simp [refusal?, hc]
    rw [register_of_refusal hr]
    rfl
  | false =>
    have hr : t.refusal? l.lexeme l.category = none := by simp [refusal?, hc, hl]
    rw [register_of_no_refusal hr]
    rfl

/-- Registering a literal leaves the others as free as they were. -/
theorem isFree_add (t : SymbolTable) {l m : Literal} (hne : l.lexeme ≠ m.lexeme) :
    (t.add (t.symbolFor l.lexeme l.category .global)).isFree m = t.isFree m := by
  have : ((t.symbolFor l.lexeme l.category .global).name == m.lexeme) = false :=
    beq_eq_false_iff_ne.mpr hne
  rw [isFree, isFree, contains_current_add, this, Bool.or_false]

theorem applyAll_literals (t : SymbolTable) {next : Nat} (hnext : t.nextAddress = .ofNat next)
    {ls : List Literal} (hc : ∀ l ∈ ls, l.category.isVariable = false)
    (hd : (ls.map Literal.lexeme).Nodup) :
    (t.applyAll (ls.map Literal.change)).1 =
      t.addAll (t.literalSymbols next (ls.filter t.isFree)) := by
  induction ls generalizing t next with
  | nil => rfl
  | cons l ls ih =>
    rw [List.map_cons, List.nodup_cons] at hd
    have ih := fun (t : SymbolTable) {n : Nat} (hn : t.nextAddress = .ofNat n) =>
      ih t hn (fun m hm => hc m (List.mem_cons_of_mem _ hm)) hd.2
    rw [List.map_cons, applyAll_cons, apply_literal t (hc l List.mem_cons_self)]
    split
    · rename_i hl
      have hsame : ls.filter (t.add (t.symbolFor l.lexeme l.category .global)).isFree =
          ls.filter t.isFree := by
        refine List.filter_congr fun m hm => t.isFree_add fun he => hd.1 ?_
        rw [he]
        exact List.mem_map_of_mem hm
      have hnext' : (t.add (t.symbolFor l.lexeme l.category .global)).nextAddress =
          .ofNat (next + 1) := by
        rw [nextAddress_add, hnext, UInt64.ofNat_add]
        rfl
      have haddress : t.nextAddress.toNat = next % UInt64.size := by
        rw [hnext]
        exact UInt64.toNat_ofNat'
      rw [ih _ hnext', hsame, List.filter_cons_of_pos hl]
      simp [literalSymbols, addAll_cons, symbolFor, haddress]
    · rename_i hl
      rw [ih t hnext, List.filter_cons_of_neg hl]

theorem refusals_literals (t : SymbolTable) {ls : List Literal}
    (hc : ∀ l ∈ ls, l.category.isVariable = false) (hd : (ls.map Literal.lexeme).Nodup) :
    t.refusals (ls.map fun l => (l.line, l.change)) =
      (ls.filter fun l => !t.isFree l).map Literal.clash := by
  induction ls generalizing t with
  | nil => rfl
  | cons l ls ih =>
    rw [List.map_cons, List.nodup_cons] at hd
    have ih := fun t => ih t (fun m hm => hc m (List.mem_cons_of_mem _ hm)) hd.2
    rw [List.map_cons, refusals_cons, apply_literal t (hc l List.mem_cons_self)]
    split
    · rename_i hl
      have hsame : ls.filter (fun m =>
          !(t.add (t.symbolFor l.lexeme l.category .global)).isFree m) =
          ls.filter fun m => !t.isFree m := by
        refine List.filter_congr fun m hm => congrArg _ (t.isFree_add fun he => hd.1 ?_)
        rw [he]
        exact List.mem_map_of_mem hm
      rw [ih, hsame, List.filter_cons_of_neg (by rw [hl]; decide)]
      rfl
    · rename_i hl
      rw [ih, List.filter_cons_of_pos (by simpa using hl)]
      rfl

/-! ## Tables and diagnostics afterwards -/

/-- The diagnostics that changes carried out in order leave behind. -/
theorem toList_foldl_note (t : SymbolTable) (changes : List (Nat × Change)) (ds : Diagnostics) :
    (((changes.map Prod.fst).zip (t.applyAll (changes.map Prod.snd)).2).foldl
      (fun ds o => ds.note o.1 o.2) ds).toList = ds.toList ++ t.refusals changes := by
  induction changes generalizing t ds with
  | nil => exact (List.append_nil _).symm
  | cons c changes ih =>
    obtain ⟨line, change⟩ := c
    rw [List.map_cons, List.map_cons, applyAll_cons, List.zip_cons_cons, List.foldl_cons, ih,
      Diagnostics.toList_note, refusals_cons, List.append_assoc]

variable (t : SymbolTable) (tokens : List Token) (ds : Diagnostics)

/-- The literals that are free are added. -/
theorem fst_registerLiterals {next : Nat} (hnext : t.nextAddress = .ofNat next) :
    (t.registerLiterals tokens ds).1 =
      t.addAll (t.literalSymbols next ((Literal.firstSeen tokens).filter t.isFree)) := by
  rw [← t.applyAll_literals hnext (fun _ => Literal.isVariable_of_mem_firstSeen)
    (Literal.nodup_firstSeen tokens), ← Literal.ofTokens_eq_firstSeen]
  rfl

/-- The others are reported. -/
theorem toList_snd_registerLiterals :
    (t.registerLiterals tokens ds).2.toList = ds.toList ++
      ((Literal.firstSeen tokens).filter fun l => !t.isFree l).map Literal.clash := by
  have h := t.toList_foldl_note
    ((Literal.ofTokens tokens).map fun l => (l.line, l.change)) ds
  rw [List.map_map, List.map_map, Literal.ofTokens_eq_firstSeen,
    t.refusals_literals (fun _ => Literal.isVariable_of_mem_firstSeen)
      (Literal.nodup_firstSeen tokens), ← Literal.ofTokens_eq_firstSeen] at h
  rw [← Literal.ofTokens_eq_firstSeen]
  exact h

/-- Once literals are registered they are all taken. -/
theorem isFree_registerLiterals {l : Literal} (h : l ∈ Literal.firstSeen tokens) :
    (t.registerLiterals tokens ds).1.isFree l = false := by
  rw [t.fst_registerLiterals tokens ds UInt64.ofNat_toNat.symm, isFree, contains_current_addAll]
  cases hc : t.current.contains l.lexeme with
  | true => rfl
  | false =>
    have hfree : t.isFree l = true := by rw [isFree, hc]; rfl
    have hany : (t.literalSymbols t.nextAddress.toNat
        ((Literal.firstSeen tokens).filter t.isFree)).any (·.name == l.lexeme) = true := by
      obtain ⟨i, hi⟩ := List.getElem?_of_mem (List.mem_filter.mpr ⟨h, hfree⟩)
      have hnumbered := (List.mk_add_mem_zipIdx_iff_getElem? (k := t.nextAddress.toNat)).mpr hi
      exact List.any_eq_true.mpr ⟨_, List.mem_map_of_mem hnumbered, beq_self_eq_true _⟩
    rw [hany]
    rfl

/-- Registering literals once more changes nothing and reports them all. -/
theorem registerLiterals_again (ds' : Diagnostics) :
    let u := (t.registerLiterals tokens ds).1
    (u.registerLiterals tokens ds').1 = u ∧
      (u.registerLiterals tokens ds').2.toList =
        ds'.toList ++ (Literal.firstSeen tokens).map Literal.clash := by
  intro u
  have htaken : ∀ l ∈ Literal.firstSeen tokens, u.isFree l = false :=
    fun l => t.isFree_registerLiterals tokens ds
  have hnone : (Literal.firstSeen tokens).filter u.isFree = [] :=
    List.filter_eq_nil_iff.mpr fun l hl => by rw [htaken l hl]; decide
  have hall : (Literal.firstSeen tokens).filter (fun l => !u.isFree l) =
      Literal.firstSeen tokens :=
    List.filter_eq_self.mpr fun l hl => by rw [htaken l hl]; rfl
  refine ⟨?_, ?_⟩
  · rw [u.fst_registerLiterals tokens ds' UInt64.ofNat_toNat.symm, hnone]
    rfl
  · rw [toList_snd_registerLiterals, hall]

end SymbolTable

end ScopeLex
