import ScopeLex.CommandLine.Reply
import ScopeLex.Proofs.Analysis.Log
import ScopeLex.Proofs.Symbol.Address

/-!
# The base address has no influence

Whatever is done with a table and a text, another base address moves the addresses of
all symbols as the counter does, and nothing else. While the counter does not run out this
is by the same number. What a command line is answered on its output does not even show
that.

* `Analysis.move`: the addresses in what a run has produced.
* `analyzeWith_move`: a text, analysed with moved addresses.
* `Script`, `Session`: a run from its first change to its last.
* `Script.play_add`: the run from another base address.
* `Session.Coherent`: every symbol that a session tells of is one of its last table.
* `base_address_equivariance`: two base addresses, and two command lines.
-/
namespace ScopeLex

/-! ## Runs -/

/-- Let the counter have been `n` further when it gave the address in a record. -/
def Record.move (n : UInt64) : Record → Record
  | .registered s => .registered (s.move n)
  | record => record

namespace Analysis

/-- Let the counter be `n` further, and have been so all the time. -/
def move (n : UInt64) (a : Analysis) : Analysis :=
  { a with table := a.table.move n, log := a.log.map (Record.move n) }

variable (n : UInt64) (a : Analysis)

theorem start_move (table : SymbolTable) : start (table.move n) = (start table).move n := by
  simp [start, move]

theorem push_move (t : Token) : (a.move n).push t = (a.push t).move n := by
  simp [push, move, Record.move]

theorem report_move (d : Diagnostic) : (a.move n).report d = (a.report d).move n := by
  simp [report, move, Record.move]

theorem note_move (line : Nat) (outcome : Outcome) :
    (a.move n).note line (outcome.move n) = (a.note line outcome).move n := by
  cases outcome with
  | refused fault => exact a.report_move n _
  | _ => simp [note, move, Outcome.move, Record.ofOutcome, Record.move]

theorem carry_move (line : Nat) (change : Change) :
    (a.move n).carry line change = (a.carry line change).move n := by
  have hnote := note_move n { a with table := (a.table.apply change).1 } line
    (a.table.apply change).2
  simp only [carry, move, SymbolTable.apply_move] at hnote ⊢
  exact hnote

theorem carryAll_move (changes : List (Nat × Change)) :
    (a.move n).carryAll changes = (a.carryAll changes).move n :=
  List.foldl_hom (move n) fun a c => carry_move n a c.1 c.2

/-- Literals are found by their tokens alone. -/
theorem registerLiterals_move :
    (a.move n).registerLiterals = a.registerLiterals.move n := carryAll_move n a _

theorem iterate_registerLiterals_move (times : Nat) :
    registerLiterals^[times] (a.move n) = (registerLiterals^[times] a).move n :=
  have step : Function.Semiconj (move n) registerLiterals registerLiterals :=
    fun a => (registerLiterals_move n a).symm
  ((step.iterate_right times) a).symm

theorem close_move : (a.move n).close = a.close.move n := by
  simp [close, move, SymbolTable.move, Record.move]

end Analysis

namespace Run

/-- The same for a run in progress; the type that waits has no address. -/
def move (n : UInt64) (r : Run) : Run := ⟨r.analysis.move n, r.pending⟩

theorem feed_move (n : UInt64) (r : Run) (e : Event) : (r.move n).feed e = (r.feed e).move n := by
  cases e with
  | stray c line column => simp only [feed, move, Analysis.report_move]
  | token t =>
    simp only [feed, take, move]
    cases (t.plan r.pending).1 with
    | none => simp only [Analysis.push_move]
    | some change =>
      have hcarry : (r.analysis.move n).carry t.line change =
          (r.analysis.carry t.line change).move n := Analysis.carry_move n _ _ _
      simp only [hcarry, Analysis.push_move]

theorem feedAll_move (n : UInt64) (r : Run) (events : List Event) :
    (r.move n).feedAll events = (r.feedAll events).move n :=
  List.foldl_hom (move n) (feed_move n)

end Run

/-- The analysis of a text moves the addresses that the table had, and hands out moved
ones. -/
theorem analyzeWith_move (n : UInt64) (table : SymbolTable) (pushed : List Token)
    (source : String) :
    analyzeWith (table.move n) pushed source = (analyzeWith table pushed source).move n := by
  have hpush : pushed.foldl Analysis.push (.start (table.move n)) =
      (pushed.foldl Analysis.push (.start table)).move n := by
    rw [Analysis.start_move]
    exact List.foldl_hom (Analysis.move n) (Analysis.push_move n)
  have hrun := Run.feedAll_move n ⟨pushed.foldl Analysis.push (.start table), none⟩
    (Event.ofSource source.toList)
  simp only [analyzeWith, hpush]
  rw [← Analysis.close_move]
  exact congrArg (fun r => r.analysis.close) hrun

/-! ## From the first change to the last -/

/-- What is done: calls on an empty table, a text that is analysed with it, its literals
registered any number of times, and more calls on the table. -/
structure Script where
  setup : List Call
  pushed : List Token
  source : String
  times : Nat
  later : List Call

/-- What comes of it: the answers to the first calls, the analysis with its literals, the
answers to the other calls, and the table that is left. -/
structure Session where
  before : List Outcome
  analysis : Analysis
  after : List Outcome
  table : SymbolTable

/-- Let the counter have been `n` further all the time. -/
def Session.move (n : UInt64) (s : Session) : Session where
  before := s.before.map (Outcome.move n)
  analysis := s.analysis.move n
  after := s.after.map (Outcome.move n)
  table := s.table.move n

namespace Script

/-- Carry out a script on a table whose first symbol has address `base`. -/
def play (script : Script) (base : Nat) : Session :=
  let start := SymbolTable.empty base
  let scanned := analyzeWith (start.performAll script.setup) script.pushed script.source
  let analysis := Analysis.registerLiterals^[script.times] scanned
  { before := start.answers script.setup
    analysis := analysis
    after := analysis.table.answers script.later
    table := analysis.table.performAll script.later }

/-- From a greater base address on the counter is further all the time, and nothing else
changes. -/
theorem play_add (script : Script) (base n : Nat) :
    script.play (base + n) = (script.play base).move (.ofNat n) := by
  have htable : ∀ a : Analysis, (a.move (.ofNat n)).table = a.table.move (.ofNat n) :=
    fun _ => rfl
  simp only [play, ← SymbolTable.move_empty, SymbolTable.performAll_move, analyzeWith_move,
    Analysis.iterate_registerLiterals_move, SymbolTable.answers_move, htable]
  rfl

theorem play_eq_move (script : Script) (base : Nat) :
    script.play base = (script.play 0).move (.ofNat base) := by
  rw [← script.play_add, Nat.zero_add]

end Script

/-! ## What a session tells of -/

theorem SymbolTable.Addressed.analyzeWith {base : Nat} {t : SymbolTable} (h : t.Addressed base)
    (pushed : List Token) (source : String) :
    (analyzeWith t pushed source).table.Addressed base := by
  rw [table_analyzeWith]
  exact h.applyAll _

theorem SymbolTable.Addressed.registerLiterals_iterate {base : Nat} {a : Analysis}
    (h : a.table.Addressed base) (times : Nat) :
    (Analysis.registerLiterals^[times] a).table.Addressed base := by
  induction times with
  | zero => exact h
  | succ times ih =>
    rw [Function.iterate_succ_apply', Analysis.registerLiterals, Analysis.table_carryAll]
    exact ih.applyAll _

/-- The table that is left has the symbols of the answers and of the log, in order. -/
structure Session.Coherent (s : Session) : Prop where
  scanned : s.analysis.table.history.toList =
    s.before.filterMap Outcome.symbol? ++ s.analysis.log.toList.filterMap Record.symbol?
  left : s.table.history.toList =
    s.analysis.table.history.toList ++ s.after.filterMap Outcome.symbol?

/-- It has no fewer symbols than were found. -/
theorem Session.Coherent.size_le {s : Session} (h : s.Coherent) :
    s.analysis.table.history.size ≤ s.table.history.size := by
  have hsize := congrArg List.length h.left
  rw [List.length_append, Array.length_toList, Array.length_toList] at hsize
  omega

namespace Script

theorem coherent_play (script : Script) (base : Nat) : (script.play base).Coherent where
  scanned := by
    have hrecorded := (recorded_analyzeWith ((SymbolTable.empty base).performAll script.setup)
      script.pushed script.source).registerLiterals_iterate script.times
    have hsetup := (SymbolTable.empty base).history_performAll script.setup
    have hempty : (SymbolTable.empty base).history.toList = [] := rfl
    rw [hempty, List.nil_append] at hsetup
    exact hrecorded.symbols.trans (by rw [hsetup]; rfl)
  left := SymbolTable.history_performAll _ _

/-- The addresses count up from the base address, over the whole script. -/
theorem addressed_play (script : Script) (base : Nat) :
    (script.play base).analysis.table.Addressed base ∧ (script.play base).table.Addressed base := by
  have hsetup := (SymbolTable.addressed_empty base).performAll script.setup
  have hliterals := (hsetup.analyzeWith script.pushed script.source).registerLiterals_iterate
    script.times
  exact ⟨hliterals, hliterals.performAll script.later⟩

end Script

/-! ## The same but for the addresses -/

/-- Records that differ by the address of a new symbol at most. -/
inductive Record.Alike (base base' : Nat) : Record → Record → Prop
  | registered {s s' : Symbol} (symbol : s.Alike base base' s') :
      Alike base base' (.registered s) (.registered s')
  | other {record : Record} (unregistered : ∀ s, record ≠ .registered s) :
      Alike base base' record record

/-- Sessions that differ by addresses alone. -/
structure Session.Alike (base base' : Nat) (s s' : Session) : Prop where
  before : List.Forall₂ (Outcome.Alike base base') s.before s'.before
  tokens : s'.analysis.tokens = s.analysis.tokens
  diagnostics : s'.analysis.diagnostics = s.analysis.diagnostics
  log : List.Forall₂ (Record.Alike base base') s.analysis.log.toList s'.analysis.log.toList
  scanned : s.analysis.table.Alike base base' s'.analysis.table
  after : List.Forall₂ (Outcome.Alike base base') s.after s'.after
  table : s.table.Alike base base' s'.table

section
variable {base base' limit : Nat} (hroom : base + limit < UInt64.size)
  (hroom' : base' + limit < UInt64.size)
include hroom hroom'

theorem Record.alike_move {record : Record} (h : ∀ s ∈ record.symbol?, s.address ≤ limit) :
    (record.move (.ofNat base)).Alike base base' (record.move (.ofNat base')) := by
  cases record with
  | registered s => exact .registered (s.alike_move hroom hroom' (h s rfl))
  | _ => exact .other nofun

/-- A session moved in two ways. -/
theorem Session.alike_move {s : Session} (hs : s.Coherent)
    (h : ∀ a ∈ s.table.history.toList, a.address ≤ limit)
    (hscanned : s.analysis.table.nextAddress.toNat ≤ limit)
    (hnext : s.table.nextAddress.toNat ≤ limit) :
    (s.move (.ofNat base)).Alike base base' (s.move (.ofNat base')) := by
  rw [hs.left, List.forall_mem_append] at h
  obtain ⟨hanalysis, hafter⟩ := h
  have hparts := hanalysis
  rw [hs.scanned, List.forall_mem_append] at hparts
  obtain ⟨hbefore, hlog⟩ := hparts
  constructor
  · exact forall₂_map_of_forall fun outcome ho => Outcome.alike_move hroom hroom' fun a ha =>
      hbefore a (List.mem_filterMap.mpr ⟨outcome, ho, ha⟩)
  · rfl
  · rfl
  · simp only [move, Analysis.move, Array.toList_map]
    exact forall₂_map_of_forall fun record hr => Record.alike_move hroom hroom' fun a ha =>
      hlog a (List.mem_filterMap.mpr ⟨record, hr, ha⟩)
  · exact SymbolTable.alike_move hroom hroom' hanalysis hscanned
  · exact forall₂_map_of_forall fun outcome ho => Outcome.alike_move hroom hroom' fun a ha =>
      hafter a (List.mem_filterMap.mpr ⟨outcome, ho, ha⟩)
  · refine SymbolTable.alike_move hroom hroom' ?_ hnext
    rw [hs.left, List.forall_mem_append]
    exact ⟨hanalysis, hafter⟩

end

/-! ## The command line -/

namespace CommandLine

/-- Another base address moves the analysis that is asked for. -/
theorem analysisFor_eq_move (o : Options) (source : String) :
    analysisFor o source =
      (analysisFor { o with baseAddress := some 0 } source).move (.ofNat o.firstAddress) := by
  have hempty : SymbolTable.empty o.firstAddress =
      (SymbolTable.empty 0).move (.ofNat o.firstAddress) := by
    rw [SymbolTable.move_empty, Nat.zero_add]
  have hflag : ({ o with baseAddress := some 0 } : Options).has .constants = o.has .constants := rfl
  simp only [analysisFor, hempty, analyzeWith_move, Analysis.registerLiterals_move, hflag]
  split <;> rfl

theorem symbolSection_move (n : UInt64) (a : Analysis) :
    symbolSection (a.move n) = symbolSection a :=
  congrArg ("\n" ++ ·) (a.table.report_move n)

/-- No section shows an address. -/
theorem output_from_zero (o : Options) (source : String) :
    output o source = output { o with baseAddress := some 0 } source := by
  simp only [output, analysisFor_eq_move o, symbolSection_move]
  rfl

section
variable {o o' : Options} (hflags : ∀ f, o.has f = o'.has f)

include hflags

/-- The output depends on the flags and on the first address. -/
theorem output_congr (hfirst : o.firstAddress = o'.firstAddress) (source : String) :
    output o source = output o' source := by
  have hanalysis : analysisFor o source = analysisFor o' source := by
    simp only [analysisFor, hflags, hfirst]
  have hshows : ∀ part, o.shows part = o'.shows part := by
    intro part
    simp only [Options.shows, hflags]
  simp only [output, hanalysis, hshows, hflags]

/-- It depends on the flags alone. -/
theorem output_of_flags (source : String) : output o source = output o' source := by
  have hzero : ∀ f, ({ o with baseAddress := some 0 } : Options).has f =
      ({ o' with baseAddress := some 0 } : Options).has f := hflags
  rw [output_from_zero o, output_from_zero o']
  exact output_congr hzero rfl source

end

end CommandLine

open CommandLine (respond Options)

/-- Two base addresses. From the greater one on the counter is further all the time, and
this is the only difference. While it does not run out there are the same answers, tokens,
diagnostics, levels, lookups, groups and reports, up to addresses that differ by as much as
the base addresses do. With the same file and the same flags there is the same output,
whatever base addresses are asked for, if any. -/
theorem base_address_equivariance (base base' : Nat) :
    (∀ (script : Script) (n : Nat),
      script.play (base + n) = (script.play base).move (.ofNat n)) ∧
    (∀ script : Script, base + (script.play base).table.history.size < UInt64.size →
      base' + (script.play base').table.history.size < UInt64.size →
        (script.play base).Alike base base' (script.play base')) ∧
    ∀ (file : String) (o o' : Options) (read : String → Option ByteArray),
      (∀ f, o.has f = o'.has f) →
        (respond file o read).output = (respond file o' read).output ∧
          (respond file o read).exitCode = (respond file o' read).exitCode := by
  refine ⟨fun script n => script.play_add base n, fun script hroom hroom' => ?_, ?_⟩
  · -- Both sessions are that from the base address 0, in which every address is a place of
    -- the history.
    obtain ⟨hscanned, htable⟩ := script.addressed_play 0
    have hsize : ∀ start, (script.play start).table.history.size =
        (script.play 0).table.history.size := by
      intro start
      rw [script.play_eq_move start]
      exact Array.size_map
    have hle := (script.coherent_play 0).size_le
    rw [hsize] at hroom hroom'
    rw [script.play_eq_move base, script.play_eq_move base']
    refine Session.alike_move hroom hroom' (script.coherent_play 0) (fun s hs => ?_) ?_ ?_
    · have := htable.address_lt (by omega) hs
      omega
    · rw [hscanned.next_of_room (by omega)]
      omega
    · rw [htable.next_of_room (by omega)]
      omega
  · intro file o o' read hflags
    simp only [respond]
    cases (read file).bind String.fromUTF8? with
    | none => exact ⟨rfl, rfl⟩
    | some source => exact ⟨CommandLine.output_of_flags hflags source, rfl⟩

/-- A table that is asked for with a base address and without one. -/
theorem base_address_equivariance_of_table :
    let script : Script := ⟨[.change .enter], [], "int a = 5;", 2, [.change .exit]⟩
    let chosen : Options := ⟨some "program", [.symbols], some 7, 0⟩
    let usual : Options := ⟨some "program", [.symbols], none, 1⟩
    let read : String → Option ByteArray := fun _ => some "int a = 5;".toUTF8
    7 + (script.play 7).table.history.size < UInt64.size ∧
      1000 + (script.play 1000).table.history.size < UInt64.size ∧
      (script.play 7).Alike 7 1000 (script.play 1000) ∧
      (respond "program" chosen read).output = (respond "program" usual read).output := by
  intro script chosen usual read
  obtain ⟨-, halike, houtput⟩ := base_address_equivariance 7 1000
  have hroom : 7 + (script.play 7).table.history.size < UInt64.size := by decide +kernel
  have hroom' : 1000 + (script.play 1000).table.history.size < UInt64.size := by decide +kernel
  exact ⟨hroom, hroom', halike script hroom hroom',
    (houtput "program" chosen usual read fun _ => rfl).1⟩

end ScopeLex
