import ScopeLex.Proofs.Analysis.Comment

/-!
# What a run hands on

A run hands on a table and a waiting type, nothing else: how it goes on depends on
these two and on the events to come. A comment hands on what it finds, so that runs
over events that differ in comments only are alike.

* `Run.diagnostics_feedAll`: the diagnostics of a run, event by event.
* `Run.Agrees.feed`, `Run.Agrees.feedAll`: runs that agree go on alike, also further
  down.
* `Run.Agrees.skip_comments`: a run goes on alike without comments.
* `analyzeWith_congr`: texts that differ in comments only.
-/
namespace ScopeLex

/-! ## Further down -/

/-- The token `n` lines further down. -/
def Token.shift (n : Nat) (t : Token) : Token := { t with line := n + t.line }

/-- The diagnostic `n` lines further down. -/
def Diagnostic.shift (n : Nat) (d : Diagnostic) : Diagnostic := { d with line := n + d.line }

theorem Diagnostic.shift_zero (d : Diagnostic) : d.shift 0 = d := by
  simp [shift]

namespace Event

/-- The event `n` lines further down. -/
def shift (n : Nat) : Event → Event
  | .token t => .token (t.shift n)
  | .stray c line column => .stray c (n + line) column

theorem shift_zero (e : Event) : e.shift 0 = e := by
  cases e <;> simp [shift, Token.shift]

theorem token?_shift (n : Nat) (e : Event) : (e.shift n).token? = e.token?.map (Token.shift n) := by
  cases e <;> rfl

end Event

/-! ## What a run hands on -/

/-- A comment. -/
def Event.isComment : Event → Bool
  | .token t => t.kind = .comment
  | .stray .. => false

theorem Event.exists_of_isComment {e : Event} (h : e.isComment = true) :
    ∃ t : Token, e = .token t ∧ t.kind = .comment := by
  cases e with
  | token t => exact ⟨t, rfl, of_decide_eq_true h⟩
  | stray c line column => cases h

theorem Event.filter_comments (comments : List BlockComment) :
    (comments.map fun c => Event.token c.token).filter (fun e => !e.isComment) = [] := by
  refine List.filter_eq_nil_iff.mpr fun e he => ?_
  obtain ⟨c, -, rfl⟩ := List.mem_map.mp he
  exact Bool.false_ne_true

namespace Run

/-- What events add to the diagnostics, one after the other. -/
def reports (r : Run) : List Event → List Diagnostic
  | [] => []
  | e :: events => r.reported e ++ (r.feed e).reports events

theorem diagnostics_feedAll (r : Run) (events : List Event) :
    (r.feedAll events).diagnostics = r.diagnostics ++ r.reports events := by
  induction events generalizing r with
  | nil => exact (List.append_nil _).symm
  | cons e events ih =>
    rw [feedAll_cons, ih, diagnostics_feed, List.append_assoc]
    rfl

theorem feedAll_append (r : Run) (events events' : List Event) :
    r.feedAll (events ++ events') = (r.feedAll events).feedAll events' := List.foldl_append

theorem reports_append (r : Run) (events events' : List Event) :
    r.reports (events ++ events') = r.reports events ++ (r.feedAll events).reports events' := by
  induction events generalizing r with
  | nil => rfl
  | cons e events ih =>
    rw [List.cons_append, reports, ih, reports, List.append_assoc]
    rfl

/-- Both runs hand on the same. -/
structure Agrees (r s : Run) : Prop where
  table : s.analysis.table = r.analysis.table
  pending : s.pending = r.pending

namespace Agrees

variable {r s : Run}

theorem refl (r : Run) : Agrees r r := ⟨rfl, rfl⟩

theorem symm (h : Agrees r s) : Agrees s r := ⟨h.table.symm, h.pending.symm⟩

theorem trans {u : Run} (h : Agrees r s) (h' : Agrees s u) : Agrees r u :=
  ⟨h'.table.trans h.table, h'.pending.trans h.pending⟩

/-- An event does the same to both, also further down. -/
theorem feed (h : Agrees r s) (n : Nat) (e : Event) : Agrees (r.feed e) (s.feed (e.shift n)) := by
  obtain ⟨ht, hp⟩ := h
  cases e with
  | stray c line column => exact ⟨ht, hp⟩
  | token t =>
    have hplan : (t.shift n).plan s.pending = t.plan r.pending := by rw [hp]; rfl
    constructor
    · simp only [Event.shift, Run.feed, table_take, hplan, ht]
    · exact congrArg Prod.snd hplan

/-- Both report it alike. -/
theorem reported (h : Agrees r s) (n : Nat) (e : Event) :
    s.reported (e.shift n) = (r.reported e).map (Diagnostic.shift n) := by
  obtain ⟨ht, hp⟩ := h
  cases e with
  | stray c line column => rfl
  | token t =>
    have hplan : (t.shift n).plan s.pending = t.plan r.pending := by rw [hp]; rfl
    simp only [Event.shift, Run.reported, hplan, ht]
    cases (t.plan r.pending).1 with
    | none => rfl
    | some change =>
      simp only [Option.toList_some, List.map_cons, List.map_nil, SymbolTable.refusals_cons,
        SymbolTable.refusals_nil, List.append_nil, Outcome.report?]
      cases (r.analysis.table.apply change).2.fault? <;> rfl

/-- What one event does to runs that agree, all events do. -/
theorem feedAll_map {f : Event → Event}
    (hf : ∀ {r s : Run}, Agrees r s → ∀ e, Agrees (r.feed e) (s.feed (f e)))
    (h : Agrees r s) (events : List Event) :
    Agrees (r.feedAll events) (s.feedAll (events.map f)) := by
  induction events generalizing r s with
  | nil => exact h
  | cons e events ih => exact ih (hf h e)

theorem reports_map {f : Event → Event} {g : Diagnostic → Diagnostic}
    (hf : ∀ {r s : Run}, Agrees r s → ∀ e, Agrees (r.feed e) (s.feed (f e)))
    (hg : ∀ {r s : Run}, Agrees r s → ∀ e, s.reported (f e) = (r.reported e).map g)
    (h : Agrees r s) (events : List Event) :
    s.reports (events.map f) = (r.reports events).map g := by
  induction events generalizing r s with
  | nil => rfl
  | cons e events ih =>
    rw [List.map_cons, Run.reports, Run.reports, List.map_append, hg h e, ih (hf h e)]

theorem feedAll (h : Agrees r s) (n : Nat) (events : List Event) :
    Agrees (r.feedAll events) (s.feedAll (events.map (Event.shift n))) :=
  feedAll_map (fun h => h.feed n) h events

theorem reports (h : Agrees r s) (n : Nat) (events : List Event) :
    s.reports (events.map (Event.shift n)) = (r.reports events).map (Diagnostic.shift n) :=
  reports_map (fun h => h.feed n) (fun h => h.reported n) h events

/-- Both go on alike. -/
theorem same (h : Agrees r s) (events : List Event) :
    Agrees (r.feedAll events) (s.feedAll events) ∧ s.reports events = r.reports events := by
  have hevents : events.map (Event.shift 0) = events := by
    rw [funext Event.shift_zero]
    exact List.map_id' events
  have hfeed := h.feedAll 0 events
  have hreports := h.reports 0 events
  rw [hevents] at hfeed hreports
  rw [hreports, funext Diagnostic.shift_zero]
  exact ⟨hfeed, List.map_id' _⟩

end Agrees

/-- A comment hands on what it finds, and reports nothing. -/
theorem agrees_feed_comment (r : Run) {t : Token} (ht : t.kind = .comment) :
    Agrees r (r.feed (.token t)) ∧ r.reported (.token t) = [] := by
  have hplan : t.plan r.pending = (none, r.pending) := by simp [Token.plan, ht]
  refine ⟨⟨?_, congrArg Prod.snd hplan⟩, ?_⟩
  · rw [feed, table_take, hplan]
    rfl
  · rw [reported, hplan]
    rfl

/-- A run goes on alike without comments. -/
theorem Agrees.skip_comments {r s : Run} (h : Agrees r s) (events : List Event) :
    Agrees (s.feedAll (events.filter fun e => !e.isComment)) (r.feedAll events) ∧
      r.reports events = s.reports (events.filter fun e => !e.isComment) := by
  induction events generalizing r s with
  | nil => exact ⟨h.symm, rfl⟩
  | cons e events ih =>
    cases he : e.isComment with
    | true =>
      obtain ⟨t, rfl, ht⟩ := Event.exists_of_isComment he
      obtain ⟨hcomment, hnone⟩ := r.agrees_feed_comment ht
      rw [List.filter_cons_of_neg (by rw [he]; decide), feedAll_cons, Run.reports, hnone,
        List.nil_append]
      exact ih (hcomment.symm.trans h)
    | false =>
      obtain ⟨hfeed, hreports⟩ := h.symm.same [e]
      obtain ⟨hrest, hrestReports⟩ := ih hfeed.symm
      rw [Run.reports, Run.reports, Run.reports, Run.reports, List.append_nil,
        List.append_nil] at hreports
      rw [List.filter_cons_of_pos (by rw [he]; rfl), feedAll_cons, feedAll_cons, Run.reports,
        Run.reports, hreports]
      exact ⟨hrest, congrArg _ hrestReports⟩

/-- Block comments hand on what they find, and report nothing. -/
theorem agrees_feedAll_comments (r : Run) (comments : List BlockComment) :
    Agrees r (r.feedAll (comments.map fun c => .token c.token)) ∧
      r.reports (comments.map fun c => .token c.token) = [] := by
  have h := (Agrees.refl r).skip_comments (comments.map fun c => Event.token c.token)
  rw [Event.filter_comments] at h
  exact h

end Run

/-! ## Texts that differ in comments -/

/-- Texts with the same events but for comments lead to the same table and diagnostics. -/
theorem analyzeWith_congr (table : SymbolTable) (pushed : List Token) {source other : String}
    (h : (Event.ofSource other.toList).filter (fun e => !e.isComment) =
      (Event.ofSource source.toList).filter fun e => !e.isComment) :
    (analyzeWith table pushed other).table = (analyzeWith table pushed source).table ∧
      (analyzeWith table pushed other).diagnostics.toList =
        (analyzeWith table pushed source).diagnostics.toList := by
  have hskip := (Run.Agrees.refl (Run.begun table pushed)).skip_comments
  obtain ⟨hother, hother'⟩ := hskip (Event.ofSource other.toList)
  obtain ⟨hsource, hsource'⟩ := hskip (Event.ofSource source.toList)
  rw [h] at hother hother'
  constructor
  · rw [table_eq_feedAll, table_eq_feedAll, hother.table, hsource.table]
  · rw [diagnostics_analyzeWith, diagnostics_analyzeWith, Run.diagnostics_feedAll,
      Run.diagnostics_feedAll, hother', hsource']

end ScopeLex
