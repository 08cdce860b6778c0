import Clausal.Proofs.Resolution.Stopping
import Clausal.Report

/-!
# What a report is made of

A report shows the formula, then the trace of the algorithm if it is asked for, then the answer if
there is one. `Algorithm.run` is what an algorithm does, whoever watches it, and `Shows` says that
a report shows just this: with and without the trace it is the same run.

A run looks at the answers to its own polls only. The first of them that stops it aborts it, and
then the lines of its trace are a beginning of those of the run that is never stopped.
-/

set_option autoImplicit false

namespace Clausal

namespace Report

/-- The lines that come before the algorithm runs. -/
def opening (F : Formula) : List String := [s!"Formula: {F.render}", ""]

/-- The lines that show the answer of a run, if it has one. -/
def closing {α : Type} (outcome : Outcome α) (answer : α → List String) : List String :=
  match outcome with
  | .finished a => answer a
  | .aborted => []

end Report

namespace Algorithm

structure Run where
  outcome : Outcome Answer
  /-- The lines of its trace. -/
  trace : List String
  /-- The lines that show its answer. -/
  answer : List String
  formula : Formula
  polls : Nat

def Run.ofSearch (stops : Interrupts) (mode : Search.Mode) (F : Formula) : Run :=
  let r := Search.solve keep stops mode F []
  { outcome := r.outcome.map .ofAllocations
    trace := Search.traceLines stops mode F
    answer := Report.closing r.outcome Report.allocationLines
    formula := F
    polls := r.polls }

def Run.ofResolution (stops : Interrupts) (F : Formula) : Run :=
  let r := Resolution.refute keep stops F []
  { outcome := r.outcome.map .ofVerdict
    trace := Resolution.traceLines stops F
    answer := Report.closing r.outcome Report.verdictLines
    formula := r.formula
    polls := r.polls }

def run (stops : Interrupts) (F : Formula) : Algorithm → Run
  | .dpll => .ofSearch stops .first F
  | .dpllAll => .ofSearch stops .all F
  | .resolution => .ofResolution stops F

end Algorithm

namespace Report

/-- The report on `F` shows the run, the trace included if it is traced. -/
structure Shows (traced : Bool) (F : Formula) (r : Report) (run : Algorithm.Run) : Prop where
  outcome_eq : r.outcome = run.outcome
  formula_eq : r.formula = run.formula
  polls_eq : r.polls = run.polls
  lines_eq : r.lines traced = opening F ++ ((if traced then run.trace else []) ++ run.answer)

theorem reverse_foldl_watch {ε : Type} (f : ε → Event) (watched : Bool) (es : List ε) :
    (es.foldl (fun seen e => if watched then f e :: seen else seen) []).reverse =
      if watched then es.map f else [] := by
  cases watched with
  | true => simp [List.foldl_flip_cons_eq_append]
  | false => simp

/-- The lines of a report whose events are put together in this way. -/
theorem flatMap_lines_events {α ε : Type} (traced : Bool) (F : Formula) (algorithm : Algorithm)
    (f : ε → Event) (es : List ε) (outcome : Outcome α) (answer : α → List String) :
    (heading F algorithm ++
        (es.foldl (fun seen e => if traced then f e :: seen else seen) []).reverse ++
        conclude outcome answer).flatMap (Event.lines traced) =
      opening F ++ ((if traced then es.flatMap fun e => (f e).lines true else []) ++
        closing outcome answer) := by
  have hheading : (heading F algorithm).flatMap (Event.lines traced) = opening F := rfl
  have hconclude : (conclude outcome answer).flatMap (Event.lines traced) =
      closing outcome answer := by
    cases outcome with
    | finished a => simp [conclude, closing, Event.lines, List.flatMap_map]
    | aborted => rfl
  rw [reverse_foldl_watch, List.flatMap_append, List.flatMap_append, hheading, hconclude,
    List.append_assoc]
  cases traced with
  | true => simp [List.flatMap_map]
  | false => simp

theorem ofSearch_shows (traced : Bool) (stops : Interrupts) (algorithm : Algorithm)
    (mode : Search.Mode) (F : Formula) :
    Shows traced F (ofSearch traced stops algorithm mode F) (.ofSearch stops mode F) := by
  unfold ofSearch
  dsimp only
  rw [Search.solve_eq_keep]
  exact ⟨rfl, rfl, rfl, flatMap_lines_events traced F algorithm .search _ _ _⟩

theorem ofResolution_shows (traced : Bool) (stops : Interrupts) (F : Formula) :
    Shows traced F (ofResolution traced stops F) (.ofResolution stops F) := by
  unfold ofResolution
  dsimp only
  rw [Resolution.refute_eq_keep]
  exact ⟨rfl, rfl, rfl, flatMap_lines_events traced F .resolution .resolution _ _ _⟩

theorem make_shows (traced : Bool) (stops : Interrupts) (algorithm : Algorithm) (F : Formula) :
    Shows traced F (make traced stops algorithm F) (algorithm.run stops F) := by
  cases algorithm with
  | dpll => exact ofSearch_shows traced stops .dpll .first F
  | dpllAll => exact ofSearch_shows traced stops .dpllAll .all F
  | resolution => exact ofResolution_shows traced stops F

end Report

namespace Algorithm

variable {stops stops' : Interrupts} {F : Formula} {algorithm : Algorithm}

theorem Run.ofSearch_eq_of_agree {mode : Search.Mode}
    (hagree : ∀ i < (Run.ofSearch stops mode F).polls, stops' i = stops i) :
    Run.ofSearch stops' mode F = Run.ofSearch stops mode F := by
  unfold Run.ofSearch Search.traceLines Search.history
  rw [Search.solve_eq_of_agree hagree]

theorem Run.ofResolution_eq_of_agree
    (hagree : ∀ i < (Run.ofResolution stops F).polls, stops' i = stops i) :
    Run.ofResolution stops' F = Run.ofResolution stops F := by
  unfold Run.ofResolution Resolution.traceLines
  rw [Resolution.refute_eq_of_agree keep hagree]

theorem run_eq_of_agree (hagree : ∀ i < (algorithm.run stops F).polls, stops' i = stops i) :
    algorithm.run stops' F = algorithm.run stops F := by
  cases algorithm with
  | dpll => exact Run.ofSearch_eq_of_agree hagree
  | dpllAll => exact Run.ofSearch_eq_of_agree hagree
  | resolution => exact Run.ofResolution_eq_of_agree hagree

/-- The run is stopped at poll `i` and would otherwise be `never`. -/
structure Run.Stopped (never : Run) (i : Nat) (run : Run) : Prop where
  outcome_eq : run.outcome = .aborted
  polls_eq : run.polls = i + 1
  answer_eq : run.answer = []
  trace_prefix : run.trace <+: never.trace

theorem Run.ofSearch_stopped {mode : Search.Mode} {i : Nat}
    (hi : i < (Run.ofSearch .never mode F).polls) (hstop : stops i = true)
    (hgo : ∀ j < i, stops j = false) :
    (Run.ofSearch .never mode F).Stopped i (.ofSearch stops mode F) := by
  obtain ⟨houtcome, hpolls, before, path, G, after, hhistory, _, htrace⟩ :=
    Search.exists_solve_stopped hi hstop hgo
  unfold Run.ofSearch
  dsimp only
  rw [houtcome, hpolls, htrace]
  refine ⟨rfl, rfl, rfl, ?_⟩
  rw [Search.traceLines, hhistory, List.flatMap_append]
  exact List.prefix_append _ _

theorem Run.ofResolution_stopped {i : Nat} (hi : i < (Run.ofResolution .never F).polls)
    (hstop : stops i = true) (hgo : ∀ j < i, stops j = false) :
    (Run.ofResolution .never F).Stopped i (.ofResolution stops F) := by
  obtain ⟨houtcome, hpolls⟩ := Resolution.aborted_of_stop keep hi hstop hgo
  unfold Run.ofResolution
  dsimp only
  rw [houtcome, hpolls]
  exact ⟨rfl, rfl, rfl, Resolution.traceLines_prefix_never stops F⟩

theorem run_stopped {i : Nat} (hi : i < (algorithm.run .never F).polls) (hstop : stops i = true)
    (hgo : ∀ j < i, stops j = false) :
    (algorithm.run .never F).Stopped i (algorithm.run stops F) := by
  cases algorithm with
  | dpll => exact Run.ofSearch_stopped hi hstop hgo
  | dpllAll => exact Run.ofSearch_stopped hi hstop hgo
  | resolution => exact Run.ofResolution_stopped hi hstop hgo

/-- A run is one that is never stopped, or it is stopped at one of its polls. -/
theorem run_eq_never_or_stopped (stops : Interrupts) (algorithm : Algorithm) (F : Formula) :
    algorithm.run stops F = algorithm.run .never F ∨
      ∃ i < (algorithm.run .never F).polls,
        (algorithm.run .never F).Stopped i (algorithm.run stops F) := by
  rcases Search.going_or_exists_stop stops (algorithm.run .never F).polls with
    hgo | ⟨i, hi, hstop, hgo⟩
  · exact .inl (run_eq_of_agree hgo)
  · exact .inr ⟨i, hi, run_stopped hi hstop hgo⟩

theorem polls_run_le (stops : Interrupts) (algorithm : Algorithm) (F : Formula) :
    (algorithm.run stops F).polls ≤ (algorithm.run .never F).polls := by
  rcases run_eq_never_or_stopped stops algorithm F with heq | ⟨i, hi, hstopped⟩
  · exact Nat.le_of_eq (congrArg Run.polls heq)
  · rw [hstopped.polls_eq]
    exact hi

end Algorithm
end Clausal
