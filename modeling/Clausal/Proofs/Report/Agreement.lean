import Clausal.Proofs.Report.Lines
import Clausal.Proofs.Resolution.Completeness
import Clausal.Proofs.Writing

/-!
# The answers of the algorithms

Both searches and resolution answer the same question, whether the formula has a model, so their
reports give the same answer. Its lines say so too, and a trace only stands between them and the
lines on the formula.
-/

set_option autoImplicit false

namespace Clausal

def Answer.Decides (answer : Answer) (F : Formula) : Prop :=
  answer = .satisfiable ↔ ∃ v, F.holds v

theorem Answer.Decides.unique {a b : Answer} {F : Formula} (ha : a.Decides F) (hb : b.Decides F) :
    a = b := by
  have hab : a = .satisfiable ↔ b = .satisfiable := ha.trans hb.symm
  cases a <;> cases b <;> simp_all

theorem Answer.Decides.exitCode_eq_zero_iff {answer : Answer} {F : Formula}
    (h : answer.Decides F) : (Outcome.finished answer).exitCode = 0 ↔ ∃ v, F.holds v := by
  refine Iff.trans ?_ h
  cases answer <;> simp [Outcome.exitCode]

theorem Answer.Decides.exitCode_eq_one_iff {answer : Answer} {F : Formula}
    (h : answer.Decides F) : (Outcome.finished answer).exitCode = 1 ↔ ¬ ∃ v, F.holds v := by
  refine Iff.trans ?_ (not_congr h)
  cases answer <;> simp [Outcome.exitCode]

theorem Resolution.Settled.eq_true_iff {F : Formula} {refuted : Bool} (h : Settled F refuted)
    (hF : F.isFalse = false) : refuted = true ↔ ¬ ∃ v, F.holds v := by
  cases h with
  | saturated hnext =>
    have hmodel := exists_model_of_next?_eq_none hnext hF
    exact ⟨fun h => by simp at h, fun hnone => absurd hmodel hnone⟩
  | refuted hnext hr => exact ⟨fun _ => not_holds_of_empty_resolvent hnext hr, fun _ => rfl⟩

theorem Resolution.exists_verdict_decides {σ : Type} (observe : Event → σ → σ) (F : Formula)
    (init : σ) :
    ∃ verdict, (refute observe .never F init).outcome = .finished verdict ∧
      (Answer.ofVerdict verdict).Decides F := by
  have hdecides : ∀ verdict : Verdict, (verdict.isRefuted = true ↔ ¬ ∃ v, F.holds v) →
      (Answer.ofVerdict verdict).Decides F := by
    intro verdict h
    cases verdict with
    | refuted => simpa [Answer.Decides, Answer.ofVerdict, Verdict.isRefuted] using h
    | saturated => simpa [Answer.Decides, Answer.ofVerdict, Verdict.isRefuted] using h
  cases hF : F.isFalse with
  | true =>
    rw [refute_of_isFalse observe .never hF]
    refine ⟨_, rfl, hdecides _ ⟨fun _ hmodel => ?_, fun _ => rfl⟩⟩
    obtain ⟨v, hv⟩ := hmodel
    exact Formula.not_holds_of_isFalse hF hv
  | false =>
    obtain ⟨cs, verdict, h⟩ := exists_settles_never observe init hF
    refine ⟨verdict, h.outcome_eq, hdecides verdict ?_⟩
    rw [h.settled.eq_true_iff (h.inserts.isFalse_eq.trans hF)]
    exact not_congr (exists_congr fun _ => h.inserts.holds_iff)

/-- Whoever observes the search, it returns the same allocations. -/
theorem Search.exists_allocations_decide (mode : Mode) (F : Formula) :
    ∃ as : List Allocation, (∀ {σ : Type} (observe : Event → σ → σ) (init : σ),
        (solve observe .never mode F init).outcome = .finished as) ∧
      (Answer.ofAllocations as).Decides F ∧ (as = [] ↔ ¬ ∃ v, F.holds v) ∧
      ∀ a ∈ as, a.Consistent ∧ ∀ c ∈ F.clauses, ∃ l ∈ c, l ∈ a.literals := by
  obtain ⟨as, h⟩ : ∃ as, (solve keep .never mode F []).outcome = .finished as :=
    exists_outcome_solve mode F []
  have hne := ne_nil_iff_of_outcome h
  refine ⟨as, ?_, ?_, ?_, ?_⟩
  · intro σ observe init
    rw [solve_eq_keep]
    exact h
  · cases as with
    | nil => simpa [Answer.Decides, Answer.ofAllocations] using hne
    | cons a as => simpa [Answer.Decides, Answer.ofAllocations] using hne
  · rw [← hne, not_not]
  · intro a ha
    have hcompletes := completes_of_outcome h ha
    exact ⟨hcompletes.consistent, Allocation.satisfies_iff.mp hcompletes.satisfies⟩

def Algorithm.ofMode : Search.Mode → Algorithm
  | .first => .dpll
  | .all => .dpllAll

theorem Algorithm.run_ofMode (stops : Interrupts) (F : Formula) (mode : Search.Mode) :
    (Algorithm.ofMode mode).run stops F = .ofSearch stops mode F := by
  cases mode with
  | first => rfl
  | all => rfl

theorem Algorithm.exists_run_ofMode (F : Formula) (mode : Search.Mode) :
    ∃ as : List Allocation, (∀ {σ : Type} (observe : Search.Event → σ → σ) (init : σ),
        (Search.solve observe .never mode F init).outcome = .finished as) ∧
      ((Algorithm.ofMode mode).run .never F).outcome = .finished (.ofAllocations as) ∧
      ((Algorithm.ofMode mode).run .never F).answer = Report.allocationLines as ∧
      (Answer.ofAllocations as).Decides F ∧ (as = [] ↔ ¬ ∃ v, F.holds v) ∧
      ∀ a ∈ as, a.Consistent ∧ ∀ c ∈ F.clauses, ∃ l ∈ c, l ∈ a.literals := by
  obtain ⟨as, houtcome, has⟩ := Search.exists_allocations_decide mode F
  refine ⟨as, houtcome, ?_, ?_, has⟩
  · simp only [run_ofMode, Run.ofSearch, houtcome, Outcome.map]
  · simp only [run_ofMode, Run.ofSearch, houtcome, Report.closing]

theorem Algorithm.exists_run_resolution (F : Formula) :
    ∃ verdict : Resolution.Verdict, (Algorithm.resolution.run .never F).outcome =
        .finished (.ofVerdict verdict) ∧
      (Algorithm.resolution.run .never F).answer = Report.verdictLines verdict ∧
      (Answer.ofVerdict verdict).Decides F := by
  obtain ⟨verdict, houtcome, hdecides⟩ := Resolution.exists_verdict_decides keep F []
  refine ⟨verdict, ?_, ?_, hdecides⟩
  · simp only [run, Run.ofResolution, houtcome, Outcome.map]
  · simp only [run, Run.ofResolution, houtcome, Report.closing]

/-- Every algorithm finishes with an answer that decides the formula. -/
theorem Algorithm.exists_outcome_run (algorithm : Algorithm) (F : Formula) :
    ∃ answer : Answer, (algorithm.run .never F).outcome = .finished answer ∧
      answer.Decides F := by
  have hsearch : ∀ mode, ∃ answer : Answer,
      ((Algorithm.ofMode mode).run .never F).outcome = .finished answer ∧ answer.Decides F := by
    intro mode
    obtain ⟨as, _, houtcome, _, hdecides, _⟩ := exists_run_ofMode F mode
    exact ⟨_, houtcome, hdecides⟩
  cases algorithm with
  | dpll => exact hsearch .first
  | dpllAll => exact hsearch .all
  | resolution =>
    obtain ⟨verdict, houtcome, _, hdecides⟩ := exists_run_resolution F
    exact ⟨_, houtcome, hdecides⟩

namespace Report

theorem verdictLines_eq (verdict : Resolution.Verdict) :
    verdictLines verdict = ["", if Answer.ofVerdict verdict = .satisfiable
      then "Formula is satisfiable" else "Formula is unsatisfiable"] := by
  cases verdict with
  | refuted => rfl
  | saturated => rfl

theorem allocationLines_eq (as : List Allocation) :
    allocationLines as = (if Answer.ofAllocations as = .satisfiable then []
        else ["", "No satisfying allocation found,", "formula is unsatisfiable"]) ++
      ["", s!"Satisfying allocations ({as.length}):"] ++ as.map Allocation.text := by
  have htexts : as.map Allocation.render = as.map Allocation.text :=
    List.map_congr_left fun a _ => a.render_eq_text
  unfold allocationLines
  rw [htexts]
  cases as with
  | nil => rfl
  | cons a as => rfl

theorem opening_eq (F : Formula) : opening F = ["Formula: " ++ F.text, ""] := by
  rw [← Formula.render_eq_text]
  rfl

/-- All algorithms give the same answer, it decides the formula, and the lines show it; those of a
search show the allocations that it returns, one in each line. A trace stands behind the opening
lines and changes nothing else. -/
theorem report_agrees (F : Formula) :
    ∃ answer : Answer,
      (answer = .satisfiable ↔ ∃ v, F.holds v) ∧
      ((Outcome.finished answer).exitCode = 0 ↔ ∃ v, F.holds v) ∧
      ((Outcome.finished answer).exitCode = 1 ↔ ¬ ∃ v, F.holds v) ∧
      (∀ traced algorithm,
        (make traced .never algorithm F).outcome = .finished answer ∧
        (make traced .never algorithm F).formula = (make false .never algorithm F).formula) ∧
      (∀ traced, (make traced .never .resolution F).lines traced =
        ["Formula: " ++ F.text, ""] ++ ((if traced then Resolution.heardLines .never F else []) ++
          ["", if answer = .satisfiable then "Formula is satisfiable"
            else "Formula is unsatisfiable"])) ∧
      ∀ mode, ∃ as : List Allocation,
        (∀ {σ : Type} (observe : Search.Event → σ → σ) (init : σ),
          (Search.solve observe .never mode F init).outcome = .finished as) ∧
        (as = [] ↔ ¬ ∃ v, F.holds v) ∧
        (∀ a ∈ as, a.Consistent ∧ ∀ c ∈ F.clauses, ∃ l ∈ c, l ∈ a.literals) ∧
        ∀ traced, (make traced .never (.ofMode mode) F).lines traced =
          ["Formula: " ++ F.text, ""] ++
            ((if traced then Search.heardLines .never mode F else []) ++
            ((if answer = .satisfiable then []
                else ["", "No satisfying allocation found,", "formula is unsatisfiable"]) ++
              ["", s!"Satisfying allocations ({as.length}):"] ++ as.map Allocation.text)) := by
  obtain ⟨verdict, -, hanswer, hdecides⟩ := Algorithm.exists_run_resolution F
  refine ⟨.ofVerdict verdict, hdecides, hdecides.exitCode_eq_zero_iff,
    hdecides.exitCode_eq_one_iff, fun traced algorithm => ⟨?_, ?_⟩, fun traced => ?_,
    fun mode => ?_⟩
  · obtain ⟨answer, houtcome, hdecides'⟩ := Algorithm.exists_outcome_run algorithm F
    rw [(make_shows traced .never algorithm F).outcome_eq, houtcome, hdecides'.unique hdecides]
  · rw [(make_shows traced .never algorithm F).formula_eq,
      (make_shows false .never algorithm F).formula_eq]
  · rw [(make_shows traced .never .resolution F).lines_eq, opening_eq, hanswer, verdictLines_eq,
      Resolution.heardLines_eq]
    rfl
  · obtain ⟨as, houtcome, -, hanswer', hdecides', hnil, hsat⟩ := Algorithm.exists_run_ofMode F mode
    refine ⟨as, houtcome, hnil, hsat, fun traced => ?_⟩
    rw [(make_shows traced .never _ F).lines_eq, opening_eq, hanswer', allocationLines_eq,
      hdecides'.unique hdecides, Algorithm.run_ofMode, Search.heardLines_eq]
    rfl

end Report
end Clausal
