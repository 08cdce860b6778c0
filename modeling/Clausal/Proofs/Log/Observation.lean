import Clausal.Proofs.Log.Account
import Clausal.Proofs.Log.Transcription

/-!
# Observed runs

Whoever observes a run, and whether it is traced or not, it goes the same way: it has the same
outcome and the same polls, and leaves the same formula. What is heard of a traced run are the
records that are heard of any run, and its trace besides. The two are written apart from each other
but agree: the trace of a search can be written from its log, and the derivation that the log of
resolution shows is the one in the trace.
-/

set_option autoImplicit false

namespace Clausal

namespace Resolution

theorem exists_account_heard (stops : Interrupts) {F : Formula} (hF : F.isFalse = false) :
    ∃ derivation, Account (heard false stops F).formula.size derivation
      (heard false stops F).outcome (Notice.records (heard false stops F).seen)
      (Notice.lines (heard true stops F).seen) := by
  obtain ⟨derivation, haccount⟩ := exists_account stops hF
  obtain ⟨houtcome, hformula, _⟩ := refute_eq_heard false stops F keep []
  rw [houtcome, hformula] at haccount
  refine ⟨derivation, ?_⟩
  rw [records_heard, lines_heard]
  exact haccount

end Resolution

/-- A run of either engine goes the same way for every observer, and its log is the same whether it
is traced or not. The trace of a search can be written from the log of the search when it is not
traced. The log of a run of resolution and its trace show the same derivation and the same number
of clauses, and the trace of a refutation ends with the steps of its proof, all of which it has
shown before. -/
theorem trace_agrees_with_log (stops : Interrupts) (F : Formula) :
    (∀ mode,
      let quiet := Search.heard false stops mode F
      let traced := Search.heard true stops mode F
      (∀ {σ : Type} (observe : Search.Event → σ → σ) (init : σ),
        (Search.solve observe stops mode F init).outcome = quiet.outcome ∧
        (Search.solve observe stops mode F init).polls = quiet.polls) ∧
      Notice.lines quiet.seen = [] ∧ Notice.records traced.seen = Notice.records quiet.seen ∧
      Notice.lines traced.seen = Search.transcribe 0 (Notice.records quiet.seen)) ∧
    let quiet := Resolution.heard false stops F
    let traced := Resolution.heard true stops F
    (∀ {σ : Type} (observe : Resolution.Event → σ → σ) (init : σ),
      (Resolution.refute observe stops F init).outcome = quiet.outcome ∧
      (Resolution.refute observe stops F init).formula = quiet.formula ∧
      (Resolution.refute observe stops F init).polls = quiet.polls) ∧
    Notice.lines quiet.seen = [] ∧ Notice.records traced.seen = Notice.records quiet.seen ∧
    (F.isFalse = false → ∃ derivation,
      Resolution.Account quiet.formula.size derivation quiet.outcome
        (Notice.records quiet.seen) (Notice.lines traced.seen) ∧
      (Notice.records quiet.seen).filterMap Resolution.lineShown? =
        derivation.map Resolution.Step.render) := by
  refine ⟨fun mode => ⟨?_, ?_, ?_, ?_⟩, ?_, ?_, ?_, ?_⟩
  · exact Search.solve_eq_heard false stops mode F
  · exact Search.lines_heard false stops mode F
  · rw [Search.records_heard, Search.records_heard]
  · rw [Search.lines_heard, Search.records_heard, Search.transcribe_history]
    rfl
  · exact Resolution.refute_eq_heard false stops F
  · exact Resolution.lines_heard false stops F
  · rw [Resolution.records_heard, Resolution.records_heard]
  · intro hF
    obtain ⟨derivation, haccount⟩ := Resolution.exists_account_heard stops hF
    exact ⟨derivation, haccount, haccount.filterMap_lineShown?⟩

end Clausal
