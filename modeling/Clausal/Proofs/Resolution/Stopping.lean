import Clausal.Proofs.Resolution.Resumption

/-!
# Stopped and observed resolution

Of its interrupts a run of resolution looks at the answers to its own polls only, and at its
observer it never looks. So interrupts that give the same answers lead to the same run, and what
another observer sees of a run can be told from its events.

The first answer that stops a run aborts it. This module does NOT say which clauses are there by
then, nor which lines: the modules it builds on do.
-/

set_option autoImplicit false

namespace Clausal.Resolution

section
variable {σ : Type} (observe : Event → σ → σ) {stops stops' : Interrupts}

theorem lt_polls_saturate (D : Derivation) (polls : Nat) (seen : σ) :
    polls < (saturate observe stops D polls seen).polls := by
  obtain ⟨n, _, hruns⟩ := exists_runs_saturate observe stops D polls seen
  rw [hruns.polls_eq]
  omega

theorem saturate_eq_of_agree (D : Derivation) (polls : Nat) (seen : σ)
    (hagree : ∀ i, polls ≤ i → i < (saturate observe stops D polls seen).polls →
      stops' i = stops i) :
    saturate observe stops' D polls seen = saturate observe stops D polls seen := by
  have hpoll := hagree polls (Nat.le_refl _) (lt_polls_saturate observe D polls seen)
  fun_induction saturate observe stops D polls seen with
  | case1 D polls seen size hstop => exact saturate_of_stop observe (hpoll.trans hstop) seen
  | case2 D polls seen size hgo seen' hnext =>
    exact saturate_of_none observe (hpoll ▸ hgo) hnext seen
  | case3 D polls seen size hgo seen' r hnext seen'' hr =>
    exact saturate_of_isEmpty observe (hpoll ▸ hgo) hnext hr seen
  | case4 D polls seen hgo seen' r hnext seen'' hr ih =>
    rw [saturate_of_next observe (hpoll ▸ hgo) hnext hr]
    have hagree' := fun i hi => hagree i (Nat.le_of_succ_le hi)
    exact ih hagree' (hagree' _ (Nat.le_refl _) (lt_polls_saturate observe _ _ _))

theorem refute_eq_of_agree {F : Formula} {init : σ}
    (hagree : ∀ i < (refute observe stops F init).polls, stops' i = stops i) :
    refute observe stops' F init = refute observe stops F init := by
  unfold refute at hagree ⊢
  split
  · rfl
  · next hF =>
    rw [if_neg hF] at hagree
    exact saturate_eq_of_agree observe _ _ _ fun i _ => hagree i

/-- A run keeps its events in the order in which another observer is told of them. -/
theorem saturate_eq_keep (D : Derivation) (polls : Nat) (init : σ) (events : List Event) :
    let seen (es : List Event) : σ := es.foldl (fun seen e => observe e seen) init
    let r := saturate keep stops D polls events
    saturate observe stops D polls (seen events) = ⟨r.outcome, r.formula, r.polls, seen r.seen⟩ := by
  dsimp only
  fun_induction saturate keep stops D polls events with
  | case1 D polls events size hstop =>
    rw [saturate_of_stop observe hstop]
    simp [keep, size]
  | case2 D polls events size hgo seen hnext =>
    rw [saturate_of_none observe hgo hnext]
    simp [keep, size, seen]
  | case3 D polls events size hgo seen r hnext seen' hr proof =>
    rw [saturate_of_isEmpty observe hgo hnext hr]
    simp [keep, size, seen, seen', proof]
  | case4 D polls events hgo seen r hnext seen' hr ih =>
    rw [saturate_of_next observe hgo hnext hr, ← ih]
    simp [keep, seen, seen']

theorem refute_eq_keep (F : Formula) (init : σ) :
    refute observe stops F init =
      ⟨(refute keep stops F []).outcome, (refute keep stops F []).formula,
        (refute keep stops F []).polls,
        (refute keep stops F []).seen.foldl (fun seen e => observe e seen) init⟩ := by
  unfold refute
  split
  · rfl
  · exact saturate_eq_keep observe (.start F) 0 init []

/-- A run that went on past the first answer that stops it would settle only after as many polls as
one that is never stopped. -/
theorem aborted_of_stop {F : Formula} {init : σ} {i : Nat}
    (hi : i < (refute observe .never F init).polls) (hstop : stops i = true)
    (hgo : ∀ j < i, stops j = false) :
    (refute observe stops F init).outcome = .aborted ∧
      (refute observe stops F init).polls = i + 1 := by
  have hF : F.isFalse = false := by
    rw [← Bool.not_eq_true]
    intro hF
    simp [refute_of_isFalse observe _ hF] at hi
  obtain ⟨cs, hcourse⟩ := exists_course observe stops init hF
  obtain ⟨ds, hnever⟩ := exists_course observe .never init hF
  have hle : cs.length ≤ i := by
    apply Nat.le_of_not_lt
    intro hlt
    simp [hcourse.going i hlt] at hstop
  rcases hcourse.aborted_or_settled with ⟨haborted, hstop'⟩ | ⟨verdict, hfinished, hgo', _⟩
  · have hge : i ≤ cs.length := by
      apply Nat.le_of_not_lt
      intro hlt
      simp [hgo _ hlt] at hstop'
    exact ⟨haborted, by rw [hcourse.polls_eq, Nat.le_antisymm hle hge]⟩
  · obtain ⟨_, hnever'⟩ := hnever.exists_settles
    obtain ⟨rfl, _⟩ := (hcourse.settles hfinished).unique hnever'
    rw [hnever.polls_eq] at hi
    obtain rfl : i = cs.length := Nat.le_antisymm (Nat.le_of_lt_succ hi) hle
    simp [hgo'] at hstop

end

section
variable (traced : Bool) (stops : Interrupts) (F : Formula)

/-- A run of resolution, and what is heard of it if it is traced or not. -/
def heard : Result (List Notice) := refute (Notice.hear (Event.notices traced)) stops F []

theorem seen_heard : (heard traced stops F).seen =
    (refute keep stops F []).seen.flatMap (Event.notices traced) := by
  rw [heard, refute_eq_keep, List.flatMap_eq_foldl]
  rfl

theorem records_heard : Notice.records (heard traced stops F).seen =
    (refute keep stops F []).seen.filterMap Event.record? := by
  rw [seen_heard]
  exact Notice.records_flatMap_tell traced Event.record? Event.lines _

theorem lines_heard : Notice.lines (heard traced stops F).seen =
    if traced then traceLines stops F else [] := by
  rw [seen_heard]
  exact Notice.lines_flatMap_tell traced Event.record? Event.lines _

/-- The lines that are heard of the run if it is traced. -/
def heardLines : List String := Notice.lines (heard true stops F).seen

theorem heardLines_eq : heardLines stops F = traceLines stops F :=
  (lines_heard true stops F).trans (if_pos rfl)

theorem refute_eq_heard {σ : Type} (observe : Event → σ → σ) (init : σ) :
    (refute observe stops F init).outcome = (heard traced stops F).outcome ∧
      (refute observe stops F init).formula = (heard traced stops F).formula ∧
      (refute observe stops F init).polls = (heard traced stops F).polls := by
  rw [heard, refute_eq_keep observe, refute_eq_keep (Notice.hear (Event.notices traced))]
  exact ⟨rfl, rfl, rfl⟩

end
end Clausal.Resolution
