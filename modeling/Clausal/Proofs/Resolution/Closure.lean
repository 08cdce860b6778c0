import Clausal.Proofs.Families
import Clausal.Proofs.Resolution.Completeness
import Clausal.Proofs.Resolution.Growth
import Mathlib.Order.Bounds.Basic

/-!
# The closure under resolution

Read as a family of sets, a formula grows inside every family that contains it and is closed under
resolution, and when no inference is admissible it is closed itself. So a formula that saturates
grows to the least closed family that contains it, which does not depend on the order in which its
clauses and their literals are listed, although the run does. That a formula is refuted does not
depend on it either: its closure then holds the empty set.
-/

set_option autoImplicit false

namespace Clausal

def Tautological (s : Set Literal) : Prop := ∃ l ∈ s, -l ∈ s

theorem Clause.isTautology_iff {c : Clause} : c.isTautology = true ↔ Tautological c.toSet := by
  simp [isTautology, Tautological, mem_iff, toSet]

namespace Resolution

/-- Different members that hold a literal and its negation have their resolvent in the family too,
unless it is a tautology. -/
def ClosedUnderResolution (𝒞 : Set (Set Literal)) : Prop :=
  ∀ s ∈ 𝒞, ∀ t ∈ 𝒞, s ≠ t → ∀ l ∈ s, -l ∈ t →
    ¬ Tautological ((s \ {l}) ∪ (t \ {-l})) → (s \ {l}) ∪ (t \ {-l}) ∈ 𝒞

theorem closedUnderResolution_of_next? {F : Formula} (h : next? F = none) :
    ClosedUnderResolution F.family := by
  rintro _ ⟨c, hc, rfl⟩ _ ⟨d, hd, rfl⟩ hne l hl hneg htaut
  obtain ⟨i, hi⟩ := List.mem_iff_getElem?.mp hc
  obtain ⟨j, hj⟩ := List.mem_iff_getElem?.mp hd
  have hij : i ≠ j := by
    intro heq
    subst heq
    rw [hi] at hj
    cases hj
    exact hne rfl
  rw [← Clause.toSet_resolve] at htaut ⊢
  rcases isTautology_or_contains_of_next? h hi hj hij hl hneg with hr | hr
  · exact absurd (Clause.isTautology_iff.mp hr) htaut
  · exact Formula.contains_iff_mem_family.mp hr

section
variable {F G : Formula} {cs : List Clause} {𝒞 : Set (Set Literal)}

theorem Inference.Admissible.toSet_mem {r : Inference} (h : r.Admissible F)
    (hF : F.family ⊆ 𝒞) (hclosed : ClosedUnderResolution 𝒞) : r.step.resolvent.toSet ∈ 𝒞 := by
  have hleft := hF (Formula.toSet_mem_family (List.mem_of_getElem? h.left_eq))
  have hright := hF (Formula.toSet_mem_family (List.mem_of_getElem? h.right_eq))
  have hne := Formula.toSet_ne_of_ne h.left_eq h.right_eq h.ne
  have htaut : ¬ Tautological r.step.resolvent.toSet := by
    rw [← Clause.isTautology_iff, h.not_tautology]
    exact Bool.false_ne_true
  rw [h.resolvent_eq, Clause.toSet_resolve] at htaut ⊢
  exact hclosed _ hleft _ hright hne _ h.pivot_mem h.neg_pivot_mem htaut

theorem Inserts.family_subset (h : Inserts F cs G) (hF : F.family ⊆ 𝒞)
    (hclosed : ClosedUnderResolution 𝒞) : G.family ⊆ 𝒞 := by
  induction h with
  | nil => exact hF
  | @snoc cs G r _ hnext _ ih =>
    have hadm := admissible_of_next? hnext
    rintro _ ⟨c, hc, rfl⟩
    rw [Formula.clauses_insert_of_not_contains hadm.not_contains] at hc
    rcases List.mem_append.mp hc with hc | hc
    · exact ih (Formula.toSet_mem_family hc)
    · rw [List.mem_singleton.mp hc]
      exact hadm.toSet_mem ih hclosed

theorem Inserts.isLeast_family (h : Inserts F cs G) (hnext : next? G = none) :
    IsLeast {𝒞 | F.family ⊆ 𝒞 ∧ ClosedUnderResolution 𝒞} G.family := by
  constructor
  · exact ⟨Formula.family_subset_of_clauses_eq h.clauses_eq, closedUnderResolution_of_next? hnext⟩
  · intro 𝒞 h𝒞
    exact h.family_subset h𝒞.1 h𝒞.2

/-- A formula inside a closed family without the empty set is never refuted. -/
theorem Inserts.eq_false_of_settled {refuted : Bool} (h : Inserts F cs G)
    (hG : Settled G refuted) (hF : F.family ⊆ 𝒞) (hclosed : ClosedUnderResolution 𝒞)
    (hempty : ∅ ∉ 𝒞) : refuted = false := by
  cases hG with
  | saturated => rfl
  | refuted hnext hr =>
    have hmem := (admissible_of_next? hnext).toSet_mem (h.family_subset hF hclosed) hclosed
    rw [Clause.isEmpty_iff_toSet_eq.mp hr] at hmem
    exact absurd hmem hempty

end

section
variable {σ : Type} (observe : Event → σ → σ) {F G : Formula} (init : σ)

theorem exists_outcome_refute (F : Formula) :
    ∃ verdict, (refute observe .never F init).outcome = .finished verdict := by
  cases hF : F.isFalse with
  | true => exact ⟨_, by rw [refute_of_isFalse observe .never hF]⟩
  | false =>
    obtain ⟨_, verdict, h⟩ := exists_settles_never observe init hF
    exact ⟨verdict, h.outcome_eq⟩

theorem inserts_of_saturated
    (h : (refute observe .never F init).outcome = .finished .saturated) :
    F.isFalse = false ∧ ∃ cs, Inserts F cs (refute observe .never F init).formula ∧
      next? (refute observe .never F init).formula = none := by
  have hF : F.isFalse = false := by
    rw [← Bool.not_eq_true]
    intro hF
    simp [refute_of_isFalse observe .never hF] at h
  obtain ⟨cs, verdict, hsettles⟩ := exists_settles_never observe init hF
  have hverdict := hsettles.outcome_eq
  rw [h] at hverdict
  cases hverdict
  refine ⟨hF, cs, hsettles.inserts, ?_⟩
  cases hsettles.settled with
  | saturated hnext => exact hnext

theorem isLeast_family_of_saturated
    (h : (refute observe .never F init).outcome = .finished .saturated) :
    IsLeast {𝒞 | F.family ⊆ 𝒞 ∧ ClosedUnderResolution 𝒞}
      (refute observe .never F init).formula.family := by
  obtain ⟨_, _, hinserts, hnext⟩ := inserts_of_saturated observe init h
  exact hinserts.isLeast_family hnext

theorem saturated_of_family_eq (hFG : F.family = G.family)
    (h : (refute observe .never F init).outcome = .finished .saturated) :
    (refute observe .never G init).outcome = .finished .saturated := by
  obtain ⟨hF, cs, hinserts, hnext⟩ := inserts_of_saturated observe init h
  have hG : G.isFalse = false := by
    rw [← hF, Bool.eq_iff_iff, Formula.isFalse_iff_empty_mem_family,
      Formula.isFalse_iff_empty_mem_family, hFG]
  have hempty : ∅ ∉ (refute observe .never F init).formula.family := by
    rw [← Formula.isFalse_iff_empty_mem_family, hinserts.isFalse_eq, hF]
    exact Bool.false_ne_true
  obtain ⟨hsubset, hclosed⟩ := (hinserts.isLeast_family hnext).1
  obtain ⟨ds, verdict, hsettles⟩ := exists_settles_never observe init hG
  have hverdict := hsettles.inserts.eq_false_of_settled hsettles.settled (hFG ▸ hsubset) hclosed
    hempty
  rw [hsettles.outcome_eq]
  cases verdict with
  | refuted => cases hverdict
  | saturated => rfl

end

/-- A formula that saturates grows to the least closed family that contains it. So formulas of the
same clauses, in whatever order, are both refuted, or grow to formulas of the same clauses. -/
theorem saturation_is_closure {σ : Type} (observe : Event → σ → σ) (F : Formula) (init : σ) :
    ((refute observe .never F init).outcome = .finished .saturated →
      IsLeast {𝒞 | F.family ⊆ 𝒞 ∧ ClosedUnderResolution 𝒞}
        (refute observe .never F init).formula.family) ∧
    ∀ G : Formula, F.same G = true →
      (∃ p q, (refute observe .never F init).outcome = .finished (.refuted p) ∧
        (refute observe .never G init).outcome = .finished (.refuted q)) ∨
      ((refute observe .never F init).outcome = .finished .saturated ∧
        (refute observe .never G init).outcome = .finished .saturated ∧
        (refute observe .never F init).formula.same (refute observe .never G init).formula =
          true) := by
  refine ⟨isLeast_family_of_saturated observe init, ?_⟩
  intro G hsame
  have hFG := Formula.same_iff_family_eq.mp hsame
  obtain ⟨v, hv⟩ := exists_outcome_refute observe init F
  obtain ⟨w, hw⟩ := exists_outcome_refute observe init G
  cases v with
  | saturated =>
    have hw := saturated_of_family_eq observe init hFG hv
    have hleast := isLeast_family_of_saturated observe init hv
    have hleast' := isLeast_family_of_saturated observe init hw
    rw [← hFG] at hleast'
    exact .inr ⟨hv, hw, Formula.same_iff_family_eq.mpr (hleast.unique hleast')⟩
  | refuted p =>
    cases w with
    | saturated =>
      have hv' := saturated_of_family_eq observe init hFG.symm hw
      rw [hv] at hv'
      cases hv'
    | refuted q => exact .inl ⟨p, q, hv, hw⟩

end Resolution
end Clausal
