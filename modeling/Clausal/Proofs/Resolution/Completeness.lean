import Clausal.Proofs.Resolution.Passes
import Mathlib.Logic.Function.Basic

/-!
# Refutation completeness

A formula without the empty clause to which no inference is admissible has a model. It is built
variable by variable: at each point no clause has all of its literals assigned and false. If
neither value of the next variable could keep it so, the two clauses in the way would resolve on
this variable to a clause that is false already; such a clause is no tautology, so the formula
holds it, up to the order of its literals.

A clause that is a tautology is never false, so it is not in the way, and the two clauses in the
way differ, so no inference within one clause is missed.

The main statement is that `refute` decides every formula.
-/

set_option autoImplicit false

namespace Clausal

/-- All literals of the clause are over variables of `xs` and false. -/
def Clause.Falsified (v : Assignment) (xs : List Char) (c : Clause) : Prop :=
  ∀ l ∈ c, l.var ∈ xs ∧ ¬ l.holds v

namespace Clause.Falsified

variable {v : Assignment} {xs : List Char} {c d : Clause} {x : Char}

theorem of_same (h : c.same d = true) (hd : d.Falsified v xs) : c.Falsified v xs :=
  fun l hl => hd l ((Clause.same_iff.mp h l).mp hl)

theorem isTautology_eq (h : c.Falsified v xs) : c.isTautology = false := by
  unfold isTautology
  rw [List.any_eq_false]
  intro l hl hneg
  have hneg : -l ∈ c := by simpa using hneg
  exact (h (-l) hneg).2 (Literal.holds_neg.mpr (h l hl).2)

/-- The only literal that the value of `x` can have falsified is the one that `x` makes false. -/
theorem eq_or_of_update {b : Bool} (h : c.Falsified (Function.update v x b) (x :: xs))
    {l : Literal} (hl : l ∈ c) : l = ⟨x, !b⟩ ∨ (l.var ∈ xs ∧ ¬ l.holds v) := by
  obtain ⟨y, p⟩ := l
  obtain ⟨hy, hv⟩ := h ⟨y, p⟩ hl
  simp only [Literal.holds] at hv ⊢
  by_cases hyx : y = x
  · subst hyx
    rw [Function.update_self] at hv
    cases b <;> cases p <;> simp_all
  · rw [Function.update_of_ne hyx] at hv
    exact .inr ⟨(List.mem_cons.mp hy).resolve_left hyx, hv⟩

theorem mem_of_update {b : Bool} (h : c.Falsified (Function.update v x b) (x :: xs))
    (hc : ¬ c.Falsified v xs) : (⟨x, !b⟩ : Literal) ∈ c := by
  by_contra hx
  apply hc
  intro l hl
  rcases h.eq_or_of_update hl with rfl | hfalse
  · exact absurd hl hx
  · exact hfalse

/-- A clause that both values falsify is false without `x`. -/
theorem of_updates (h : c.Falsified (Function.update v x true) (x :: xs))
    (h' : c.Falsified (Function.update v x false) (x :: xs)) : c.Falsified v xs := by
  intro l hl
  rcases h.eq_or_of_update hl with rfl | hfalse
  · exact (h'.eq_or_of_update hl).resolve_left (by simp)
  · exact hfalse

theorem resolve_of_update (hd : d.Falsified (Function.update v x false) (x :: xs))
    (hc : c.Falsified (Function.update v x true) (x :: xs)) :
    (d.resolve c (.pos x)).Falsified v xs := by
  intro l hl
  rcases Clause.mem_resolve.mp hl with ⟨hl, hne⟩ | ⟨hl, hne⟩
  · exact (hd.eq_or_of_update hl).resolve_left hne
  · exact (hc.eq_or_of_update hl).resolve_left hne

end Clause.Falsified

namespace Resolution

variable {F : Formula}

theorem isTautology_or_contains_of_next? (h : next? F = none) {i j : Nat} {c d : Clause}
    {l : Literal} (hc : F.clauses[i]? = some c) (hd : F.clauses[j]? = some d) (hij : i ≠ j)
    (hl : l ∈ c) (hneg : -l ∈ d) :
    (c.resolve d l).isTautology = true ∨ F.contains (c.resolve d l) = true := by
  have hi := List.findSome?_eq_none_iff.mp h (c, i) (List.mk_mem_zipIdx_iff_getElem?.mpr hc)
  have hil := List.findSome?_eq_none_iff.mp hi l hl
  have hnone : infer? F i c l j d = none :=
    List.findSome?_eq_none_iff.mp hil (d, j) (List.mk_mem_zipIdx_iff_getElem?.mpr hd)
  rw [infer?, if_pos ⟨hij, hneg⟩] at hnone
  rw [← Bool.or_eq_true]
  by_contra hr
  simp [hr] at hnone

/-- The induction is on the variables that have a value so far. -/
theorem exists_forall_not_falsified (hnext : next? F = none) (hF : F.isFalse = false)
    (xs : List Char) : ∃ v, ∀ c ∈ F.clauses, ¬ c.Falsified v xs := by
  induction xs with
  | nil =>
    refine ⟨fun _ => false, ?_⟩
    intro c hc hfalse
    apply List.any_eq_false.mp hF c hc
    apply Clause.isEmpty_iff.mpr
    intro l hl
    simpa using (hfalse l hl).1
  | cons x xs ih =>
    obtain ⟨v, hv⟩ := ih
    by_contra hnone
    simp only [not_exists, not_forall, not_not] at hnone
    obtain ⟨c, hc, hcfalse⟩ := hnone (Function.update v x true)
    obtain ⟨d, hd, hdfalse⟩ := hnone (Function.update v x false)
    have hneg : -Literal.pos x ∈ c := hcfalse.mem_of_update (hv c hc)
    have hpos : Literal.pos x ∈ d := hdfalse.mem_of_update (hv d hd)
    have hfalse : (d.resolve c (.pos x)).Falsified v xs := hdfalse.resolve_of_update hcfalse
    obtain ⟨i, hi⟩ := List.mem_iff_getElem?.mp hc
    obtain ⟨j, hj⟩ := List.mem_iff_getElem?.mp hd
    have hji : j ≠ i := by
      intro heq
      subst heq
      obtain rfl : c = d := Option.some.inj (hi.symm.trans hj)
      exact hv c hc (hcfalse.of_updates hdfalse)
    rcases isTautology_or_contains_of_next? hnext hj hi hji hpos hneg with htaut | hcontains
    · simp [hfalse.isTautology_eq] at htaut
    · obtain ⟨e, he, hsame⟩ := Formula.contains_iff.mp hcontains
      exact hv e he (hfalse.of_same hsame)

theorem exists_model_of_next?_eq_none (hnext : next? F = none) (hF : F.isFalse = false) :
    ∃ v, F.holds v := by
  obtain ⟨v, hv⟩ := exists_forall_not_falsified hnext hF F.vars
  refine ⟨v, ?_⟩
  intro c hc
  by_contra hfalse
  apply hv c hc
  intro l hl
  refine ⟨Formula.var_mem_vars hc hl, ?_⟩
  intro hholds
  exact hfalse ⟨l, hl, hholds⟩

theorem not_holds_of_empty_resolvent {r : Inference} (hnext : next? F = some r)
    (hr : r.step.resolvent.isEmpty = true) : ¬ ∃ v, F.holds v := by
  intro hmodel
  obtain ⟨v, hv⟩ := hmodel
  exact Clause.not_holds_of_isEmpty hr ((admissible_of_next? hnext).holds_resolvent hv)

/-- Resolution decides every formula: it ends with a refutation if there is no model and with
saturation if there is one. -/
theorem refute_decides {σ : Type} (observe : Event → σ → σ) (F : Formula) (init : σ) :
    ∃ verdict, (refute observe .never F init).outcome = .finished verdict ∧
      ((∃ proof, verdict = .refuted proof) ↔ ¬ ∃ v, F.holds v) ∧
      (verdict = .saturated ↔ ∃ v, F.holds v) := by
  cases hF : F.isFalse with
  | true =>
    have hnone : ¬ ∃ v, F.holds v := fun ⟨_, hv⟩ => Formula.not_holds_of_isFalse hF hv
    rw [refute_of_isFalse observe .never hF]
    exact ⟨_, rfl, by simp [hnone], by simp [hnone]⟩
  | false =>
    obtain ⟨n, E, h⟩ := exists_runs_refute observe .never hF init
    have hmodels : (∃ v, E.formula.holds v) ↔ ∃ v, F.holds v :=
      exists_congr fun _ => h.passes.holds_iff
    have hhalts := h.halts
    generalize (refute observe .never F init).outcome = outcome at hhalts
    rw [← hmodels]
    cases hhalts with
    | aborted hstop => simp [Interrupts.never] at hstop
    | saturated _ hnext =>
      have hmodel := exists_model_of_next?_eq_none hnext (h.passes.isFalse_eq hF)
      exact ⟨_, rfl, by simp [hmodel], by simp [hmodel]⟩
    | refuted _ hnext hr =>
      have hnone := not_holds_of_empty_resolvent hnext hr
      exact ⟨_, rfl, by simp [hnone], by simp [hnone]⟩

end Resolution
end Clausal
