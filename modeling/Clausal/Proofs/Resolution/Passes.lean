import Clausal.Proofs.Assignment
import Clausal.Resolution.Refute

/-!
# Passes of resolution

A pass that does not end a run adds the resolvent of the next inference, which is not empty.
`Passes D n E` says that `n` of them lead from `D` to `E`, and `Halts` how a run ends at `E`. Every
run consists of such passes and an end, so what one pass preserves holds wherever a run ends.

Each pass keeps the models of the formula and adds no empty clause.

This module does NOT look at what an observer is told.
-/

set_option autoImplicit false

namespace Clausal

variable {v : Assignment}

/-- Whatever the truth value of the pivot, one of the parents is true in another literal. -/
theorem Clause.holds_resolve {c d : Clause} {l : Literal} (hc : c.holds v) (hd : d.holds v) :
    (c.resolve d l).holds v := by
  by_cases hl : l.holds v
  · obtain ⟨m, hm, hv⟩ := hd
    have hne : m ≠ -l := by
      intro heq
      rw [heq] at hv
      exact Literal.holds_neg.mp hv hl
    exact ⟨m, Clause.mem_resolve.mpr (.inr ⟨hm, hne⟩), hv⟩
  · obtain ⟨m, hm, hv⟩ := hc
    have hne : m ≠ l := by
      intro heq
      exact hl (heq ▸ hv)
    exact ⟨m, Clause.mem_resolve.mpr (.inl ⟨hm, hne⟩), hv⟩

namespace Resolution

theorem Inference.Admissible.holds_resolvent {F : Formula} {r : Inference} (h : r.Admissible F)
    (hF : F.holds v) : r.step.resolvent.holds v := by
  rw [h.resolvent_eq]
  exact Clause.holds_resolve (hF _ (List.mem_of_getElem? h.left_eq))
    (hF _ (List.mem_of_getElem? h.right_eq))

inductive Passes (D : Derivation) : Nat → Derivation → Prop
  | zero : Passes D 0 D
  | succ {n : Nat} {E : Derivation} {r : Inference} (h : Passes D n E)
      (hnext : next? E.formula = some r) (hr : r.step.resolvent.isEmpty = false) :
      Passes D (n + 1) (E.add r (admissible_of_next? hnext))

/-- How a run ends whose next poll is number `poll`. -/
inductive Halts (stops : Interrupts) (poll : Nat) (E : Derivation) : Outcome Verdict → Prop
  | aborted (hstop : stops poll = true) : Halts stops poll E .aborted
  | saturated (hgo : stops poll = false) (hnext : next? E.formula = none) :
      Halts stops poll E (.finished .saturated)
  | refuted {r : Inference} (hgo : stops poll = false) (hnext : next? E.formula = some r)
      (hr : r.step.resolvent.isEmpty = true) :
      Halts stops poll E (.finished (.refuted (E.proof r)))

namespace Passes

variable {D E : Derivation} {n : Nat}

theorem cons {r : Inference} (hnext : next? D.formula = some r)
    (hr : r.step.resolvent.isEmpty = false)
    (h : Passes (D.add r (admissible_of_next? hnext)) n E) : Passes D (n + 1) E := by
  induction h with
  | zero => exact .succ .zero hnext hr
  | succ _ hnext' hr' ih => exact .succ ih hnext' hr'

theorem holds_iff (h : Passes D n E) : E.formula.holds v ↔ D.formula.holds v := by
  induction h with
  | zero => rfl
  | succ _ hnext _ ih =>
    rw [← ih]
    apply Formula.holds_insert.trans
    constructor
    · exact And.left
    · intro hE
      exact ⟨hE, (admissible_of_next? hnext).holds_resolvent hE⟩

theorem isFalse_eq (h : Passes D n E) (hD : D.formula.isFalse = false) :
    E.formula.isFalse = false := by
  induction h with
  | zero => exact hD
  | succ _ hnext hr ih =>
    have hclauses := Formula.clauses_insert_of_not_contains (admissible_of_next? hnext).not_contains
    unfold Formula.isFalse at ih ⊢
    simp only [Derivation.add, hclauses, List.any_append, ih, List.any_cons, hr, List.any_nil,
      Bool.or_false]

end Passes

/-- A run from `D`, with `polls` polls behind it, passes `n` times and ends at `E`. -/
structure Runs {σ : Type} (stops : Interrupts) (D : Derivation) (polls n : Nat) (E : Derivation)
    (r : Result σ) : Prop where
  passes : Passes D n E
  going : ∀ i < n, stops (polls + i) = false
  halts : Halts stops (polls + n) E r.outcome
  formula_eq : r.formula = E.formula
  polls_eq : r.polls = polls + n + 1

section
variable {σ : Type} (observe : Event → σ → σ) {stops : Interrupts}

theorem saturate_of_stop {D : Derivation} {polls : Nat} (hstop : stops polls = true) (seen : σ) :
    saturate observe stops D polls seen =
      ⟨.aborted, D.formula, polls + 1, observe (.aborted D.formula.size) seen⟩ := by
  rw [saturate, if_pos hstop]

theorem saturate_of_none {D : Derivation} {polls : Nat} (hgo : ¬ stops polls = true)
    (hnext : next? D.formula = none) (seen : σ) :
    saturate observe stops D polls seen =
      ⟨.finished .saturated, D.formula, polls + 1,
        observe (.saturated D.formula.size) (observe (.pass D) seen)⟩ := by
  rw [saturate, if_neg hgo]
  split
  · rfl
  · next s hs => simp [hnext] at hs

section
variable {D : Derivation} {polls : Nat} {r : Inference} (hgo : ¬ stops polls = true)
  (hnext : next? D.formula = some r)
include hgo hnext

theorem saturate_of_isEmpty (hr : r.step.resolvent.isEmpty = true) (seen : σ) :
    saturate observe stops D polls seen =
      ⟨.finished (.refuted (D.proof r)), D.formula, polls + 1,
        observe (.refuted D.formula.size (D.proof r))
          (observe (.resolved r.step) (observe (.pass D) seen))⟩ := by
  rw [saturate, if_neg hgo]
  split
  · next hnone => simp [hnext] at hnone
  · next s hs =>
    obtain rfl : r = s := Option.some.inj (hnext.symm.trans hs)
    rw [if_pos hr]

theorem saturate_of_next (hr : ¬ r.step.resolvent.isEmpty = true) (seen : σ) :
    saturate observe stops D polls seen =
      saturate observe stops (D.add r (admissible_of_next? hnext)) (polls + 1)
        (observe (.resolved r.step) (observe (.pass D) seen)) := by
  rw [saturate, if_neg hgo]
  split
  · next hnone => simp [hnext] at hnone
  · next s hs =>
    obtain rfl : r = s := Option.some.inj (hnext.symm.trans hs)
    rw [if_neg hr]

end

end

section
variable {σ : Type} (observe : Event → σ → σ) (stops : Interrupts)

theorem exists_runs_saturate (D : Derivation) (polls : Nat) (seen : σ) :
    ∃ n E, Runs stops D polls n E (saturate observe stops D polls seen) := by
  fun_induction saturate observe stops D polls seen with
  | case1 D polls seen size hstop => exact ⟨0, D, .zero, by simp, .aborted hstop, rfl, rfl⟩
  | case2 D polls seen size hgo seen' hnext =>
    exact ⟨0, D, .zero, by simp, .saturated (by simpa using hgo) hnext, rfl, rfl⟩
  | case3 D polls seen size hgo seen' r hnext seen'' hr =>
    exact ⟨0, D, .zero, by simp, .refuted (by simpa using hgo) hnext hr, rfl, rfl⟩
  | case4 D polls seen hgo seen' r hnext seen'' hr ih =>
    have hgo : stops polls = false := by simpa using hgo
    obtain ⟨n, E, h⟩ := ih
    refine ⟨n + 1, E, .cons hnext (by simpa using hr) h.passes, ?_, ?_, h.formula_eq, ?_⟩
    · intro i hi
      cases i with
      | zero => exact hgo
      | succ i =>
        have hi' := h.going i (by omega)
        rwa [Nat.add_right_comm, Nat.add_assoc] at hi'
    · have hhalts := h.halts
      rwa [Nat.add_right_comm, Nat.add_assoc] at hhalts
    · rw [h.polls_eq]
      omega

theorem exists_runs_refute {F : Formula} (hF : F.isFalse = false) (init : σ) :
    ∃ n E, Runs stops (.start F) 0 n E (refute observe stops F init) := by
  unfold refute
  rw [if_neg (by simp [hF])]
  exact exists_runs_saturate observe stops (.start F) 0 init

theorem refute_of_isFalse {F : Formula} (hF : F.isFalse = true) (init : σ) :
    refute observe stops F init =
      ⟨.finished (.refuted []), F, 0, observe .refutedAtOnce init⟩ := by
  unfold refute
  rw [if_pos hF]

end
end Resolution
end Clausal
