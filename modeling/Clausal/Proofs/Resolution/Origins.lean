import Clausal.Proofs.Resolution.Refutation
import Clausal.Proofs.Resolution.Stopping

/-!
# Clauses and origins in step

A derivation lists its clauses and their origins side by side. `GrownFrom F D` says that the two
lists are in step: the clauses of `F` come first and are given, and every later one is the resolvent
of two different clauses before it. An inference keeps this, so it holds at every pass of a run.

`reconstruct?` goes from an inference back through the origins and looks up every place it needs in
the two lists. It has no result if a place lies outside of a list or if the way back is longer than
it may be. The parents of a clause stand before it, so no way back is longer than the lists.

The main statement: at every pass of every run the lists are in step, the next inference adds a
clause, and the steps that lead to it can be looked up.
-/

set_option autoImplicit false

namespace Clausal.Resolution

/-- An inference with its parents looked up. -/
def stepAt? (F : Formula) (left right : Nat) (pivot : Literal) (resolvent : Clause) :
    Option Step := do
  let c ← F.clauses[left]?
  let d ← F.clauses[right]?
  return ⟨c, d, pivot, resolvent⟩

/-- Puts the steps that derive clause `n` behind `steps`, each one before those of its parents. At
most `depth` clauses may stand one behind the other on the way back. -/
def walk? (F : Formula) (origins : List Origin) :
    (depth n : Nat) → List Step → Option (List Step)
  | 0, _, _ => none
  | depth + 1, n, steps => do
    match ← origins[n]? with
    | .given => return steps
    | .derived left right s =>
      let resolvent ← F.clauses[n]?
      let s ← stepAt? F left right s.pivot resolvent
      let steps ← walk? F origins depth left (steps ++ [s])
      walk? F origins depth right steps

/-- The steps that lead to an inference, which are collected from the last one to the first. -/
def reconstruct? (F : Formula) (origins : List Origin) (last : Inference) :
    Option (List Step) := do
  let s ← stepAt? F last.left last.right last.step.pivot last.step.resolvent
  let steps ← walk? F origins F.size last.left [s]
  let steps ← walk? F origins F.size last.right steps
  return steps.reverse

theorem stepAt?_eq {F : Formula} {left right : Nat} {s : Step}
    (hleft : F.clauses[left]? = some s.left) (hright : F.clauses[right]? = some s.right) :
    stepAt? F left right s.pivot s.resolvent = some s := by
  simp [stepAt?, hleft, hright]

section
variable {F : Formula} {origins : List Origin} {n left right : Nat} {s : Step} (depth : Nat)

theorem walk?_of_given (ho : origins[n]? = some .given) (steps : List Step) :
    walk? F origins (depth + 1) n steps = some steps := by
  rw [walk?, ho]
  rfl

theorem walk?_of_derived (ho : origins[n]? = some (.derived left right s))
    (hleft : F.clauses[left]? = some s.left) (hright : F.clauses[right]? = some s.right)
    (hn : F.clauses[n]? = some s.resolvent) (steps : List Step) :
    walk? F origins (depth + 1) n steps =
      (walk? F origins depth left (steps ++ [s])).bind (walk? F origins depth right) := by
  rw [walk?, ho]
  simp [hn, stepAt?_eq hleft hright]

end

namespace Derivation

/-- The clauses of `F` come first and are given, and every later clause is the resolvent of two
different clauses before it. -/
structure GrownFrom (F : Formula) (D : Derivation) : Prop where
  length_eq : D.origins.length = D.formula.size
  clauses_prefix : F.clauses <+: D.formula.clauses
  given_iff : ∀ n : Nat, D.origins[n]? = some .given ↔ n < F.size
  derived : ∀ n : Nat, F.size ≤ n → n < D.formula.size → ∃ left right s c d,
    D.origins[n]? = some (.derived left right s) ∧ left < n ∧ right < n ∧ left ≠ right ∧
      D.formula.clauses[left]? = some c ∧ D.formula.clauses[right]? = some d ∧
      s.pivot ∈ c ∧ -s.pivot ∈ d ∧ D.formula.clauses[n]? = some (c.resolve d s.pivot)

theorem grownFrom_start (F : Formula) : (start F).GrownFrom F where
  length_eq := (start F).length_origins
  clauses_prefix := List.prefix_refl _
  given_iff := by
    intro n
    simp [start, List.getElem?_replicate]
  derived := by
    intro n hge hlt
    exact absurd hlt (Nat.not_lt.mpr hge)

section
variable {F : Formula} {D : Derivation} {r : Inference} (h : r.Admissible D.formula)

theorem origins_add_of_lt {n : Nat} (hn : n < D.formula.size) :
    (D.add r h).origins[n]? = D.origins[n]? :=
  List.getElem?_append_left (D.length_origins.symm ▸ hn)

theorem origins_add_size :
    (D.add r h).origins[D.formula.size]? = some (.derived r.left r.right r.step) := by
  rw [← D.length_origins]
  exact List.getElem?_concat_length

theorem size_add : (D.add r h).formula.size = D.formula.size + 1 := by
  rw [Formula.size, clauses_add, List.length_append, List.length_singleton]
  rfl

theorem GrownFrom.size_le (hD : D.GrownFrom F) : F.size ≤ D.formula.size :=
  hD.clauses_prefix.length_le

theorem GrownFrom.add (hD : D.GrownFrom F) : (D.add r h).GrownFrom F where
  length_eq := (D.add r h).length_origins
  clauses_prefix := by
    rw [clauses_add]
    exact hD.clauses_prefix.trans (List.prefix_append _ _)
  given_iff := by
    intro n
    constructor
    · intro hn
      rcases getElem?_origins_add h hn with hold | ⟨_, hnew⟩
      · exact (hD.given_iff n).mp hold
      · cases hnew
    · intro hn
      rw [origins_add_of_lt h (Nat.lt_of_lt_of_le hn hD.size_le)]
      exact (hD.given_iff n).mpr hn
  derived := by
    intro n hge hlt
    rw [size_add] at hlt
    rcases Nat.lt_succ_iff_lt_or_eq.mp hlt with hold | rfl
    · obtain ⟨left, right, s, c, d, ho, hl, hr, hne, hc, hd, hpivot, hneg, hn⟩ :=
        hD.derived n hge hold
      exact ⟨left, right, s, c, d, (origins_add_of_lt h hold).trans ho, hl, hr, hne,
        getElem?_clauses_add h hc, getElem?_clauses_add h hd, hpivot, hneg,
        getElem?_clauses_add h hn⟩
    · refine ⟨r.left, r.right, r.step, r.step.left, r.step.right, origins_add_size h, h.left_lt,
        h.right_lt, h.ne, getElem?_clauses_add h h.left_eq, getElem?_clauses_add h h.right_eq,
        h.pivot_mem, h.neg_pivot_mem, ?_⟩
      rw [clauses_add, ← h.resolvent_eq]
      exact List.getElem?_concat_length

end

theorem GrownFrom.of_passes {F : Formula} {D E : Derivation} {n : Nat} (hD : D.GrownFrom F)
    (h : Passes D n E) : E.GrownFrom F := by
  induction h with
  | zero => exact hD
  | succ _ hnext _ ih => exact ih.add (admissible_of_next? hnext)

/-- The parents stand before the clause, so as much depth is enough as there are places up to it. -/
theorem Justified.walk?_eq {F : Formula} {D : Derivation} (hD : D.Justified F) {depth n : Nat}
    (hdepth : n < depth) (hn : n < D.formula.size) (steps : List Step) :
    walk? D.formula D.origins depth n steps = some (steps ++ (D.history n).reverse) := by
  induction depth generalizing n steps with
  | zero => exact absurd hdepth (Nat.not_lt_zero n)
  | succ depth ih =>
    obtain ⟨o, ho⟩ := exists_origin hn
    cases o with
    | given =>
      rw [walk?_of_given depth ho, history_of_given ho, List.reverse_nil, List.append_nil]
    | derived left right s =>
      obtain ⟨_, hleft, hright, hn'⟩ := hD.derived n left right s ho
      obtain ⟨hl, hr⟩ := D.earlier n left right s ho
      have hwalkl := ih (n := left) (by omega) (Nat.lt_trans hl hn) (steps ++ [s])
      have hwalkr := ih (n := right) (by omega) (Nat.lt_trans hr hn)
      rw [walk?_of_derived depth ho hleft hright hn', hwalkl, Option.bind_some, hwalkr,
        history_of_derived ho]
      simp

theorem Justified.reconstruct?_eq {F : Formula} {D : Derivation} (hD : D.Justified F)
    {last : Inference} (h : last.Admissible D.formula) :
    reconstruct? D.formula D.origins last = some (D.proof last) := by
  unfold reconstruct?
  rw [stepAt?_eq h.left_eq h.right_eq, D.proof_eq]
  simp [hD.walk?_eq h.left_lt h.left_lt, hD.walk?_eq h.right_lt h.right_lt]

end Derivation

section
variable {stops : Interrupts}

/-- Every pass of a run takes place after some number of passes from its start. -/
theorem exists_passes_of_mem_saturate {D E : Derivation} {polls : Nat} {events : List Event}
    (h : .pass E ∈ (saturate keep stops D polls events).seen) :
    .pass E ∈ events ∨ ∃ n, Passes D n E := by
  fun_induction saturate keep stops D polls events with
  | case1 D polls events size hstop => exact .inl (by simpa [keep] using h)
  | case2 D polls events size hgo seen hnext =>
    have h : .pass E ∈ events ∨ E = D := by simpa [seen, keep] using h
    rcases h with hmem | rfl
    · exact .inl hmem
    · exact .inr ⟨0, .zero⟩
  | case3 D polls events size hgo seen r hnext seen' hr proof =>
    have h : .pass E ∈ events ∨ E = D := by simpa [seen', seen, keep] using h
    rcases h with hmem | rfl
    · exact .inl hmem
    · exact .inr ⟨0, .zero⟩
  | case4 D polls events hgo seen r hnext seen' hr ih =>
    rcases ih h with hmem | ⟨n, hpasses⟩
    · have hmem : .pass E ∈ events ∨ E = D := by simpa [seen', seen, keep] using hmem
      rcases hmem with hmem | rfl
      · exact .inl hmem
      · exact .inr ⟨0, .zero⟩
    · exact .inr ⟨n + 1, .cons hnext (by simpa using hr) hpasses⟩

theorem exists_passes_of_mem_refute {F : Formula} {E : Derivation}
    (h : .pass E ∈ (refute keep stops F []).seen) : ∃ n, Passes (.start F) n E := by
  unfold refute at h
  split at h
  · simp [keep] at h
  · exact (exists_passes_of_mem_saturate h).resolve_left List.not_mem_nil

end

/-- At every pass of a run, and where it ends, clauses and origins are in step. The resolvent of the
next inference is always new, so it is added at the end, and the steps that lead to it are found
without a look-up outside of the lists, and on no way back longer than the lists. -/
theorem refute_keeps_in_step (stops : Interrupts) (F : Formula) :
    (∀ D : Derivation, .pass D ∈ (refute keep stops F []).seen →
      D.GrownFrom F ∧ ∀ r, next? D.formula = some r →
        D.formula.contains r.step.resolvent = false ∧
        (D.formula.insert r.step.resolvent).clauses = D.formula.clauses ++ [r.step.resolvent] ∧
        reconstruct? D.formula D.origins r = some (D.proof r)) ∧
    ∃ D : Derivation, D.GrownFrom F ∧ (refute keep stops F []).formula = D.formula := by
  constructor
  · intro D hD
    obtain ⟨n, hpasses⟩ := exists_passes_of_mem_refute hD
    refine ⟨(Derivation.grownFrom_start F).of_passes hpasses, ?_⟩
    intro r hnext
    have hadm := admissible_of_next? hnext
    have hjustified := (Derivation.justified_start F).of_passes hpasses
    exact ⟨hadm.not_contains, Formula.clauses_insert_of_not_contains hadm.not_contains,
      hjustified.reconstruct?_eq hadm⟩
  · cases hF : F.isFalse with
    | true =>
      rw [refute_of_isFalse keep stops hF]
      exact ⟨.start F, Derivation.grownFrom_start F, rfl⟩
    | false =>
      obtain ⟨n, E, hruns⟩ := exists_runs_refute keep stops hF []
      exact ⟨E, (Derivation.grownFrom_start F).of_passes hruns.passes, hruns.formula_eq⟩

end Clausal.Resolution
