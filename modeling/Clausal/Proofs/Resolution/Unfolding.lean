import Clausal.Proofs.Resolution.Origins

/-!
# Proofs as unfolded derivations

A clause of a derivation may be a parent of several others, so a derivation is a graph. It unfolds
to trees: in the tree of a clause, each parent has a tree of its own, also if the same clause has
occurred before. Every clause has exactly one such tree, and its history lists the inferences of
this tree, those of the second parent first.

The clauses of a formula are different, so the place of a clause can be told from the clause, and
the uses of a clause can be counted in a list of steps without the places of parents.

The main statement: the proof that a run returns lists the inferences of the tree of its last step.
The step to a clause stands in it once for each use of the clause, and each time the whole history
of the clause is there.
-/

set_option autoImplicit false

namespace Clausal

namespace Formula

variable {F : Formula}

theorem nodup_clauses (F : Formula) : F.clauses.Nodup := by
  apply F.distinct.imp
  rintro c _ hne rfl
  simp [Clause.same_refl] at hne

theorem clause_eq_iff {n m : Nat} {c d : Clause} (hn : F.clauses[n]? = some c)
    (hm : F.clauses[m]? = some d) : c = d ↔ n = m := by
  constructor
  · rintro rfl
    have hlt := (List.getElem?_eq_some_iff.mp hn).1
    exact (List.getElem?_inj hlt F.nodup_clauses).mp (hn.trans hm.symm)
  · rintro rfl
    exact Option.some.inj (hn.symm.trans hm)

end Formula

namespace Resolution

/-- How a clause was derived, with a tree for each parent. -/
inductive ProofTree
  | given (clause : Clause)
  | derived (step : Step) (left right : ProofTree)

namespace ProofTree

/-- The number of inferences. -/
def size : ProofTree → Nat
  | .given _ => 0
  | .derived _ left right => left.size + right.size + 1

/-- The inferences, each behind those of its second and of its first parent. -/
def steps : ProofTree → List Step
  | .given _ => []
  | .derived s left right => right.steps ++ left.steps ++ [s]

theorem length_steps (t : ProofTree) : t.steps.length = t.size := by
  induction t with
  | given c => rfl
  | derived s left right ihl ihr =>
    rw [steps, size, List.length_append, List.length_append, ihl, ihr, List.length_singleton,
      Nat.add_comm right.size]

end ProofTree

/-- How often the steps have a clause as a parent. -/
def uses (c : Clause) (steps : List Step) : Nat :=
  steps.countP (·.left = c) + steps.countP (·.right = c)

theorem uses_append (c : Clause) (xs ys : List Step) :
    uses c (xs ++ ys) = uses c xs + uses c ys := by
  simp only [uses, List.countP_append]
  omega

theorem uses_singleton (c : Clause) (s : Step) :
    uses c [s] = (if s.left = c then 1 else 0) + if s.right = c then 1 else 0 := by
  simp [uses, List.countP_singleton]

namespace Derivation

/-- The derivation unfolds to the tree, from clause `n` on. -/
inductive Unfolds (D : Derivation) : Nat → ProofTree → Prop
  | given {n : Nat} {c : Clause} (ho : D.origins[n]? = some .given)
      (hc : D.formula.clauses[n]? = some c) : Unfolds D n (.given c)
  | derived {n i j : Nat} {s : Step} {left right : ProofTree}
      (ho : D.origins[n]? = some (.derived i j s)) (hl : Unfolds D i left)
      (hr : Unfolds D j right) : Unfolds D n (.derived s left right)

variable {F : Formula} {D : Derivation}

theorem Unfolds.unique {n : Nat} {t u : ProofTree} (h : D.Unfolds n t) (h' : D.Unfolds n u) :
    t = u := by
  induction h generalizing u with
  | given ho hc =>
    cases h' with
    | given _ hc' => rw [Option.some.inj (hc.symm.trans hc')]
    | derived ho' _ _ => cases ho.symm.trans ho'
  | derived ho _ _ ihl ihr =>
    cases h' with
    | given ho' _ => cases ho.symm.trans ho'
    | derived ho' hl hr =>
      cases ho.symm.trans ho'
      rw [ihl hl, ihr hr]

theorem Unfolds.steps_eq {n : Nat} {t : ProofTree} (h : D.Unfolds n t) : t.steps = D.history n := by
  induction h with
  | given ho _ =>
    rw [history_of_given ho]
    rfl
  | derived ho _ _ ihl ihr =>
    rw [history_of_derived ho, ProofTree.steps, ihl, ihr, List.append_assoc]

/-- The parents of a clause stand before it, so the induction is on its place. -/
theorem exists_unfolds {n : Nat} (hn : n < D.formula.size) : ∃ t, D.Unfolds n t := by
  obtain ⟨o, ho⟩ := exists_origin hn
  cases o with
  | given => exact ⟨_, .given ho (List.getElem?_eq_getElem hn)⟩
  | derived i j s =>
    obtain ⟨hi, hj⟩ := D.earlier n i j s ho
    obtain ⟨left, hl⟩ := exists_unfolds (Nat.lt_trans hi hn)
    obtain ⟨right, hr⟩ := exists_unfolds (Nat.lt_trans hj hn)
    exact ⟨_, .derived ho hl hr⟩
termination_by n

section
variable {m i j : Nat} {s : Step}

/-- Steps that derive different clauses are different. -/
theorem Justified.step_eq_iff (hD : D.Justified F) {n l r : Nat} {t : Step}
    (hn : D.origins[n]? = some (.derived l r t)) (hm : D.origins[m]? = some (.derived i j s)) :
    t = s ↔ n = m := by
  have hnt := (hD.derived n l r t hn).2.2.2
  have hms := (hD.derived m i j s hm).2.2.2
  constructor
  · rintro rfl
    exact (Formula.clause_eq_iff hnt hms).mp rfl
  · rintro rfl
    cases hn.symm.trans hm
    rfl

/-- A step behind the histories of its parents uses each parent once more. -/
theorem Justified.count_join (hD : D.Justified F) (hm : D.origins[m]? = some (.derived i j s))
    {l r : Nat} {t : Step} (hleft : D.formula.clauses[l]? = some t.left)
    (hright : D.formula.clauses[r]? = some t.right)
    (hl : (D.history l).count s = uses s.resolvent (D.history l) + if l = m then 1 else 0)
    (hr : (D.history r).count s = uses s.resolvent (D.history r) + if r = m then 1 else 0) :
    (D.history r ++ (D.history l ++ [t])).count s =
      uses s.resolvent (D.history r ++ (D.history l ++ [t])) + if t = s then 1 else 0 := by
  have hms := (hD.derived m i j s hm).2.2.2
  simp only [List.count_append, uses_append, uses_singleton, List.count_singleton, beq_iff_eq,
    Formula.clause_eq_iff hleft hms, Formula.clause_eq_iff hright hms, hl, hr]
  omega

/-- In the history of a clause, a step to another one stands once for each use of it. -/
theorem Justified.count_history (hD : D.Justified F) (hm : D.origins[m]? = some (.derived i j s))
    {n : Nat} (hn : n < D.formula.size) :
    (D.history n).count s = uses s.resolvent (D.history n) + if n = m then 1 else 0 := by
  obtain ⟨o, ho⟩ := exists_origin hn
  cases o with
  | given =>
    have hne : n ≠ m := by
      rintro rfl
      cases ho.symm.trans hm
    rw [history_of_given ho, if_neg hne]
    rfl
  | derived l r t =>
    obtain ⟨hl, hr⟩ := D.earlier n l r t ho
    obtain ⟨_, hleft, hright, _⟩ := hD.derived n l r t ho
    rw [history_of_derived ho]
    have hjoin := hD.count_join hm hleft hright (hD.count_history hm (Nat.lt_trans hl hn))
      (hD.count_history hm (Nat.lt_trans hr hn))
    simpa only [hD.step_eq_iff ho hm] using hjoin
termination_by n

/-- Wherever the step stands among the steps, the history of clause `m` ends there. -/
def Follows (D : Derivation) (m : Nat) (s : Step) (steps : List Step) : Prop :=
  ∀ pre post, steps = pre ++ s :: post → D.history m <:+ pre ++ [s]

theorem Follows.join {xs ys : List Step} {t : Step} (hys : D.Follows m s ys)
    (hxs : D.Follows m s xs) (ht : t = s → D.history m <:+ ys ++ (xs ++ [t])) :
    D.Follows m s (ys ++ (xs ++ [t])) := by
  intro pre post h
  rcases append_append_singleton_eq h with ⟨mid, hmid, _⟩ | ⟨mid, rest, rfl, hmid, _⟩ | hlast
  · exact hys pre mid hmid
  · have hsuffix := hxs mid rest hmid
    rw [List.append_assoc]
    exact hsuffix.trans (List.suffix_append _ _)
  · obtain ⟨rfl, rfl, rfl⟩ := hlast
    rw [List.append_assoc]
    exact ht rfl

theorem Justified.follows_history (hD : D.Justified F)
    (hm : D.origins[m]? = some (.derived i j s)) (n : Nat) : D.Follows m s (D.history n) := by
  cases ho : D.origins[n]? with
  | none => simp [history_of_not_derived, ho, Follows]
  | some o =>
    cases o with
    | given => simp [history_of_not_derived, ho, Follows]
    | derived l r t =>
      have hearlier := D.earlier n l r t ho
      have hsuffix : t = s → D.history m <:+ D.history r ++ (D.history l ++ [t]) := by
        intro ht
        obtain rfl := (hD.step_eq_iff ho hm).mp ht
        exact ⟨[], history_of_derived ho⟩
      rw [history_of_derived ho]
      exact (hD.follows_history hm r).join (hD.follows_history hm l) hsuffix
termination_by n

end

/-- The proof is the derivation of its last step unfolded: it ends with this step, behind the
histories of its parents, and has the size of the tree. A step to a clause of the derivation stands
in it once for each use of this clause, and each time with its history. -/
structure IsUnfolding (D : Derivation) (last : Inference) (proof : List Step) : Prop where
  given : ∀ n : Nat, D.origins[n]? = some .given → D.history n = []
  derived : ∀ (n left right : Nat) (s : Step), D.origins[n]? = some (.derived left right s) →
    D.history n = D.history right ++ D.history left ++ [s]
  proof_eq : proof = D.history last.right ++ D.history last.left ++ [last.step]
  tree : ∀ n < D.formula.size, ∃! t, D.Unfolds n t
  length_eq : ∀ left right, D.Unfolds last.left left → D.Unfolds last.right right →
    proof.length = (ProofTree.derived last.step left right).size
  count_eq : ∀ (n left right : Nat) (s : Step), D.origins[n]? = some (.derived left right s) →
    proof.count s = uses s.resolvent proof
  follows : ∀ (n left right : Nat) (s : Step), D.origins[n]? = some (.derived left right s) →
    D.Follows n s proof

section
variable {last : Inference}

/-- The resolvent of an admissible inference is new. -/
theorem Justified.step_ne (hD : D.Justified F) (h : last.Admissible D.formula) {n left right : Nat}
    {s : Step} (hn : D.origins[n]? = some (.derived left right s)) : last.step ≠ s := by
  rintro rfl
  have hmem := List.mem_of_getElem? (hD.derived n left right _ hn).2.2.2
  have hcontains := Formula.contains_iff.mpr ⟨_, hmem, Clause.same_refl _⟩
  simp [h.not_contains] at hcontains

theorem Justified.isUnfolding_proof (hD : D.Justified F) (h : last.Admissible D.formula) :
    D.IsUnfolding last (D.proof last) where
  given := by
    intro n ho
    exact history_of_given ho
  derived := by
    intro n left right s ho
    rw [history_of_derived ho, List.append_assoc]
  proof_eq := by
    rw [D.proof_eq, List.append_assoc]
  tree := by
    intro n hn
    obtain ⟨t, ht⟩ := exists_unfolds hn
    exact ⟨t, ht, fun u hu => hu.unique ht⟩
  length_eq := by
    intro left right hl hr
    rw [D.proof_eq, ← hl.steps_eq, ← hr.steps_eq, ← List.append_assoc]
    exact (ProofTree.derived last.step left right).length_steps
  count_eq := by
    intro n left right s hn
    have hjoin := hD.count_join hn h.left_eq h.right_eq (hD.count_history hn h.left_lt)
      (hD.count_history hn h.right_lt)
    rwa [← D.proof_eq, if_neg (hD.step_ne h hn)] at hjoin
  follows := by
    intro n left right s hn
    rw [D.proof_eq]
    apply (hD.follows_history hn last.right).join (hD.follows_history hn last.left)
    intro hlast
    exact absurd hlast (hD.step_ne h hn)

end
end Derivation

section
variable {stops : Interrupts} {proof : List Step}

/-- A run that refutes does so in its last pass. -/
theorem exists_last_of_saturate {D : Derivation} {polls : Nat} {events : List Event}
    (h : (saturate keep stops D polls events).outcome = .finished (.refuted proof)) :
    ∃ E last, .pass E ∈ (saturate keep stops D polls events).seen ∧
      next? E.formula = some last ∧ last.step.resolvent.isEmpty = true ∧ proof = E.proof last := by
  fun_induction saturate keep stops D polls events with
  | case1 D polls events size hstop => cases h
  | case2 D polls events size hgo seen hnext => cases h
  | case3 D polls events size hgo seen r hnext seen' hr proof' =>
    have hproof : D.proof r = proof := Verdict.refuted.inj (Outcome.finished.inj h)
    exact ⟨D, r, by simp [seen', seen, keep], hnext, hr, hproof.symm⟩
  | case4 D polls events hgo seen r hnext seen' hr ih => exact ih h

theorem exists_last_of_refute {F : Formula} (hF : F.isFalse = false)
    (h : (refute keep stops F []).outcome = .finished (.refuted proof)) :
    ∃ E last, .pass E ∈ (refute keep stops F []).seen ∧ next? E.formula = some last ∧
      last.step.resolvent.isEmpty = true ∧ proof = E.proof last := by
  unfold refute at h ⊢
  rw [if_neg (by simp [hF])] at h ⊢
  exact exists_last_of_saturate h

end

/-- The proof that a run returns is its derivation of the empty clause, unfolded, and it is what is
found by looking up the steps. -/
theorem proof_unfolds_derivation {σ : Type} {observe : Event → σ → σ} {stops : Interrupts}
    {F : Formula} {init : σ} {proof : List Step}
    (h : (refute observe stops F init).outcome = .finished (.refuted proof))
    (hF : F.isFalse = false) :
    ∃ D last, .pass D ∈ (refute keep stops F []).seen ∧ next? D.formula = some last ∧
      last.step.resolvent.isEmpty = true ∧
      reconstruct? D.formula D.origins last = some proof ∧ D.IsUnfolding last proof := by
  rw [refute_eq_keep] at h
  obtain ⟨D, last, hmem, hnext, hempty, rfl⟩ := exists_last_of_refute hF h
  obtain ⟨n, hpasses⟩ := exists_passes_of_mem_refute hmem
  have hjustified := (Derivation.justified_start F).of_passes hpasses
  have hadm := admissible_of_next? hnext
  exact ⟨D, last, hmem, hnext, hempty, hjustified.reconstruct?_eq hadm,
    hjustified.isUnfolding_proof hadm⟩

/-- Both parents of the last step are derived, so the tree has three inferences. -/
theorem proof_unfolds_fourCorners :
    ∃ (D : Derivation) (last : Inference) (proof : List Step) (left right : ProofTree),
      reconstruct? D.formula D.origins last = some proof ∧ D.IsUnfolding last proof ∧
      D.Unfolds last.left left ∧ D.Unfolds last.right right ∧ left.size + right.size + 1 = 3 := by
  obtain ⟨D, last, _, hnext, _, hlookup, hunfolding⟩ :=
    proof_unfolds_derivation refute_fourCorners (by decide)
  have hadm := admissible_of_next? hnext
  obtain ⟨left, hl, _⟩ := hunfolding.tree _ hadm.left_lt
  obtain ⟨right, hr, _⟩ := hunfolding.tree _ hadm.right_lt
  exact ⟨D, last, _, left, right, hlookup, hunfolding, hl, hr,
    (hunfolding.length_eq left right hl hr).symm⟩

end Resolution
end Clausal
