import Clausal.Proofs.Assignment
import Mathlib.Data.List.Nodup

/-!
# Completions

A completion of a formula is a list of literals that, assigned one after the other, leave no
clause, where each is over a variable that the formula still mentions and none is assigned once
no clause is left. Every allocation that a search finds below some literals consists of these
literals and a completion of the formula that they leave.

The main statement: a completion is a consistent allocation that satisfies the formula, and no
beginning of it does.

This module does NOT say which completions a search finds.
-/

set_option autoImplicit false

namespace Clausal.Search

inductive Completes : Formula → List Literal → Prop
  | done {F : Formula} (h : F.isTrue = true) : Completes F []
  | assign {F : Formula} {l : Literal} {ls : List Literal} (h : F.isTrue = false)
      (hl : l.var ∈ F.vars) (hls : Completes (F.assign l) ls) : Completes F (l :: ls)

/-- Literals that satisfy what `l` leaves of `F` satisfy `F` together with `l`. -/
theorem satisfies_of_assign {F : Formula} {l : Literal} {ls : List Literal}
    (h : Allocation.satisfies ⟨ls⟩ (F.assign l) = true) :
    Allocation.satisfies ⟨l :: ls⟩ F = true := by
  have hsame : ∀ c d : Clause, c.same d = true → (∃ m ∈ c, m ∈ ls) → ∃ m ∈ d, m ∈ ls := by
    intro c d hcd hc
    obtain ⟨m, hm, hls⟩ := hc
    exact ⟨m, (Clause.same_iff.mp hcd m).mp hm, hls⟩
  have hall := (Formula.forall_mem_assign_iff hsame).mp (Allocation.satisfies_iff.mp h)
  apply Allocation.satisfies_iff.mpr
  intro c hc
  by_cases hl : l ∈ c
  · exact ⟨l, hl, List.mem_cons_self⟩
  · obtain ⟨m, hm, hls⟩ := hall c hc hl
    exact ⟨m, (Clause.mem_erase.mp hm).1, List.mem_cons_of_mem l hls⟩

/-- Conversely, where the negation of `l` plays no part, what satisfies `F` together with `l`
satisfies what `l` leaves. -/
theorem satisfies_assign {F : Formula} {l : Literal} {ls : List Literal} (hneg : -l ∉ ls)
    (h : Allocation.satisfies ⟨l :: ls⟩ F = true) :
    Allocation.satisfies ⟨ls⟩ (F.assign l) = true := by
  apply Allocation.satisfies_iff.mpr
  intro d hd
  obtain ⟨c, hc, hl, rfl⟩ := Formula.exists_of_mem_assign hd
  obtain ⟨m, hm, hmem⟩ := Allocation.satisfies_iff.mp h c hc
  have hmls : m ∈ ls := by
    rcases List.mem_cons.mp hmem with rfl | hmls
    · exact absurd hm hl
    · exact hmls
  have hne : m ≠ -l := by
    intro heq
    exact hneg (heq ▸ hmls)
  exact ⟨m, Clause.mem_erase.mpr ⟨hm, hne⟩, hmls⟩

theorem not_satisfies_nil {F : Formula} (h : F.isTrue = false) :
    Allocation.satisfies ⟨[]⟩ F = false := by
  obtain ⟨c, cs, hc⟩ := List.exists_cons_of_ne_nil fun hnil : F.clauses = [] => by
    simp [Formula.isTrue, hnil] at h
  rw [← Bool.not_eq_true, Allocation.satisfies_iff]
  intro hsat
  obtain ⟨l, _, hl⟩ := hsat c (by simp [hc])
  simp at hl

theorem consistent_of_nodup_vars {ls : List Literal} (h : (ls.map Literal.var).Nodup) :
    Allocation.Consistent ⟨ls⟩ where
  nodup := List.Nodup.of_map _ h
  neg_not_mem := by
    intro l hl hneg
    exact Literal.neg_ne l (List.inj_on_of_nodup_map h hneg hl (Literal.var_neg l))

namespace Completes

variable {F : Formula} {ls : List Literal}

theorem var_mem (h : Completes F ls) : ∀ l ∈ ls, l.var ∈ F.vars := by
  induction h with
  | done => simp
  | assign _ hl _ ih =>
    intro m hm
    rcases List.mem_cons.mp hm with rfl | hm
    · exact hl
    · exact (Formula.mem_vars_assign (ih m hm)).1

theorem nodup_vars (h : Completes F ls) : (ls.map Literal.var).Nodup := by
  induction h with
  | done => simp
  | @assign F l ls _ _ hls ih =>
    rw [List.map_cons, List.nodup_cons]
    refine ⟨?_, ih⟩
    -- the variable of `l` is gone from what is left
    intro hmem
    obtain ⟨m, hm, hvar⟩ := List.mem_map.mp hmem
    exact (Formula.mem_vars_assign (hls.var_mem m hm)).2 hvar

theorem length_le (h : Completes F ls) : ls.length ≤ F.vars.length := by
  have hsub : ls.map Literal.var ⊆ F.vars := by
    intro x hx
    obtain ⟨l, hl, rfl⟩ := List.mem_map.mp hx
    exact h.var_mem l hl
  simpa using h.nodup_vars.length_le_of_subset hsub

theorem consistent (h : Completes F ls) : Allocation.Consistent ⟨ls⟩ :=
  consistent_of_nodup_vars h.nodup_vars

theorem satisfies (h : Completes F ls) : Allocation.satisfies ⟨ls⟩ F = true := by
  induction h with
  | done h => simp [Allocation.satisfies, List.isEmpty_iff.mp h]
  | assign _ _ _ ih => exact satisfies_of_assign ih

/-- Each literal of a completion is assigned while there still are clauses. -/
theorem not_satisfies_of_prefix (h : Completes F ls) {pre : List Literal} (hpre : pre <+: ls)
    (hne : pre ≠ ls) : Allocation.satisfies ⟨pre⟩ F = false := by
  induction h generalizing pre with
  | done => exact absurd (List.prefix_nil.mp hpre) hne
  | @assign F l ls hF _ hls ih =>
    cases pre with
    | nil => exact not_satisfies_nil hF
    | cons m pre =>
      obtain ⟨rfl, hrest⟩ := List.cons_prefix_cons.mp hpre
      -- the literals that follow are over other variables
      have hneg : -m ∉ pre := by
        intro hmem
        exact (Formula.mem_vars_assign (hls.var_mem _ (hrest.subset hmem))).2 (Literal.var_neg m)
      have hfalse := ih hrest fun heq => hne (congrArg (m :: ·) heq)
      rw [← Bool.not_eq_true] at hfalse ⊢
      exact fun hsat => hfalse (satisfies_assign hneg hsat)

theorem exists_model (h : Completes F ls) : ∃ v, F.holds v := by
  obtain ⟨v, hv⟩ := h.consistent.exists_holds
  exact ⟨v, Allocation.holds_of_satisfies h.satisfies hv⟩

end Completes
end Clausal.Search
