import Clausal.Proofs.Families
import Clausal.Proofs.Resolution.Growth
import Mathlib.Algebra.Group.Nat.Defs

/-!
# How long resolution can go on

Over `n` variables there are `3 ^ n` sets of literals that hold no variable with both signs, and
one of them is empty. Every clause that is inserted takes another one of these sets, and not the
empty one. So resolution inserts fewer than `3 ^ n` clauses, whatever the formula was like, and
ends: between two insertions there is one poll.

The bound is on what any number of passes can insert. It does not rest on the measure that makes
the run a total function.
-/

set_option autoImplicit false

namespace Clausal.Resolution

theorem length_space (xs : List Char) : (space xs).length = 3 ^ xs.length := by
  induction xs with
  | nil => rfl
  | cons x xs ih => simp [space, List.length_flatMap, ih, Nat.pow_succ]

open Classical in
/-- Clauses without both signs of a variable that differ as sets fill different places. -/
theorem length_le_of_different {xs : List Char} {cs : List Clause}
    (htaut : ∀ c ∈ cs, c.isTautology = false) (hvars : ∀ c ∈ cs, ∀ l ∈ c, l.var ∈ xs)
    (hdifferent : cs.Pairwise fun c d => ¬ ∀ l, l ∈ c ↔ l ∈ d) : cs.length ≤ 3 ^ xs.length := by
  have hnodup : (cs.map Clause.toSet).Nodup := by
    apply List.pairwise_map.mpr
    apply hdifferent.imp
    intro c d hcd heq
    exact hcd (Set.ext_iff.mp heq)
  have hsub : cs.map Clause.toSet ⊆ (space xs).map fun ls => (Clause.ofList ls).toSet := by
    intro s hs
    obtain ⟨c, hc, rfl⟩ := List.mem_map.mp hs
    obtain ⟨ls, hls, hsame⟩ := exists_same_of_not_tautology (htaut c hc) (hvars c hc)
    exact List.mem_map.mpr ⟨ls, hls, ((Clause.same_iff_toSet_eq c _).mp hsame).symm⟩
  have hle := hnodup.length_le_of_subset hsub
  rwa [List.length_map, List.length_map, length_space] at hle

section
variable {F G : Formula} {cs : List Clause}

/-- The empty clause is one more that none of those that were added is the same as. -/
theorem Extension.length_lt (h : Extension F cs G) : cs.length < 3 ^ F.vars.length := by
  have hnil : ∀ l, l ∉ Clause.ofList [] := by simp
  have hle : (Clause.ofList [] :: cs).length ≤ 3 ^ F.vars.length := by
    apply length_le_of_different
    · exact List.forall_mem_cons.mpr ⟨by decide, h.not_tautology⟩
    · exact List.forall_mem_cons.mpr ⟨fun l hl => absurd hl (hnil l), h.var_mem⟩
    · refine List.pairwise_cons.mpr ⟨fun c hc heq => ?_, h.different⟩
      have hempty : c.isEmpty = true := by
        apply List.isEmpty_iff.mpr
        apply List.eq_nil_iff_forall_not_mem.mpr
        exact fun l hl => hnil l ((heq l).mpr hl)
      simp [h.not_empty c hc] at hempty
  exact Nat.lt_of_succ_le hle

theorem Inserts.length_le (h : Inserts F cs G) : cs.length ≤ 3 ^ F.vars.length - 1 :=
  Nat.le_sub_one_of_lt h.extension.length_lt

end

/-- Resolution ends: over `n` variables it inserts no more than `3 ^ n - 1` clauses, and a run
polls no more than `3 ^ n` times. Unless the formula holds the empty clause, the run polls once
before each clause that it inserts and once at its end. -/
theorem refute_bounded {σ : Type} (observe : Event → σ → σ) (stops : Interrupts) (F : Formula)
    (init : σ) :
    (∀ cs G, Inserts F cs G → cs.length ≤ 3 ^ F.vars.length - 1) ∧
    ∃ added r, refute observe stops F init = r ∧ r.formula.clauses = F.clauses ++ added ∧
      added.length ≤ 3 ^ F.vars.length - 1 ∧ r.polls ≤ 3 ^ F.vars.length ∧
      ((∃ verdict, r.outcome = .finished verdict) ∨
        r.outcome = .aborted ∧ ∃ i < 3 ^ F.vars.length, stops i = true) ∧
      (F.isFalse = false → r.polls = added.length + 1) := by
  refine ⟨fun cs G h => h.length_le, ?_⟩
  cases hF : F.isFalse with
  | true =>
    refine ⟨[], _, refute_of_isFalse observe stops hF init, by simp, Nat.zero_le _, Nat.zero_le _,
      .inl ⟨_, rfl⟩, fun h => by cases h⟩
  | false =>
    obtain ⟨added, h⟩ := exists_course observe stops init hF
    have hlt := h.inserts.extension.length_lt
    refine ⟨added, _, rfl, h.inserts.clauses_eq, h.inserts.length_le, ?_, ?_, fun _ => h.polls_eq⟩
    · rw [h.polls_eq]
      exact hlt
    · rcases h.aborted_or_settled with ⟨haborted, hstop⟩ | ⟨verdict, hfinished, _⟩
      · exact .inr ⟨haborted, added.length, hlt, hstop⟩
      · exact .inl ⟨verdict, hfinished⟩

end Clausal.Resolution
