import Clausal.Formula

/-!
# Assigning a literal

`F.assign l` is `F` with `l` taken for true: the clauses that hold `l` are satisfied and dropped,
its negation is erased from the others, and of clauses that become equal the first is kept.
The variable of `l` is gone from the result, which is what makes the search end.

`assignedChars` shows the step before it is carried out, with the constants in place of the
literals, as in `{{true, b}, {false, c}}`.
-/

set_option autoImplicit false

namespace Clausal.Formula

def assign (F : Formula) (l : Literal) : Formula :=
  ofList ((F.clauses.filter fun c => l ∉ c).map fun c => c.erase (-l))

def assignedChars (F : Formula) (l : Literal) : List Char :=
  Text.braced (F.clauses.map fun c => Text.braced (c.literals.map fun m =>
    if m = l then "true".toList else if m = -l then "false".toList else m.chars))

def renderAssigned (F : Formula) (l : Literal) : String := String.ofList (F.assignedChars l)

theorem exists_of_mem_assign {F : Formula} {l : Literal} {d : Clause}
    (h : d ∈ (F.assign l).clauses) : ∃ c ∈ F.clauses, l ∉ c ∧ d = c.erase (-l) := by
  obtain ⟨c, hc, rfl⟩ := List.mem_map.mp (ListSet.mem_of_mem_ofList h)
  rw [List.mem_filter] at hc
  exact ⟨c, hc.1, by simpa using hc.2, rfl⟩

/-- What is said of a clause by its set of literals holds of the whole result once it holds of each
clause that is not dropped. -/
theorem forall_mem_assign_iff {F : Formula} {l : Literal} {P : Clause → Prop}
    (hP : ∀ c d, c.same d = true → P c → P d) :
    (∀ d ∈ (F.assign l).clauses, P d) ↔ ∀ c ∈ F.clauses, l ∉ c → P (c.erase (-l)) := by
  apply (ListSet.forall_mem_ofList_iff hP).trans
  simp only [List.forall_mem_map, List.mem_filter, decide_eq_true_eq, and_imp]

theorem mem_vars_assign {F : Formula} {l : Literal} {x : Char} (h : x ∈ (F.assign l).vars) :
    x ∈ F.vars ∧ x ≠ l.var := by
  obtain ⟨m, hm, rfl⟩ := mem_vars.mp h
  obtain ⟨d, hd, hmd⟩ := mem_literals.mp hm
  obtain ⟨c, hc, hl, rfl⟩ := exists_of_mem_assign hd
  obtain ⟨hmc, hne⟩ := Clause.mem_erase.mp hmd
  refine ⟨var_mem_vars hc hmc, fun hv => ?_⟩
  rcases Literal.eq_or_eq_neg hv with rfl | rfl
  · exact hl hmc
  · exact hne rfl

theorem vars_assign_lt {F : Formula} {l : Literal} (h : l.var ∈ F.vars) :
    (F.assign l).vars.length < F.vars.length := by
  have hnot : l.var ∉ (F.assign l).vars := fun hl => (mem_vars_assign hl).2 rfl
  have hnodup : (l.var :: (F.assign l).vars).Nodup :=
    List.nodup_cons.mpr ⟨hnot, nodup_vars _⟩
  have hsub : l.var :: (F.assign l).vars ⊆ F.vars := by
    intro x hx
    rcases List.mem_cons.mp hx with rfl | hx
    · exact h
    · exact (mem_vars_assign hx).1
  exact Nat.lt_of_succ_le (hnodup.length_le_of_subset hsub)

end Clausal.Formula
