import Clausal.Formula.Assign
import Mathlib.Data.Set.Insert

/-!
# Formulas as families of sets

A clause is read as the set of its literals and a formula as the family of the sets of its
clauses. This forgets the order in which literals and clauses are listed, and nothing else: clauses
compare as the same exactly when their sets are equal, and formulas when their families are.
Resolution and the assignment of a literal are operations on these sets.

This module does NOT mention either engine.
-/

set_option autoImplicit false

namespace Clausal

namespace Clause

def toSet (c : Clause) : Set Literal := {l | l ∈ c}

@[simp] theorem mem_toSet {c : Clause} {l : Literal} : l ∈ c.toSet ↔ l ∈ c := Iff.rfl

theorem same_iff_toSet_eq (c d : Clause) : c.same d = true ↔ c.toSet = d.toSet :=
  same_iff.trans Set.ext_iff.symm

theorem toSet_resolve {c d : Clause} {pivot : Literal} :
    (c.resolve d pivot).toSet = (c.toSet \ {pivot}) ∪ (d.toSet \ {-pivot}) := by
  ext l
  simp [mem_resolve]

theorem toSet_erase {c : Clause} {l : Literal} : (c.erase l).toSet = c.toSet \ {l} := by
  ext m
  simp

theorem isEmpty_iff_toSet_eq {c : Clause} : c.isEmpty = true ↔ c.toSet = ∅ := by
  simp [isEmpty, mem_iff, Set.eq_empty_iff_forall_notMem, List.eq_nil_iff_forall_not_mem]

end Clause

namespace Formula

def family (F : Formula) : Set (Set Literal) := {s | ∃ c ∈ F.clauses, c.toSet = s}

variable {F G : Formula}

theorem toSet_mem_family {c : Clause} (h : c ∈ F.clauses) : c.toSet ∈ F.family := ⟨c, h, rfl⟩

theorem contains_iff_mem_family {c : Clause} : F.contains c = true ↔ c.toSet ∈ F.family := by
  simp only [contains_iff, Clause.same_iff_toSet_eq]
  rfl

theorem isFalse_iff_empty_mem_family : F.isFalse = true ↔ ∅ ∈ F.family := by
  simp only [isFalse, List.any_eq_true, Clause.isEmpty_iff_toSet_eq]
  rfl

/-- The sets that hold `l` are dropped, and its negation is taken out of the others. -/
theorem family_assign (F : Formula) (l : Literal) :
    (F.assign l).family = {s | ∃ t ∈ F.family, l ∉ t ∧ t \ {-l} = s} := by
  ext s
  have hsame : ∀ c d : Clause, c.same d = true → c.toSet ≠ s → d.toSet ≠ s := by
    intro c d hcd hc
    rwa [← (Clause.same_iff_toSet_eq c d).mp hcd]
  have hnone : (∀ d ∈ (F.assign l).clauses, d.toSet ≠ s) ↔
      ∀ c ∈ F.clauses, l ∉ c → (c.erase (-l)).toSet ≠ s := forall_mem_assign_iff hsame
  rw [← not_iff_not]
  simpa [family, Clause.toSet_erase] using hnone

theorem family_subset_of_clauses_eq {cs : List Clause} (h : G.clauses = F.clauses ++ cs) :
    F.family ⊆ G.family := by
  intro s hs
  obtain ⟨c, hc, rfl⟩ := hs
  exact toSet_mem_family (h ▸ List.mem_append_left cs hc)

open Classical in
theorem nodup_map_toSet (F : Formula) : (F.clauses.map Clause.toSet).Nodup :=
  ListSet.nodup_map_of_distinct Clause.same_iff_toSet_eq F.distinct

/-- No two places of a formula hold clauses of the same literals. -/
theorem toSet_ne_of_ne {i j : Nat} {c d : Clause} (hc : F.clauses[i]? = some c)
    (hd : F.clauses[j]? = some d) (hij : i ≠ j) : c.toSet ≠ d.toSet := by
  intro heq
  have hi : i < (F.clauses.map Clause.toSet).length := by
    simpa using (List.getElem?_eq_some_iff.mp hc).1
  apply hij
  apply (List.getElem?_inj hi F.nodup_map_toSet).mp
  simp [hc, hd, heq]

open Classical in
theorem same_iff_family_eq : F.same G = true ↔ F.family = G.family := by
  have hmem : ∀ H : Formula, ∀ s, s ∈ H.clauses.map Clause.toSet ↔ s ∈ H.family :=
    fun _ _ => List.mem_map
  have hsame : ∀ c d : Clause, (c.toSet == d.toSet) = c.same d := by
    intro c d
    rw [Bool.eq_iff_iff, beq_iff_eq, Clause.same_iff_toSet_eq]
  rw [same, ← ListSet.equal_map hsame,
    ListSet.equal_beq_iff F.nodup_map_toSet G.nodup_map_toSet, Set.ext_iff]
  simp only [hmem]

end Formula
end Clausal
