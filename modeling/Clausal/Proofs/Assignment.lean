import Clausal.Allocation
import Clausal.Formula.Assign

/-!
# Truth under an assignment

A total assignment gives a truth value to every character, so it decides every literal. A clause
holds when one of its literals does, and a formula when all of its clauses do; its models are the
assignments under which it holds. An allocation is partial: it stands for all the assignments
that make each of its literals true.

The main statements: taking a true literal for true in a formula keeps its truth value, and an
allocation that satisfies a formula in the sense of having a literal in each clause stands for
models only.

This module does NOT mention either engine.
-/

set_option autoImplicit false

namespace Clausal

abbrev Assignment := Char → Bool

variable {v : Assignment}

namespace Literal

def holds (v : Assignment) (l : Literal) : Prop := v l.var = l.positive

instance (v : Assignment) (l : Literal) : Decidable (l.holds v) :=
  inferInstanceAs (Decidable (v l.var = l.positive))

@[simp] theorem holds_neg {l : Literal} : (-l).holds v ↔ ¬ l.holds v := by
  unfold holds
  rw [var_neg, positive_neg]
  cases v l.var <;> cases l.positive <;> simp

theorem exists_forall_holds {ls : List Literal} (h : ∀ l ∈ ls, -l ∉ ls) :
    ∃ v, ∀ l ∈ ls, l.holds v := by
  refine ⟨fun x => decide (pos x ∈ ls), ?_⟩
  intro l hl
  obtain ⟨x, p⟩ := l
  cases p with
  | true => exact decide_eq_true hl
  | false => exact decide_eq_false (h _ hl)

end Literal

namespace Clause

def holds (v : Assignment) (c : Clause) : Prop := ∃ l ∈ c, l.holds v

theorem holds_of_same {c d : Clause} (h : c.same d = true) (hc : c.holds v) : d.holds v := by
  obtain ⟨l, hl, hv⟩ := hc
  exact ⟨l, (same_iff.mp h l).mp hl, hv⟩

theorem isEmpty_iff {c : Clause} : c.isEmpty = true ↔ ∀ l, l ∉ c := by
  simp [isEmpty, mem_iff, List.eq_nil_iff_forall_not_mem]

theorem not_holds_of_isEmpty {c : Clause} (h : c.isEmpty = true) : ¬ c.holds v := by
  intro hc
  obtain ⟨l, hl, _⟩ := hc
  exact isEmpty_iff.mp h l hl

theorem holds_erase {c : Clause} {l : Literal} (h : ¬ l.holds v) :
    (c.erase l).holds v ↔ c.holds v := by
  constructor
  · intro hc
    obtain ⟨m, hm, hv⟩ := hc
    exact ⟨m, (mem_erase.mp hm).1, hv⟩
  · intro hc
    obtain ⟨m, hm, hv⟩ := hc
    have hne : m ≠ l := by
      intro heq
      exact h (heq ▸ hv)
    exact ⟨m, mem_erase.mpr ⟨hm, hne⟩, hv⟩

theorem holds_of_unit? {c : Clause} {l : Literal} (h : c.unit? = some l) (hc : c.holds v) :
    l.holds v := by
  obtain ⟨m, hm, hv⟩ := hc
  unfold unit? at h
  split at h
  · next k hk =>
    obtain rfl : k = l := by simpa using h
    rw [mem_iff, hk, List.mem_singleton] at hm
    exact hm ▸ hv
  · simp at h

end Clause

namespace Formula

def holds (v : Assignment) (F : Formula) : Prop := ∀ c ∈ F.clauses, c.holds v

theorem holds_insert {F : Formula} {c : Clause} :
    (F.insert c).holds v ↔ F.holds v ∧ c.holds v :=
  ListSet.forall_mem_insert_iff (P := Clause.holds v) fun _ _ => Clause.holds_of_same

theorem not_holds_of_isFalse {F : Formula} (h : F.isFalse = true) : ¬ F.holds v := by
  obtain ⟨c, hc, hempty⟩ := List.any_eq_true.mp h
  exact fun hF => Clause.not_holds_of_isEmpty hempty (hF c hc)

theorem holds_assign {F : Formula} {l : Literal} (h : l.holds v) :
    (F.assign l).holds v ↔ F.holds v := by
  have hneg : ¬ (-l).holds v := by simpa using h
  apply (forall_mem_assign_iff (P := Clause.holds v) fun _ _ => Clause.holds_of_same).trans
  constructor
  · intro hF c hc
    by_cases hl : l ∈ c
    · exact ⟨l, hl, h⟩
    · exact (Clause.holds_erase hneg).mp (hF c hc hl)
  · intro hF c hc _
    exact (Clause.holds_erase hneg).mpr (hF c hc)

end Formula

namespace Allocation

/-- The assignment is one of those that the allocation stands for. -/
def holds (v : Assignment) (a : Allocation) : Prop := ∀ l ∈ a.literals, l.holds v

/-- The literals form a set, and none is the negation of another. -/
structure Consistent (a : Allocation) : Prop where
  nodup : a.literals.Nodup
  neg_not_mem : ∀ l ∈ a.literals, -l ∉ a.literals

theorem Consistent.exists_holds {a : Allocation} (h : a.Consistent) : ∃ v, a.holds v :=
  Literal.exists_forall_holds h.neg_not_mem

theorem satisfies_iff {a : Allocation} {F : Formula} :
    a.satisfies F = true ↔ ∀ c ∈ F.clauses, ∃ l ∈ c, l ∈ a.literals := by
  simp [satisfies, contains, Clause.mem_iff]

theorem holds_of_satisfies {a : Allocation} {F : Formula} (h : a.satisfies F = true)
    (hv : a.holds v) : F.holds v := by
  intro c hc
  obtain ⟨l, hl, ha⟩ := satisfies_iff.mp h c hc
  exact ⟨l, hl, hv l ha⟩

end Allocation
end Clausal
