import Clausal.Formula.Parser
import Clausal.Proofs.Families
import Clausal.Proofs.Search.Interruption
import Clausal.Resolution.Refute

/-!
# Values that stand for sets

The comparisons of clauses, formulas and allocations test for equal length and for one inclusion
only. On lists with repetitions such a test need not even be symmetric. But no clause repeats a
literal, no formula repeats a clause up to the order of its literals, and no search returns an
allocation that repeats a literal, whatever they were built with; so the comparisons tell which
values stand for the same set.

`Formula.Built` lists the ways to come by a formula, both engines included.
-/

set_option autoImplicit false

namespace Clausal

section
variable {α β : Type}

/-- The comparison tells which of the values with `P` stand for the same thing. -/
structure Decides (P : α → Prop) (same : α → α → Bool) (image : α → β) : Prop where
  iff_eq : ∀ x y, P x → P y → (same x y = true ↔ image x = image y)
  symm : ∀ x y, P x → P y → same x y = true → same y x = true
  trans : ∀ x y z, P x → P y → P z → same x y = true → same y z = true → same x z = true

theorem Decides.of_iff {P : α → Prop} {same : α → α → Bool} {image : α → β}
    (h : ∀ x y, P x → P y → (same x y = true ↔ image x = image y)) : Decides P same image where
  iff_eq := h
  symm x y hx hy hxy := (h y x hy hx).mpr ((h x y hx hy).mp hxy).symm
  trans x y z hx hy hz hxy hyz :=
    (h x z hx hz).mpr (((h x y hx hy).mp hxy).trans ((h y z hy hz).mp hyz))

end

theorem Clause.exists_literals_ofList_iff {ls : List Literal} :
    (∃ ms, (Clause.ofList ms).literals = ls) ↔ ls.Nodup := by
  constructor
  · rintro ⟨ms, rfl⟩
    exact (Clause.ofList ms).nodup
  · intro h
    exact ⟨ls, ListSet.ofList_of_distinct (ListSet.distinct_of_nodup h)⟩

/-- The literals of each clause, as they are listed. -/
def Formula.rows (F : Formula) : List (List Literal) := F.clauses.map Clause.literals

/-- No row repeats a literal, and no two rows hold the same literals. -/
structure Reduced (rows : List (List Literal)) : Prop where
  nodup : ∀ row ∈ rows, row.Nodup
  different : rows.Pairwise fun r s => ¬ ∀ l, l ∈ r ↔ l ∈ s

/-- How a formula can be come by: from clauses given by their literals, by adding a clause, from a
text, by assigning a literal, and by resolution, wherever it ends. -/
inductive Formula.Built : Formula → Prop
  | ofList (rows : List (List Literal)) : Built (.ofList (rows.map .ofList))
  | insert {F : Formula} (h : Built F) (row : List Literal) : Built (F.insert (.ofList row))
  | parsed {text : String} {F : Formula} (h : Formula.parse text = .ok F) : Built F
  | assigned {F : Formula} (h : Built F) (l : Literal) : Built (F.assign l)
  | refuted {F : Formula} (h : Built F) {σ : Type} (observe : Resolution.Event → σ → σ)
      (stops : Interrupts) (init : σ) : Built (Resolution.refute observe stops F init).formula

theorem Formula.reduced_rows (F : Formula) : Reduced F.rows where
  nodup := by
    intro row hrow
    obtain ⟨c, _, rfl⟩ := List.mem_map.mp hrow
    exact c.nodup
  different := by
    apply List.pairwise_map.mpr
    apply F.distinct.imp
    intro c d hcd heq
    simp [Clause.same_iff.mpr heq] at hcd

theorem Reduced.rows_ofList {rows : List (List Literal)} (h : Reduced rows) :
    (Formula.ofList (rows.map .ofList)).rows = rows := by
  have hdistinct : ListSet.Distinct Clause.same (rows.map .ofList) := by
    apply List.pairwise_map.mpr
    apply h.different.imp
    intro r s hrs
    rw [← Bool.not_eq_true, Clause.same_iff]
    simpa using hrs
  have hclauses : (Formula.ofList (rows.map .ofList)).clauses = rows.map .ofList :=
    ListSet.ofList_of_distinct hdistinct
  have hrow : ∀ row ∈ rows, (Clause.literals ∘ Clause.ofList) row = id row := fun row hrow =>
    ListSet.ofList_of_distinct (ListSet.distinct_of_nodup (h.nodup row hrow))
  rw [Formula.rows, hclauses, List.map_map, List.map_congr_left hrow, List.map_id]

theorem Formula.exists_built_iff {rows : List (List Literal)} :
    (∃ F, Formula.Built F ∧ F.rows = rows) ↔ Reduced rows := by
  constructor
  · rintro ⟨F, _, rfl⟩
    exact F.reduced_rows
  · intro h
    exact ⟨_, .ofList rows, h.rows_ofList⟩

/-- Models can be told from the family, since they can be told from each set of literals. -/
theorem Formula.holds_congr {F G : Formula} (h : F.family = G.family) (v : Assignment) :
    F.holds v ↔ G.holds v := by
  have hfamily : ∀ H : Formula, H.holds v ↔ ∀ s ∈ H.family, ∃ l ∈ s, l.holds v := by
    intro H
    constructor
    · rintro hH s ⟨c, hc, rfl⟩
      exact hH c hc
    · intro hH c hc
      exact hH c.toSet (toSet_mem_family hc)
  rw [hfamily F, hfamily G, h]

/-- Some search returns the allocation. -/
def Allocation.Returned (a : Allocation) : Prop :=
  ∃ (σ : Type) (observe : Search.Event → σ → σ) (stops : Interrupts) (mode : Search.Mode)
    (F : Formula) (init : σ) (as : List Allocation),
    (Search.solve observe stops mode F init).outcome = .finished as ∧ a ∈ as

theorem Allocation.Returned.nodup {a : Allocation} (h : a.Returned) : a.literals.Nodup := by
  obtain ⟨_, _, _, _, _, _, _, has, ha⟩ := h
  exact (Search.completes_of_outcome has ha).consistent.nodup

def Allocation.toSet (a : Allocation) : Set Literal := {l | l ∈ a.literals}

theorem Allocation.same_iff_toSet_eq {a b : Allocation} (ha : a.Returned) (hb : b.Returned) :
    a.same b = true ↔ a.toSet = b.toSet :=
  (Allocation.same_iff_agree ha.nodup hb.nodup).trans Set.ext_iff.symm

/-- Clauses are the lists without repeated literals, formulas are the reduced lists of such lists,
and what a search returns has no repeated literals either. Hence the comparisons decide whether two
of them stand for the same set, and formulas that compare as the same have the same models. -/
theorem same_decides_sets :
    (∀ ls, (∃ ms, (Clause.ofList ms).literals = ls) ↔ ls.Nodup) ∧
    (∀ rows, (∃ F, Formula.Built F ∧ F.rows = rows) ↔ Reduced rows) ∧
    (∀ a : Allocation, a.Returned → a.literals.Nodup) ∧
    Decides (fun c => ∃ ls, c = .ofList ls) Clause.same Clause.toSet ∧
    Decides Formula.Built Formula.same Formula.family ∧
    Decides Allocation.Returned Allocation.same Allocation.toSet ∧
    ∀ F G, Formula.Built F → Formula.Built G → F.same G = true →
      ∀ v, F.holds v ↔ G.holds v := by
  refine ⟨fun _ => Clause.exists_literals_ofList_iff, fun _ => Formula.exists_built_iff,
    fun _ ha => ha.nodup, ?_, ?_, ?_, ?_⟩
  · exact .of_iff fun c d _ _ => Clause.same_iff_toSet_eq c d
  · exact .of_iff fun F G _ _ => Formula.same_iff_family_eq
  · exact .of_iff fun a b ha hb => Allocation.same_iff_toSet_eq ha hb
  · intro F G _ _ hsame v
    exact Formula.holds_congr (Formula.same_iff_family_eq.mp hsame) v

/-- A repeated literal would make the comparison depend on which side it stands. -/
example :
    ListSet.equal (· == ·) [Literal.pos 'a', .pos 'a'] [.pos 'a', .pos 'b'] = true ∧
    ListSet.equal (· == ·) [Literal.pos 'a', .pos 'b'] [.pos 'a', .pos 'a'] = false := by
  decide

end Clausal
