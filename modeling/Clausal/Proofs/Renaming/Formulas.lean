import Clausal.Formula.Assign
import Mathlib.Data.List.Nodup

/-!
# Renaming variables and flipping signs

A renaming gives each variable another name and turns the signs of some variables round. It acts
on literals, and on clauses and formulas by building them again from the renamed parts.

If no two variables are given one name, nothing is merged by that, so a clause is renamed literal by
literal and a formula clause by clause, and everything that is read off a clause or a formula, or
done with it, goes along with the renaming.

This module does NOT mention either engine.
-/

set_option autoImplicit false

namespace Clausal

structure Renaming where
  var : Char → Char
  /-- The variables whose signs are turned round. -/
  flips : Char → Bool

/-- No two variables are given one name. -/
def Renaming.Injective (r : Renaming) : Prop := Function.Injective r.var

variable {r : Renaming}

namespace Literal

def rename (r : Renaming) (l : Literal) : Literal := ⟨r.var l.var, l.positive ^^ r.flips l.var⟩

@[simp] theorem rename_neg (l : Literal) : (-l).rename r = -l.rename r := by
  simp [rename, Neg.neg]

theorem rename_injective (hr : r.Injective) : Function.Injective (rename r) := by
  intro l m h
  obtain ⟨x, p⟩ := l
  obtain ⟨y, q⟩ := m
  simp only [rename, mk.injEq] at h
  obtain ⟨hvar, hsign⟩ := h
  obtain rfl : x = y := hr hvar
  simpa using hsign

theorem rename_beq (hr : r.Injective) (l m : Literal) : (l.rename r == m.rename r) = (l == m) := by
  rw [Bool.eq_iff_iff, beq_iff_eq, beq_iff_eq, (rename_injective hr).eq_iff]

end Literal

namespace Clause

def rename (r : Renaming) (c : Clause) : Clause := .ofList (c.literals.map (Literal.rename r))

section
variable (hr : r.Injective)
include hr

theorem literals_rename (c : Clause) :
    (c.rename r).literals = c.literals.map (Literal.rename r) :=
  ListSet.ofList_of_distinct
    (ListSet.distinct_of_nodup (List.Nodup.map (Literal.rename_injective hr) c.nodup))

theorem rename_ofList (ls : List Literal) :
    (ofList ls).rename r = ofList (ls.map (Literal.rename r)) := by
  apply ext
  rw [literals_rename hr]
  exact (ListSet.ofList_map (Literal.rename_beq hr) ls).symm

theorem rename_mem (c : Clause) (l : Literal) : l.rename r ∈ c.rename r ↔ l ∈ c := by
  rw [mem_iff, literals_rename hr, List.mem_map_of_injective (Literal.rename_injective hr), mem_iff]

theorem rename_erase (c : Clause) (l : Literal) :
    (c.erase l).rename r = (c.rename r).erase (l.rename r) := by
  apply ext
  simp only [literals_rename hr, erase, List.filter_map]
  congr 2
  funext m
  simp [(Literal.rename_injective hr).eq_iff]

theorem rename_resolve (c d : Clause) (pivot : Literal) :
    (c.resolve d pivot).rename r = (c.rename r).resolve (d.rename r) (pivot.rename r) := by
  rw [resolve, resolve, rename_ofList hr, List.map_append, ← literals_rename hr,
    ← literals_rename hr, rename_erase hr, rename_erase hr, Literal.rename_neg]

theorem isEmpty_rename (c : Clause) : (c.rename r).isEmpty = c.isEmpty := by
  simp [isEmpty, literals_rename hr]

theorem first?_rename (c : Clause) : (c.rename r).first? = c.first?.map (Literal.rename r) := by
  simp [first?, literals_rename hr]

theorem unit?_rename (c : Clause) : (c.rename r).unit? = c.unit?.map (Literal.rename r) := by
  unfold unit?
  rw [literals_rename hr]
  match c.literals with
  | [] => rfl
  | [l] => rfl
  | _ :: _ :: _ => rfl

theorem isTautology_rename (c : Clause) : (c.rename r).isTautology = c.isTautology := by
  simp only [isTautology, literals_rename hr, List.any_map, Function.comp_def,
    ← Literal.rename_neg, rename_mem hr]

theorem same_rename (c d : Clause) : (c.rename r).same (d.rename r) = c.same d := by
  rw [same, literals_rename hr, literals_rename hr, ListSet.equal_map (Literal.rename_beq hr)]
  rfl

end

end Clause

namespace Formula

def rename (r : Renaming) (F : Formula) : Formula := .ofList (F.clauses.map (Clause.rename r))

section
variable (hr : r.Injective)
include hr

theorem clauses_rename (F : Formula) :
    (F.rename r).clauses = F.clauses.map (Clause.rename r) := by
  simp only [rename, ofList, ListSet.ofList_map (Clause.same_rename hr)]
  rw [ListSet.ofList_of_distinct F.distinct]

theorem rename_ofList (cs : List Clause) :
    (ofList cs).rename r = ofList (cs.map (Clause.rename r)) := by
  apply ext
  rw [clauses_rename hr]
  exact (ListSet.ofList_map (Clause.same_rename hr) cs).symm

theorem size_rename (F : Formula) : (F.rename r).size = F.size := by
  rw [size, clauses_rename hr, List.length_map, size]

theorem isTrue_rename (F : Formula) : (F.rename r).isTrue = F.isTrue := by
  simp [isTrue, clauses_rename hr]

theorem isFalse_rename (F : Formula) : (F.rename r).isFalse = F.isFalse := by
  simp only [isFalse, clauses_rename hr, List.any_map, Function.comp_def, Clause.isEmpty_rename hr]

theorem contains_rename (F : Formula) (c : Clause) :
    (F.rename r).contains (c.rename r) = F.contains c := by
  rw [contains, clauses_rename hr, ListSet.contains_map (Clause.same_rename hr), contains]

theorem rename_insert (F : Formula) (c : Clause) :
    (F.insert c).rename r = (F.rename r).insert (c.rename r) := by
  apply ext
  simp only [insert, clauses_rename hr, ListSet.insert_map (Clause.same_rename hr)]

theorem rename_assign (F : Formula) (l : Literal) :
    (F.assign l).rename r = (F.rename r).assign (l.rename r) := by
  have hkept : (fun c => decide (l.rename r ∉ c)) ∘ Clause.rename r =
      fun c => decide (l ∉ c) := by
    funext c
    simp [Clause.rename_mem hr]
  have herase : Clause.rename r ∘ (fun c => c.erase (-l)) =
      (fun c => c.erase (-l.rename r)) ∘ Clause.rename r := by
    funext c
    simp [Clause.rename_erase hr]
  rw [assign, assign, rename_ofList hr, clauses_rename hr, List.filter_map, hkept, List.map_map,
    List.map_map, herase]

end

end Formula
end Clausal
