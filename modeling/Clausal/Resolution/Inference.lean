import Clausal.Formula

/-!
# Resolution inferences

From a clause that holds a literal and another clause that holds its negation, resolution infers
the union of both without this pair. An inference is admissible for a formula when its resolvent
is neither a tautology nor a clause of the formula already.

`next?` is the first admissible inference in the order of the first parent, of its literals, and
of the second parent. It looks at the clauses of the formula and at nothing else, so a run that
was stopped and is taken up again goes on as before.
-/

set_option autoImplicit false

namespace Clausal.Resolution

structure Step where
  left : Clause
  right : Clause
  pivot : Literal
  resolvent : Clause
deriving DecidableEq

def Step.render (s : Step) : String :=
  s!"{s.left.render} + {s.right.render} --> {s.resolvent.render}"

/-- A step, with the places of its parents among the clauses of a formula. -/
structure Inference where
  left : Nat
  right : Nat
  step : Step
deriving DecidableEq

structure Inference.Admissible (F : Formula) (r : Inference) : Prop where
  left_eq : F.clauses[r.left]? = some r.step.left
  right_eq : F.clauses[r.right]? = some r.step.right
  ne : r.left ≠ r.right
  pivot_mem : r.step.pivot ∈ r.step.left
  neg_pivot_mem : -r.step.pivot ∈ r.step.right
  resolvent_eq : r.step.resolvent = r.step.left.resolve r.step.right r.step.pivot
  not_tautology : r.step.resolvent.isTautology = false
  not_contains : F.contains r.step.resolvent = false

/-- The inference from clauses `i` and `j` on the literal `l` of the former. -/
def infer? (F : Formula) (i : Nat) (c : Clause) (l : Literal) (j : Nat) (d : Clause) :
    Option Inference :=
  if i ≠ j ∧ -l ∈ d then
    let r := c.resolve d l
    if r.isTautology || F.contains r then none else some ⟨i, j, c, d, l, r⟩
  else none

def next? (F : Formula) : Option Inference :=
  F.clauses.zipIdx.findSome? fun (c, i) =>
    c.literals.findSome? fun l =>
      F.clauses.zipIdx.findSome? fun (d, j) => infer? F i c l j d

theorem admissible_of_next? {F : Formula} {r : Inference} (h : next? F = some r) :
    r.Admissible F := by
  obtain ⟨⟨c, i⟩, hc, h⟩ := List.exists_of_findSome?_eq_some h
  obtain ⟨l, hl, h⟩ := List.exists_of_findSome?_eq_some h
  obtain ⟨⟨d, j⟩, hd, h⟩ := List.exists_of_findSome?_eq_some h
  simp only [infer?, Option.ite_none_right_eq_some] at h
  obtain ⟨⟨hij, hld⟩, h⟩ := h
  split at h
  · simp at h
  · next hr =>
    simp only [Bool.or_eq_true, not_or, Bool.not_eq_true] at hr
    cases h
    exact ⟨List.mk_mem_zipIdx_iff_getElem?.mp hc, List.mk_mem_zipIdx_iff_getElem?.mp hd, hij,
      hl, hld, rfl, hr.1, hr.2⟩

namespace Inference.Admissible

variable {F : Formula} {r : Inference} (h : r.Admissible F)
include h

theorem left_lt : r.left < F.size := (List.getElem?_eq_some_iff.mp h.left_eq).1

theorem right_lt : r.right < F.size := (List.getElem?_eq_some_iff.mp h.right_eq).1

theorem vars_resolvent {l : Literal} (hl : l ∈ r.step.resolvent) : l.var ∈ F.vars := by
  rw [h.resolvent_eq] at hl
  rcases Clause.mem_resolve.mp hl with ⟨hl, _⟩ | ⟨hl, _⟩
  · exact Formula.var_mem_vars (List.mem_of_getElem? h.left_eq) hl
  · exact Formula.var_mem_vars (List.mem_of_getElem? h.right_eq) hl

end Inference.Admissible
end Clausal.Resolution
