import Clausal.Resolution.Inference

/-!
# Derivations

A derivation is a formula that grew by resolution, with the origin of each of its clauses: given
at the start, or derived from two clauses that stand before it. Clauses are only ever added at the
end, so the places of parents stay valid.

`proof` lists the steps that lead to a last inference, each after the steps of its parents. A
derived clause that is used more than once has its steps listed once for each use.
-/

set_option autoImplicit false

namespace Clausal.Resolution

inductive Origin
  | given
  | derived (left right : Nat) (step : Step)
deriving DecidableEq

structure Derivation where
  formula : Formula
  origins : List Origin
  length_origins : origins.length = formula.size
  earlier : ∀ n left right step, origins[n]? = some (Origin.derived left right step) →
    left < n ∧ right < n

namespace Derivation

def start (F : Formula) : Derivation where
  formula := F
  origins := List.replicate F.size .given
  length_origins := List.length_replicate
  earlier := by
    intro n left right step h
    simp [List.getElem?_replicate] at h

/-- The clause that an admissible inference adds. -/
def add (D : Derivation) (r : Inference) (h : r.Admissible D.formula) : Derivation where
  formula := D.formula.insert r.step.resolvent
  origins := D.origins ++ [.derived r.left r.right r.step]
  length_origins := by
    simp [Formula.size, Formula.clauses_insert_of_not_contains h.not_contains]
    exact D.length_origins
  earlier := by
    intro n left right step hn
    rcases Nat.lt_or_ge n D.origins.length with hlt | hge
    · rw [List.getElem?_append_left hlt] at hn
      exact D.earlier n left right step hn
    · have hlen := D.length_origins
      have hleft := h.left_lt
      have hright := h.right_lt
      rw [List.getElem?_append_right hge, List.getElem?_singleton] at hn
      split at hn
      · cases hn
        omega
      · simp at hn

/-- Puts the steps that derive clause `n` in front of `steps`, those of the second parent first. -/
def collect (D : Derivation) (n : Nat) (steps : List Step) : List Step :=
  match _h : D.origins[n]? with
  | some (.derived left right step) => D.collect right (D.collect left (step :: steps))
  | _ => steps
termination_by n
decreasing_by
  · exact (D.earlier n left right step _h).1
  · exact (D.earlier n left right step _h).2

def proof (D : Derivation) (last : Inference) : List Step :=
  D.collect last.right (D.collect last.left [last.step])

end Derivation
end Clausal.Resolution
