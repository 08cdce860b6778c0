import Clausal.Flags
import Clausal.Resolution.Event
import Clausal.Resolution.Space

/-!
# Refuting formulas

Resolution adds one resolvent after the other until it derives the empty clause, which refutes the
formula, or until no inference is admissible, and then the formula has a model. The formula grows
on the way and what it has grown to is part of the result, also when the run is stopped.

The run polls once before each inference, and tells an observer of every event. The observer's
state is carried along and never looked at.
-/

set_option autoImplicit false

namespace Clausal.Resolution

inductive Verdict
  /-- The steps of the refutation; there are none if the formula held the empty clause. -/
  | refuted (proof : List Step)
  | saturated
deriving DecidableEq

def Verdict.isRefuted : Verdict → Bool
  | .refuted _ => true
  | .saturated => false

structure Result (σ : Type) where
  outcome : Outcome Verdict
  formula : Formula
  polls : Nat
  seen : σ

section
variable {σ : Type} (observe : Event → σ → σ) (stops : Interrupts)

def saturate (D : Derivation) (polls : Nat) (seen : σ) : Result σ :=
  let size := D.formula.size
  if stops polls then ⟨.aborted, D.formula, polls + 1, observe (.aborted size) seen⟩
  else
    let seen := observe (.pass D) seen
    match h : next? D.formula with
    | none => ⟨.finished .saturated, D.formula, polls + 1, observe (.saturated size) seen⟩
    | some r =>
      let seen := observe (.resolved r.step) seen
      if r.step.resolvent.isEmpty then
        let proof := D.proof r
        ⟨.finished (.refuted proof), D.formula, polls + 1, observe (.refuted size proof) seen⟩
      else saturate (D.add r (admissible_of_next? h)) (polls + 1) seen
termination_by room D.formula
decreasing_by exact room_insert_lt (admissible_of_next? h)

/-- A formula that holds the empty clause is refuted at once, by a proof without steps. -/
def refute (F : Formula) (init : σ) : Result σ :=
  if F.isFalse then ⟨.finished (.refuted []), F, 0, observe .refutedAtOnce init⟩
  else saturate observe stops (.start F) 0 init

end
end Clausal.Resolution
