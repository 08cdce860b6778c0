import Clausal.Notice
import Clausal.Resolution.Derivation

/-!
# Events of a refutation

What a run of resolution does. An event may have a record for the log and lines for the trace; the
sizes count the clauses of the formula at that point. That a pass begins goes into neither.
-/

set_option autoImplicit false

namespace Clausal.Resolution

inductive Event
  /-- The formula holds the empty clause from the start. -/
  | refutedAtOnce
  /-- The search for the next inference begins. -/
  | pass (derivation : Derivation)
  | resolved (step : Step)
  /-- The last step derived the empty clause, which is not added to the formula. -/
  | refuted (size : Nat) (proof : List Step)
  | saturated (size : Nat)
  | aborted (size : Nat)

namespace Event

def record? : Event → Option Record
  | .refutedAtOnce => some ⟨.debug, "formula already contains the empty clause"⟩
  | .pass _ => none
  | .resolved step => some ⟨.trace, s!"resolved {step.render} on {step.pivot.render}"⟩
  | .refuted size _ => some ⟨.debug, s!"derived the empty clause with {size} clauses"⟩
  | .saturated size => some ⟨.debug, s!"saturated with {size} clauses"⟩
  | .aborted size => some ⟨.debug, s!"resolution aborted after {size} clauses"⟩

def lines : Event → List String
  | .resolved step => [step.render]
  | .refuted size proof =>
    ["Empty clause found!", "", s!"Total number of clauses: {size}"] ++ proof.map Step.render
  | .saturated size => ["No new resolvents can be derived.", s!"Total number of clauses: {size}"]
  | _ => []

def notices (traced : Bool) (e : Event) : List Notice := Notice.tell traced e.record? e.lines

end Event
end Clausal.Resolution
