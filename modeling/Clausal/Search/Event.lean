import Clausal.Allocation
import Clausal.Formula.Assign
import Clausal.Notice

/-!
# Events of a search

What a search for allocations does, step by step. An event may have a record for the log and
lines for the trace; the lines are indented by the depth of the step they belong to. That a
formula is entered goes into neither.
-/

set_option autoImplicit false

namespace Clausal.Search

inductive Event
  /-- The search of the formula begins, under the literals assigned so far. -/
  | entered (path : List Literal) (formula : Formula)
  /-- At this depth the literal is assigned in the first formula, which leaves the second. -/
  | step (depth : Nat) (literal : Literal) (formula residual : Formula)
  /-- The step at this depth completed an allocation. -/
  | found (depth : Nat) (allocation : Allocation)
  | aborted (depth : Nat)
  | finished (count : Nat)

namespace Event

def indent (depth : Nat) : String := String.ofList (List.replicate (2 * depth) ' ')

def record? : Event → Option Record
  | .entered _ _ => none
  | .step depth l F G =>
    some ⟨.trace, s!"step {l.render} at depth {depth}: {F.renderAssigned l} = {G.render}"⟩
  | .found _ a => some ⟨.trace, s!"satisfying allocation {a.render}"⟩
  | .aborted depth => some ⟨.debug, s!"dpll aborted at depth {depth}"⟩
  | .finished count => some ⟨.debug, s!"dpll found {count} allocation(s)"⟩

def lines : Event → List String
  | .step depth l F G =>
    let value := if l.positive then "true" else "false"
    [s!"{indent depth}F[{l.var}/{value}]: {F.renderAssigned l}",
      s!"{indent (depth + 1)}= {G.render}"]
  | .found depth a => [s!"{indent (depth + 1)}satisfying allocation found: {a.render}"]
  | _ => []

def notices (traced : Bool) (e : Event) : List Notice := Notice.tell traced e.record? e.lines

end Event
end Clausal.Search
