import Clausal.Resolution.Refute
import Clausal.Search.Dpll

/-!
# Reports

A report shows the formula, runs one of the algorithms on it and shows the answer. It is kept as
the sequence of its events; which lines they amount to depends on whether the run is traced. The
events of the algorithm itself, which can be many, are kept only if the run is watched. A run that
is stopped ends its report without an answer.
-/

set_option autoImplicit false

namespace Clausal

inductive Algorithm
  /-- Search for one allocation. -/
  | dpll
  /-- Search for all allocations. -/
  | dpllAll
  | resolution
deriving DecidableEq

namespace Algorithm

/-- The name under which a user selects the algorithm. -/
def ofName? : String → Option Algorithm
  | "dpll" => some .dpll
  | "dpll-all" => some .dpllAll
  | "resolution" => some .resolution
  | _ => none

def unknownMessage (name : String) : String := s!"unknown algorithm '{name}'"

/-- The name of the algorithm in the log. -/
def label : Algorithm → String
  | .dpll => "Dpll"
  | .dpllAll => "DpllAll"
  | .resolution => "Resolution"

end Algorithm

inductive Answer
  | satisfiable
  | unsatisfiable
deriving DecidableEq

def Answer.ofAllocations (as : List Allocation) : Answer :=
  if as.isEmpty then .unsatisfiable else .satisfiable

def Answer.ofVerdict (v : Resolution.Verdict) : Answer :=
  if v.isRefuted then .unsatisfiable else .satisfiable

def Outcome.exitCode : Outcome Answer → Nat
  | .finished .satisfiable => 0
  | .finished .unsatisfiable => 1
  | .aborted => 2

inductive Report.Event
  | line (text : String)
  | running (algorithm : Algorithm) (size : Nat)
  | search (e : Search.Event)
  | resolution (e : Resolution.Event)

namespace Report.Event

def notices (traced : Bool) : Event → List Notice
  | .line text => [.line text]
  | .running algorithm size =>
    [.record ⟨.debug, s!"running {algorithm.label} on {size} clauses"⟩]
  | .search e => e.notices traced
  | .resolution e => e.notices traced

def lines (traced : Bool) : Event → List String
  | .line text => [text]
  | .running _ _ => []
  | .search e => if traced then e.lines else []
  | .resolution e => if traced then e.lines else []

end Report.Event

structure Report where
  outcome : Outcome Answer
  events : List Report.Event
  /-- The formula afterwards: resolution makes it grow. -/
  formula : Formula
  polls : Nat

namespace Report

def heading (F : Formula) (algorithm : Algorithm) : List Event :=
  [.line s!"Formula: {F.render}", .line "", .running algorithm F.size]

def verdictLines (v : Resolution.Verdict) : List String :=
  ["", if v.isRefuted then "Formula is unsatisfiable" else "Formula is satisfiable"]

def allocationLines (as : List Allocation) : List String :=
  (if as.isEmpty then ["", "No satisfying allocation found,", "formula is unsatisfiable"] else [])
    ++ ["", s!"Satisfying allocations ({as.length}):"] ++ as.map Allocation.render

/-- Closes a report with the lines that show the answer, if there is one. -/
def conclude {α : Type} (outcome : Outcome α) (answer : α → List String) : List Event :=
  match outcome with
  | .finished a => (answer a).map .line
  | .aborted => []

def ofSearch (watched : Bool) (stops : Interrupts) (algorithm : Algorithm) (mode : Search.Mode)
    (F : Formula) : Report :=
  let r := Search.solve (fun e es => if watched then .search e :: es else es) stops mode F []
  { outcome := r.outcome.map .ofAllocations
    events := heading F algorithm ++ r.seen.reverse ++ conclude r.outcome allocationLines
    formula := F
    polls := r.polls }

def ofResolution (watched : Bool) (stops : Interrupts) (F : Formula) : Report :=
  let r := Resolution.refute (fun e es => if watched then .resolution e :: es else es) stops F []
  { outcome := r.outcome.map .ofVerdict
    events := heading F .resolution ++ r.seen.reverse ++ conclude r.outcome verdictLines
    formula := r.formula
    polls := r.polls }

def make (watched : Bool) (stops : Interrupts) (algorithm : Algorithm) (F : Formula) : Report :=
  match algorithm with
  | .dpll => ofSearch watched stops .dpll .first F
  | .dpllAll => ofSearch watched stops .dpllAll .all F
  | .resolution => ofResolution watched stops F

def lines (traced : Bool) (r : Report) : List String := r.events.flatMap (Event.lines traced)

def notices (traced : Bool) (r : Report) : List Notice := r.events.flatMap (Event.notices traced)

end Report
end Clausal
