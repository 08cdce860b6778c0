import Clausal.Duration
import Clausal.Report

/-!
# Jobs

A job is a report that may be cut short by a timeout. The worker polls a flag that is down at
first and is raised once, after the timeout; without a timeout it stays down. How many polls the
worker makes before it sees the flag raised depends on its pace, about which nothing is assumed.

A job writes lines to a sink and closes it when all is written. If it was cut short, an empty line
and a note end its output.
-/

set_option autoImplicit false

namespace Clausal

/-- What is done to a sink of lines. -/
inductive SinkAction
  | emit (line : String)
  | close
deriving DecidableEq

def SinkAction.line? : SinkAction → Option String
  | .emit line => some line
  | .close => none

structure Job where
  formula : Formula
  algorithm : Algorithm
  traced : Bool
  timeout : Option Duration

namespace Job

structure Result where
  outcome : Outcome Answer
  actions : List SinkAction

def Result.lines (r : Result) : List String := r.actions.filterMap SinkAction.line?

/-- What the worker sees of the flag if `pace t` polls fit into the time `t`. -/
def interrupts (pace : Duration → Nat) (timeout : Option Duration) : Interrupts :=
  match timeout with
  | none => .never
  | some t => .after (pace t)

def abortLines {α : Type} : Outcome α → List String
  | .finished _ => []
  | .aborted => ["", "Aborted!"]

/-- Only a traced job is watched. -/
def report (pace : Duration → Nat) (j : Job) : Report :=
  Report.make j.traced (interrupts pace j.timeout) j.algorithm j.formula

def run (pace : Duration → Nat) (j : Job) : Result :=
  let r := j.report pace
  ⟨r.outcome, (r.lines j.traced ++ abortLines r.outcome).map .emit ++ [.close]⟩

end Job
end Clausal
