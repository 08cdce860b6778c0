import Clausal.CommandLine.Program

/-!
# The command line

Gives the program its inputs and a clock. A job with a timeout is run with an allowance of polls,
and again with twice as many while there is time left; so it is stopped at a poll that comes after
the timeout, and the repetition at most doubles the work.
-/

set_option autoImplicit false

namespace Clausal.CommandLine

def readFile (path : String) : IO (Except FileError ByteArray) := do
  try
    return .ok (← IO.FS.readBinFile path)
  catch
    | .noFileOrDirectory .. => return .error .notFound
    | .inappropriateType .. => return .error .isDirectory
    | e => return .error (.other (toString e))

/-- Only the input that is the source of the formula is read. -/
def Source.inputs (source : Source) : IO Inputs := do
  match source with
  | .text _ => return ⟨.empty, fun _ => .error .notFound⟩
  | .file path =>
    let content ← readFile path
    return ⟨.empty, fun _ => content⟩
  | .standardInput => return ⟨← (← IO.getStdin).readBinToEnd, fun _ => .error .notFound⟩

partial def runWithin (job : Job) (deadline polls : Nat) : IO Job.Result := do
  let r := job.run fun _ => polls
  match r.outcome with
  | .finished _ => return r
  | .aborted =>
    if deadline ≤ (← IO.monoNanosNow) then return r
    else runWithin job deadline (2 * polls)

def runJob (job : Job) : IO Job.Result := do
  let limit := match job.timeout with
    | some t => t.nanoseconds
    | none => 0
  runWithin job ((← IO.monoNanosNow) + limit) 1000

def exit (args : List String) : IO Exit := do
  match Options.parse args with
  | .error e => return .ofUsageError e
  | .ok options =>
    match options.job (← options.source.inputs) with
    | .error e => return .ofLoadError e
    | .ok job => return .ofJob (← runJob job)

end Clausal.CommandLine

def main (args : List String) : IO UInt32 := do
  let e ← Clausal.CommandLine.exit args
  IO.print e.output
  IO.eprint e.errors
  return e.code.toUInt32
