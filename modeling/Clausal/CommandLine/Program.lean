import Clausal.CommandLine.Options
import Clausal.Formula.Parser
import Clausal.Job

/-!
# The program

The program reads its options and then its formula, and only then runs the job. What it prints
and its exit code are a function of its arguments, its inputs and the pace of its worker.
-/

set_option autoImplicit false

namespace Clausal.CommandLine

inductive FileError
  | notFound
  | isDirectory
  | nulInPath
  | invalidText
  | other (text : String)
deriving DecidableEq

def FileError.message : FileError → String
  | .notFound => "No such file or directory (os error 2)"
  | .isDirectory => "Is a directory (os error 21)"
  | .nulInPath => "file name contained an unexpected NUL byte"
  | .invalidText => "stream did not contain valid UTF-8"
  | .other text => text

inductive LoadError
  | file (e : FileError)
  | parse (e : ParseError)
deriving DecidableEq

def LoadError.message : LoadError → String
  | .file e => s!"cannot read the formula: {e.message}"
  | .parse e => s!"invalid formula: {e.message}"

def parse (text : String) : Except LoadError Formula := (Formula.parse text).mapError .parse

/-- The formula that UTF-8 bytes spell out. -/
def load (content : Except FileError ByteArray) : Except LoadError Formula :=
  match content with
  | .error e => .error (.file e)
  | .ok bytes =>
    match String.fromUTF8? bytes with
    | none => .error (.file .invalidText)
    | some text => parse text

structure Inputs where
  standardInput : ByteArray
  file : String → Except FileError ByteArray

def Source.load (inputs : Inputs) : Source → Except LoadError Formula
  | .text formula => parse formula
  | .file path => CommandLine.load (inputs.file path)
  | .standardInput => CommandLine.load (.ok inputs.standardInput)

structure Exit where
  code : Nat
  output : String
  errors : String
deriving DecidableEq

namespace Exit

def unlines (lines : List String) : String := lines.foldl (fun text line => text ++ line ++ "\n") ""

def ofUsageError (e : UsageError) : Exit := ⟨1, "", s!"error: {e.message}\n"⟩

def ofLoadError (e : LoadError) : Exit := ⟨255, "", s!"error: {e.message}\n"⟩

def ofJob (r : Job.Result) : Exit := ⟨r.outcome.exitCode, unlines r.lines, ""⟩

end Exit

def Options.job (o : Options) (inputs : Inputs) : Except LoadError Job :=
  (o.source.load inputs).map fun F => ⟨F, o.algorithm, o.traced, o.timeout⟩

def execute (pace : Duration → Nat) (inputs : Inputs) (o : Options) : Exit :=
  match o.job inputs with
  | .error e => .ofLoadError e
  | .ok job => .ofJob (job.run pace)

end Clausal.CommandLine
