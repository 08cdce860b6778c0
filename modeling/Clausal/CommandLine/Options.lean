import Clausal.Duration
import Clausal.Report

/-!
# Options of the command line

    [INPUT] [-f, --formula TEXT] [-a, --algorithm NAME] [-t, --trace] [--timeout SECONDS]

The formula is given as a text, or in a file, or else on standard input.

The value of an option follows it as the next argument or is attached to it, with or without an
equals sign after a short name and with one after a long name. Short names can be joined. An
argument that begins with `-` and goes on is never a positional argument nor a value of its own;
after `--` all arguments are positional. Every option is given at most once.
-/

set_option autoImplicit false

namespace Clausal.CommandLine

inductive Valued
  | formula
  | algorithm
  | timeout
deriving DecidableEq

/-- One use of an argument. -/
inductive Use
  | trace
  | valued (option : Valued) (value : String)
  | positional (value : String)
deriving DecidableEq

inductive UsageError
  | unknown (name : String)
  | missingValue (option : Valued)
  | repeated
  | tooManyInputs
  | twoSources
  | algorithm (name : String)
  | timeout (value : String)
deriving DecidableEq

def Valued.name : Valued → String
  | .formula => "formula"
  | .algorithm => "algorithm"
  | .timeout => "timeout"

def UsageError.message : UsageError → String
  | .unknown name => s!"unknown option '{name}'"
  | .missingValue option => s!"option '{option.name}' needs a value"
  | .repeated => "an option is given twice"
  | .tooManyInputs => "more than one input is given"
  | .twoSources => "both a formula and an input are given"
  | .algorithm name => Algorithm.unknownMessage name
  | .timeout value => Duration.invalidMessage value

def Valued.ofLong? : String → Option Valued
  | "formula" => some .formula
  | "algorithm" => some .algorithm
  | "timeout" => some .timeout
  | _ => none

def Valued.ofShort? : Char → Option Valued
  | 'f' => some .formula
  | 'a' => some .algorithm
  | _ => none

/-- Whether an argument names options; a lone `-` does not. -/
def isOption (arg : String) : Bool :=
  match arg.toList with
  | '-' :: _ :: _ => true
  | _ => false

/-- What an argument that names options says: the flags in it, and at its end perhaps an option
with its value, if that is attached. -/
structure Reading where
  traces : Nat
  last : Option (Valued × Option String)

def Reading.traced (r : Reading) : Reading := { r with traces := r.traces + 1 }

def dropEquals (cs : List Char) : String := String.ofList (cs.dropWhile (· == '='))

/-- A flag takes no value, and one that is attached to it is ignored. -/
def readLong (body : List Char) : Except UsageError Reading :=
  let name := String.ofList (body.takeWhile (· ≠ '='))
  let attached := match body.dropWhile (· ≠ '=') with
    | [] => none
    | _ :: cs => some (dropEquals cs)
  if name = "trace" then .ok ⟨1, none⟩
  else
    match Valued.ofLong? name with
    | some option => .ok ⟨0, some (option, attached)⟩
    | none => .error (.unknown name)

def readShort : List Char → Except UsageError Reading
  | [] => .ok ⟨0, none⟩
  | c :: cs =>
    if c = 't' then (readShort cs).map Reading.traced
    else
      match Valued.ofShort? c with
      | some option => .ok ⟨0, some (option, if cs = [] then none else some (dropEquals cs))⟩
      | none => .error (.unknown (String.singleton c))

def readOption (arg : String) : Except UsageError Reading :=
  let body := arg.toList.dropWhile (· == '-')
  if arg.startsWith "--" then readLong body else readShort body

/-- The uses of the arguments in order. -/
def uses : List String → Except UsageError (List Use)
  | [] => .ok []
  | arg :: rest =>
    if arg = "--" then .ok (rest.map .positional)
    else if isOption arg then
      match readOption arg with
      | .error e => .error e
      | .ok ⟨traces, last⟩ =>
        let flags := List.replicate traces Use.trace
        match last with
        | none => (uses rest).map (flags ++ ·)
        | some (option, some value) => (uses rest).map (flags ++ .valued option value :: ·)
        | some (option, none) =>
          match rest with
          | [] => .error (.missingValue option)
          | value :: rest =>
            if isOption value then .error (.missingValue option)
            else (uses rest).map (flags ++ .valued option value :: ·)
    else (uses rest).map (.positional arg :: ·)

inductive Source
  | text (formula : String)
  | file (path : String)
  | standardInput
deriving DecidableEq

structure Options where
  source : Source
  algorithm : Algorithm
  traced : Bool
  timeout : Option Duration

/-- The only element, if there is one at all. -/
def atMostOne {α : Type} (e : UsageError) : List α → Except UsageError (Option α)
  | [] => .ok none
  | [a] => .ok (some a)
  | _ => .error e

def Use.value? (option : Valued) : Use → Option String
  | .valued o value => if o = option then some value else none
  | _ => none

def Use.positional? : Use → Option String
  | .positional value => some value
  | _ => none

def sourceOf (formula input : Option String) : Except UsageError Source :=
  match formula, input with
  | some _, some _ => .error .twoSources
  | some text, none => .ok (.text text)
  | none, some path => .ok (.file path)
  | none, none => .ok .standardInput

def algorithmOf : Option String → Except UsageError Algorithm
  | none => .ok .dpll
  | some name =>
    match Algorithm.ofName? name with
    | some a => .ok a
    | none => .error (.algorithm name)

def timeoutOf : Option String → Except UsageError (Option Duration)
  | none => .ok none
  | some value =>
    match Duration.ofSeconds? value with
    | some t => .ok (some t)
    | none => .error (.timeout value)

def Options.ofUses (us : List Use) : Except UsageError Options := do
  let traces ← atMostOne .repeated (us.filter (· = .trace))
  let text ← atMostOne .repeated (us.filterMap (Use.value? .formula))
  let name ← atMostOne .repeated (us.filterMap (Use.value? .algorithm))
  let seconds ← atMostOne .repeated (us.filterMap (Use.value? .timeout))
  let input ← atMostOne .tooManyInputs (us.filterMap Use.positional?)
  return ⟨← sourceOf text input, ← algorithmOf name, traces.isSome, ← timeoutOf seconds⟩

def Options.parse (args : List String) : Except UsageError Options :=
  (uses args).bind Options.ofUses

end Clausal.CommandLine
