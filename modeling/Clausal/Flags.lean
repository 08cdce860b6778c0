/-!
# Interrupts and flags

A run polls between its steps whether it should stop. What it sees is the sequence of answers to
its polls, numbered from zero; the first answer `true` ends the run. A clock and a flag that someone
else raises are both read as such a sequence.

A flag is raised once and stays raised. Clones of a flag share its state: raising one raises all.
Flags are numbered in the order in which they are made.
-/

set_option autoImplicit false

namespace Clausal

abbrev Interrupts := Nat → Bool

namespace Interrupts

def never : Interrupts := fun _ => false

/-- The first `n` polls let the run go on, every later one stops it. -/
def after (n : Nat) : Interrupts := fun i => n ≤ i

/-- At the time of poll `i`, `elapsed i` of the budget is used up. -/
def budget (elapsed : Nat → Nat) (allowed : Nat) : Interrupts := fun i => allowed ≤ elapsed i

end Interrupts

/-- A run that was stopped has no value, not even a partial one. -/
inductive Outcome (α : Type)
  | finished (value : α)
  | aborted

namespace Outcome

def map {α β : Type} (f : α → β) : Outcome α → Outcome β
  | .finished a => .finished (f a)
  | .aborted => .aborted

def abortMessage : String := "the run was aborted before it finished"

end Outcome

structure Flag where
  /-- Flags of one family share their state. -/
  family : Nat
  raised : Bool
deriving DecidableEq

def Flag.interrupts (f : Flag) : Interrupts := fun _ => f.raised

abbrev Flags := List Flag

namespace Flags

/-- A lowered flag of a new family, which bears the flag's number. -/
def make (fs : Flags) : Flags := fs ++ [⟨fs.length, false⟩]

def clone (fs : Flags) (f : Flag) : Flags := fs ++ [f]

def cancel (fs : Flags) (f : Flag) : Flags :=
  fs.map fun g => if g.family = f.family then { g with raised := true } else g

end Flags
end Clausal
