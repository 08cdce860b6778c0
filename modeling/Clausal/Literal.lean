/-!
# Literals

A propositional variable is named by one character. A literal is a variable or its negation.

Any character can name a variable here; which names can be written down is the grammar's affair.
-/

set_option autoImplicit false

namespace Clausal

structure Literal where
  var : Char
  positive : Bool
deriving DecidableEq

namespace Literal

def pos (x : Char) : Literal := ⟨x, true⟩

def neg (x : Char) : Literal := ⟨x, false⟩

instance : Neg Literal := ⟨fun l => ⟨l.var, !l.positive⟩⟩

@[simp] theorem var_neg (l : Literal) : (-l).var = l.var := rfl

@[simp] theorem positive_neg (l : Literal) : (-l).positive = !l.positive := rfl

@[simp] theorem neg_neg (l : Literal) : - -l = l := by
  cases l
  simp [Neg.neg]

theorem neg_ne (l : Literal) : -l ≠ l := by
  intro h
  have := congrArg positive h
  simp at this

theorem eq_or_eq_neg {l m : Literal} (h : l.var = m.var) : l = m ∨ l = -m := by
  obtain ⟨x, p⟩ := l
  obtain ⟨y, q⟩ := m
  obtain rfl : x = y := h
  cases p <;> cases q <;> simp [Neg.neg]

/-- Literals over one variable compare equal, whatever their signs. -/
def compareVars (l m : Literal) : Ordering := compare l.var.toNat m.var.toNat

def chars (l : Literal) : List Char := if l.positive then [l.var] else ['-', l.var]

def render (l : Literal) : String := String.ofList l.chars

end Literal
end Clausal
