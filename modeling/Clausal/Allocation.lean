import Clausal.Formula

/-!
# Allocations

An allocation is a set of literals taken for true, in the order in which a search took them.
Variables that it does not mention are free. `same` ignores the order.
-/

set_option autoImplicit false

namespace Clausal

structure Allocation where
  literals : List Literal
deriving DecidableEq

namespace Allocation

def contains (a : Allocation) (l : Literal) : Bool := l ∈ a.literals

def size (a : Allocation) : Nat := a.literals.length

def isEmpty (a : Allocation) : Bool := a.literals.isEmpty

/-- Every clause holds one of the literals. -/
def satisfies (a : Allocation) (F : Formula) : Bool :=
  F.clauses.all fun c => c.literals.any a.contains

def same (a b : Allocation) : Bool := ListSet.equal (· == ·) a.literals b.literals

/-- The allocations take the same literals for true, in whatever order. -/
def Agree (a b : Allocation) : Prop := ∀ l, l ∈ a.literals ↔ l ∈ b.literals

theorem equivalence_agree : Equivalence Agree where
  refl _ _ := Iff.rfl
  symm h l := (h l).symm
  trans h h' l := (h l).trans (h' l)

theorem same_iff_agree {a b : Allocation} (ha : a.literals.Nodup) (hb : b.literals.Nodup) :
    a.same b = true ↔ a.Agree b :=
  ListSet.equal_beq_iff ha hb

def chars (a : Allocation) : List Char := Text.bracketed (a.literals.map Literal.chars)

def render (a : Allocation) : String := String.ofList a.chars

end Allocation
end Clausal
