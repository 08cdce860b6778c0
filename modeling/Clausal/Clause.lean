import Clausal.ListSet
import Clausal.Literal

/-!
# Clauses

A clause is a disjunction: the set of its literals, listed in order of first occurrence. It may
hold a variable with both signs and is then a tautology. `same` compares clauses as sets, while
equality of clauses also compares the order.

A clause is written as a list between braces. Lists of other things are written in the same way:
between two delimiters, their items separated by a comma and a blank.
-/

set_option autoImplicit false

namespace Clausal

namespace Text

def enclosed (left right : Char) (items : List (List Char)) : List Char :=
  left :: [',', ' '].intercalate items ++ [right]

def braced : List (List Char) → List Char := enclosed '{' '}'

def bracketed : List (List Char) → List Char := enclosed '[' ']'

end Text

structure Clause where
  literals : List Literal
  nodup : literals.Nodup
deriving DecidableEq

namespace Clause

instance : Membership Literal Clause := ⟨fun c l => l ∈ c.literals⟩

instance (l : Literal) (c : Clause) : Decidable (l ∈ c) :=
  inferInstanceAs (Decidable (l ∈ c.literals))

theorem mem_iff {l : Literal} {c : Clause} : l ∈ c ↔ l ∈ c.literals := Iff.rfl

theorem ext {c d : Clause} (h : c.literals = d.literals) : c = d := by
  cases c
  cases d
  cases h
  rfl

/-- Keeps the first occurrence of each literal. -/
def ofList (ls : List Literal) : Clause :=
  ⟨ListSet.ofList (· == ·) ls, ListSet.nodup_ofList ls⟩

@[simp] theorem mem_ofList {l : Literal} {ls : List Literal} : l ∈ ofList ls ↔ l ∈ ls :=
  ListSet.mem_ofList_iff

@[simp] theorem ofList_literals (c : Clause) : ofList c.literals = c :=
  ext (ListSet.ofList_of_distinct (ListSet.distinct_of_nodup c.nodup))

def size (c : Clause) : Nat := c.literals.length

/-- The empty clause is false under every assignment. -/
def isEmpty (c : Clause) : Bool := c.literals.isEmpty

def first? (c : Clause) : Option Literal := c.literals.head?

/-- The literal of a clause that holds just one. -/
def unit? (c : Clause) : Option Literal :=
  match c.literals with
  | [l] => some l
  | _ => none

def isTautology (c : Clause) : Bool := c.literals.any fun l => -l ∈ c

def same (c d : Clause) : Bool := ListSet.equal (· == ·) c.literals d.literals

theorem same_iff {c d : Clause} : c.same d = true ↔ ∀ l, l ∈ c ↔ l ∈ d :=
  ListSet.equal_beq_iff c.nodup d.nodup

theorem same_refl (c : Clause) : c.same c = true := same_iff.mpr fun _ => Iff.rfl

theorem same_symm {c d : Clause} (h : c.same d = true) : d.same c = true :=
  same_iff.mpr fun l => (same_iff.mp h l).symm

theorem same_trans {b c d : Clause} (hbc : b.same c = true) (hcd : c.same d = true) :
    b.same d = true :=
  same_iff.mpr fun l => (same_iff.mp hbc l).trans (same_iff.mp hcd l)

def erase (c : Clause) (l : Literal) : Clause :=
  ⟨c.literals.filter (· ≠ l), c.nodup.sublist List.filter_sublist⟩

@[simp] theorem mem_erase {l m : Literal} {c : Clause} : m ∈ c.erase l ↔ m ∈ c ∧ m ≠ l := by
  simp [erase, mem_iff]

/-- The union of both clauses without the pivot of the first and its negation in the second. -/
def resolve (c d : Clause) (pivot : Literal) : Clause :=
  ofList ((c.erase pivot).literals ++ (d.erase (-pivot)).literals)

theorem mem_resolve {c d : Clause} {pivot l : Literal} :
    l ∈ c.resolve d pivot ↔ (l ∈ c ∧ l ≠ pivot) ∨ (l ∈ d ∧ l ≠ -pivot) := by
  simp [resolve, ← mem_iff]

theorem unit?_mem {c : Clause} {l : Literal} (h : c.unit? = some l) : l ∈ c := by
  unfold unit? at h
  split at h
  · next m hm =>
    obtain rfl : m = l := by simpa using h
    simp [mem_iff, hm]
  · simp at h

theorem first?_mem {c : Clause} {l : Literal} (h : c.first? = some l) : l ∈ c :=
  List.mem_of_mem_head? h

def chars (c : Clause) : List Char := Text.braced (c.literals.map Literal.chars)

def render (c : Clause) : String := String.ofList c.chars

end Clause
end Clausal
