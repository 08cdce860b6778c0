import Clausal.Clause

/-!
# Formulas

A formula is a conjunction: a set of clauses, listed in order of first occurrence, no two of which
hold the same literals. Both engines pick clauses in this order, so it is part of every answer.
`same` compares formulas as sets of clauses.
-/

set_option autoImplicit false

namespace Clausal

structure Formula where
  clauses : List Clause
  distinct : ListSet.Distinct Clause.same clauses

namespace Formula

theorem ext {F G : Formula} (h : F.clauses = G.clauses) : F = G := by
  cases F
  cases G
  cases h
  rfl

def empty : Formula := ⟨[], ListSet.distinct_nil⟩

def contains (F : Formula) (c : Clause) : Bool := ListSet.contains Clause.same F.clauses c

/-- A clause that holds the same literals as an earlier one is not added. -/
def insert (F : Formula) (c : Clause) : Formula :=
  ⟨ListSet.insert Clause.same F.clauses c, ListSet.distinct_insert F.distinct c⟩

def ofList (cs : List Clause) : Formula :=
  ⟨ListSet.ofList Clause.same cs, ListSet.distinct_ofList cs⟩

@[simp] theorem ofList_clauses (F : Formula) : ofList F.clauses = F :=
  ext (ListSet.ofList_of_distinct F.distinct)

def size (F : Formula) : Nat := F.clauses.length

/-- A formula without clauses is true under every assignment. -/
def isTrue (F : Formula) : Bool := F.clauses.isEmpty

/-- A formula that holds the empty clause is false under every assignment. -/
def isFalse (F : Formula) : Bool := F.clauses.any Clause.isEmpty

def literals (F : Formula) : List Literal := F.clauses.flatMap Clause.literals

/-- The variables in order of first appearance. -/
def vars (F : Formula) : List Char := ListSet.ofList (· == ·) (F.literals.map Literal.var)

def same (F G : Formula) : Bool := ListSet.equal Clause.same F.clauses G.clauses

theorem clauses_insert_of_not_contains {F : Formula} {c : Clause} (h : F.contains c = false) :
    (F.insert c).clauses = F.clauses ++ [c] := by
  have h' : ListSet.contains Clause.same F.clauses c = false := h
  simp [insert, ListSet.insert, h']

theorem contains_iff {F : Formula} {c : Clause} :
    F.contains c = true ↔ ∃ d ∈ F.clauses, d.same c = true := by
  simp [contains, ListSet.contains]

theorem contains_insert {F : Formula} {c d : Clause} (h : F.contains c = false) :
    (F.insert c).contains d = (F.contains d || c.same d) := by
  simp [contains, ListSet.contains, clauses_insert_of_not_contains h]

theorem mem_literals {F : Formula} {l : Literal} : l ∈ F.literals ↔ ∃ c ∈ F.clauses, l ∈ c := by
  simp [literals, Clause.mem_iff]

theorem mem_vars {F : Formula} {x : Char} : x ∈ F.vars ↔ ∃ l ∈ F.literals, l.var = x := by
  simp [vars, ListSet.mem_ofList_iff]

theorem nodup_vars (F : Formula) : F.vars.Nodup := ListSet.nodup_ofList _

theorem var_mem_vars {F : Formula} {c : Clause} {l : Literal} (hc : c ∈ F.clauses) (hl : l ∈ c) :
    l.var ∈ F.vars :=
  mem_vars.mpr ⟨l, mem_literals.mpr ⟨c, hc, hl⟩, rfl⟩

/-- A clause over the variables of a formula brings no variable to it. -/
theorem vars_insert {F : Formula} {c : Clause} (h : ∀ l ∈ c, l.var ∈ F.vars) :
    (F.insert c).vars = F.vars := by
  cases hc : F.contains c with
  | true =>
    have hc' : ListSet.contains Clause.same F.clauses c = true := hc
    simp [insert, ListSet.insert, hc', vars, literals]
  | false =>
    have happ : (F.insert c).literals.map Literal.var =
        F.literals.map Literal.var ++ c.literals.map Literal.var := by
      simp [literals, clauses_insert_of_not_contains hc]
    have hsub : c.literals.map Literal.var ⊆ F.literals.map Literal.var := by
      intro x hx
      obtain ⟨l, hl, rfl⟩ := List.mem_map.mp hx
      simpa [mem_vars] using h l hl
    rw [vars, happ, ListSet.ofList_append_of_subset hsub]
    rfl

def chars (F : Formula) : List Char := Text.braced (F.clauses.map Clause.chars)

def render (F : Formula) : String := String.ofList F.chars

end Formula
end Clausal
