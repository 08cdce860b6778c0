import Clausal.Search.Event

/-!
# How formulas and traces are written

A literal is written as the name of its variable, behind a minus sign if it is negative. Clauses and
formulas are lists between braces, allocations lists between brackets. A step of a search is written
in two lines, which show the formula with the constants in place of the literals, and the formula
that the step leaves; an allocation that is found has one line. `text` and `shown` say this with
strings alone, and what is rendered is proved to be just that.

The line of a found allocation can be told from those of steps by its first words, wherever the
line begins.
-/

set_option autoImplicit false

namespace Clausal

namespace Text

/-- The items between two delimiters, separated by a comma and a blank. -/
def listed (left right : String) (items : List String) : String :=
  left ++ ", ".intercalate items ++ right

def blanks (n : Nat) : String := String.ofList (List.replicate n ' ')

theorem ofList_enclosed {α : Type} (left right : Char) (f : α → List Char) (xs : List α) :
    String.ofList (enclosed left right (xs.map f)) =
      listed (String.singleton left) (String.singleton right)
        (xs.map fun x => String.ofList (f x)) := by
  rw [← String.toList_inj]
  simp [enclosed, listed, Function.comp_def]

/-- How far a line is indented does not matter behind its blanks. -/
theorem dropWhile_blanks (n : Nat) (text : String) :
    (blanks n ++ text).toList.dropWhile (· = ' ') = text.toList.dropWhile (· = ' ') := by
  simp [blanks]

end Text

open Text (listed blanks)

def Literal.text (l : Literal) : String :=
  if l.positive then l.var.toString else "-" ++ l.var.toString

def Clause.text (c : Clause) : String := listed "\x7b" "\x7d" (c.literals.map Literal.text)

def Formula.text (F : Formula) : String := listed "\x7b" "\x7d" (F.clauses.map Clause.text)

def Allocation.text (a : Allocation) : String := listed "[" "]" (a.literals.map Literal.text)

/-- The formula with `l` taken for true, before it is simplified. -/
def Formula.textAssigned (F : Formula) (l : Literal) : String :=
  listed "\x7b" "\x7d" (F.clauses.map fun c => listed "\x7b" "\x7d" (c.literals.map fun m =>
    if m = l then "true" else if m = -l then "false" else m.text))

theorem Literal.ofList_chars (l : Literal) : String.ofList l.chars = l.text := by
  rw [← String.toList_inj]
  unfold Literal.chars Literal.text
  split <;> simp

theorem Clause.ofList_chars (c : Clause) : String.ofList c.chars = c.text := by
  simp only [Clause.chars, Text.braced, Text.ofList_enclosed, Literal.ofList_chars]
  rfl

theorem Formula.render_eq_text (F : Formula) : F.render = F.text := by
  simp only [Formula.render, Formula.chars, Text.braced, Text.ofList_enclosed,
    Clause.ofList_chars]
  rfl

theorem Allocation.render_eq_text (a : Allocation) : a.render = a.text := by
  simp only [Allocation.render, Allocation.chars, Text.bracketed, Text.ofList_enclosed,
    Literal.ofList_chars]
  rfl

theorem Formula.renderAssigned_eq_text (F : Formula) (l : Literal) :
    F.renderAssigned l = F.textAssigned l := by
  simp only [Formula.renderAssigned, Formula.assignedChars, Text.braced, Text.ofList_enclosed,
    apply_ite String.ofList, String.ofList_toList, Literal.ofList_chars]
  rfl

namespace Search

/-- The line of an allocation that a step at the depth completes. -/
def foundLine (depth : Nat) (a : Allocation) : String :=
  blanks (2 * depth + 2) ++ "satisfying allocation found: " ++ a.text

/-- The line tells of an allocation that was found. -/
def TellsFound (line : String) : Prop :=
  "satisfying allocation found: ".toList <+: line.toList.dropWhile (· = ' ')

theorem tellsFound_foundLine (depth : Nat) (a : Allocation) : TellsFound (foundLine depth a) := by
  unfold TellsFound foundLine
  rw [String.append_assoc, Text.dropWhile_blanks]
  simp

namespace Event

/-- The lines of a trace that show the event. -/
def shown : Event → List String
  | .step depth l F G =>
    [blanks (2 * depth) ++ "F[" ++ l.var.toString ++ "/" ++
        (if l.positive then "true" else "false") ++ "]: " ++ F.textAssigned l,
      blanks (2 * depth + 2) ++ "= " ++ G.text]
  | .found depth a => [foundLine depth a]
  | _ => []

theorem lines_eq_shown (e : Event) : e.lines = e.shown := by
  cases e with
  | step depth l F G =>
    simp only [lines, shown, Formula.renderAssigned_eq_text, Formula.render_eq_text]
    rfl
  | found depth a =>
    simp only [lines, shown, Allocation.render_eq_text]
    rfl
  | entered => rfl
  | aborted => rfl
  | finished => rfl

theorem flatMap_lines (es : List Event) : es.flatMap lines = es.flatMap shown := by
  rw [funext lines_eq_shown]

theorem not_tellsFound {e : Event} (he : ∀ depth a, e ≠ .found depth a) {line : String}
    (h : line ∈ e.shown) : ¬ TellsFound line := by
  cases e with
  | step depth l F G =>
    simp only [shown, List.mem_cons, List.not_mem_nil, or_false] at h
    unfold TellsFound
    rcases h with rfl | rfl
    · simp only [String.append_assoc, Text.dropWhile_blanks]
      simp
    · simp only [String.append_assoc, Text.dropWhile_blanks]
      simp
  | found depth a => exact absurd rfl (he depth a)
  | entered => cases h
  | aborted => cases h
  | finished => cases h

/-- The second step completes an allocation. -/
example : (found 1 ⟨[.pos 'a', .neg 'b']⟩).lines =
    ["    satisfying allocation found: [a, -b]"] := by
  decide +kernel

end Event
end Search
end Clausal
