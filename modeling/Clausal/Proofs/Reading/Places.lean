import Clausal.Proofs.Reading.Acceptance

/-!
# Places in the text of a formula

A place is what the lexemes read so far leave open: which lexemes may come next, and which error
any other one is. There are nine places, and one lexeme leads from a place to the next. The readers
recurse into the clauses of a formula and look one lexeme ahead for the brace that closes an empty
list; going from place to place needs neither, since two levels of braces are all there is.

The main statement: the error that the readers find in a text is the one that is met on the way
from place to place.

This module does NOT look at the formula that is read.
-/

set_option autoImplicit false

namespace Clausal.Formula.Reader

open Text (Lexeme isLetter)

/-- Which braces were opened last. -/
inductive Scope
  | formula
  | clause
deriving DecidableEq

def Scope.expected : Scope → ParseError.Kind
  | .formula => .expectedClause
  | .clause => .expectedLiteral

inductive Place
  | start
  /-- An element is to come. Right after the opening brace the list may be closed instead. -/
  | element (scope : Scope) (after : After)
  /-- A minus sign waits for its variable. -/
  | minus
  /-- An element is complete. -/
  | behind (scope : Scope)
  | closed
deriving DecidableEq

/-- The place behind the brace that closes a list. -/
def Scope.closed : Scope → Place
  | .formula => .closed
  | .clause => .behind .formula

/-- The kind of error at a character that cannot begin an element. -/
def unexpected (expected : ParseError.Kind) (after : After) (c : Char) : ParseError.Kind :=
  if isSeparator c then
    match after with
    | .opening => .misplacedSeparator
    | .separator => .adjacentSeparators
  else expected

theorem notAnElement_eq (expected : ParseError.Kind) (after : After) (x : Lexeme) :
    notAnElement expected after x = .ofLexeme (unexpected expected after x.char) x := by
  unfold notAnElement unexpected
  split
  · cases after <;> rfl
  · rfl

namespace Place

/-- The place to which a legal character leads. -/
def step : Place → Char → Except ParseError.Kind Place
  | .start, c => if c = '{' then .ok (.element .formula .opening) else .error .missingOpeningBrace
  | .element scope after, c =>
    if c = '}' ∧ after = .opening then .ok scope.closed
    else
      match scope with
      | .formula =>
        if c = '{' then .ok (.element .clause .opening)
        else .error (unexpected scope.expected after c)
      | .clause =>
        if c = '-' then .ok .minus
        else if isLetter c then .ok (.behind .clause)
        else .error (unexpected scope.expected after c)
  | .minus, c => if isLetter c then .ok (.behind .clause) else .error .expectedVariable
  | .behind scope, c =>
    if isSeparator c then .ok (.element scope .separator)
    else if c = '}' then .ok scope.closed
    else .error .missingSeparator
  | .closed, _ => .error .trailingInput

def advance (p : Place) (c : Char) : Except ParseError.Kind Place :=
  if isLegal c then p.step c else .error .illegalCharacter

section
variable (length : Nat)

/-- The error if a text of the given length ends at the place. -/
def atEnd : Place → Option ParseError
  | .start => some ⟨.missingOpeningBrace, none, length⟩
  | .closed => none
  | _ => some (.unterminatedAt length)

/-- The error that is met from the place on. -/
def fault : Place → List Lexeme → Option ParseError
  | p, [] => p.atEnd length
  | p, x :: s =>
    match p.advance x.char with
    | .ok q => q.fault s
    | .error kind => some (.ofLexeme kind x)

end
end Place

section
variable (length : Nat)

/-- The error of a reading, or else what `rest` says about the lexemes that it leaves. -/
def faultThen {α : Type} {s : List Lexeme} (r : Reading α s)
    (rest : List Lexeme → Option ParseError) : Option ParseError :=
  match r with
  | .error e => some e
  | .ok (_, t) => rest t.1

/-- The lexemes do not begin with a brace that closes an empty list. -/
def Unclosed (after : After) (s : List Lexeme) : Prop :=
  after = .opening → ∀ x ∈ s.head?, x.char ≠ '}'

/-- From the place before an element on, the reader of elements meets the same error. -/
def Meets {α : Type} (scope : Scope) (element : After → (s : List Lexeme) → Reading α s) : Prop :=
  ∀ after s, Unclosed after s → (Place.element scope after).fault length s =
    faultThen (element after s) ((Place.behind scope).fault length)

theorem unclosed_separator (s : List Lexeme) : Unclosed .separator s := by
  intro h
  cases h

theorem Unclosed.step_ne {after : After} {s : List Lexeme} (h : Unclosed after s) {x : Lexeme}
    {t : Shorter s} (hnext : next length s = .ok (x, t)) :
    ¬ (x.char = '}' ∧ after = .opening) := by
  obtain ⟨t, ht⟩ := t
  obtain ⟨rfl, _⟩ := (next_eq_ok length).mp hnext
  intro hclose
  exact h hclose.2 x rfl hclose.1

/-- The readers and the places take the next lexeme alike. -/
theorem fault_eq_next {p : Place} {s : List Lexeme}
    (hp : s = [] → p.atEnd length = some (.unterminatedAt length)) :
    p.fault length s =
      match next length s with
      | .error e => some e
      | .ok (x, t) =>
        match p.step x.char with
        | .ok q => q.fault length t.1
        | .error kind => some (.ofLexeme kind x) := by
  cases s with
  | nil => exact hp rfl
  | cons x s =>
    rw [Place.fault, next, Place.advance]
    by_cases hlegal : isLegal x.char = true
    · simp only [if_pos hlegal]
    · simp only [if_neg hlegal]

theorem fault_minus (s : List Lexeme) :
    Place.minus.fault length s =
      faultThen (varName length s) ((Place.behind .clause).fault length) := by
  rw [fault_eq_next length fun _ => rfl, varName]
  rcases next length s with e | ⟨x, t⟩
  · rfl
  · by_cases hletter : isLetter x.char = true
    · simp [Place.step, hletter, faultThen]
    · simp [Place.step, hletter, faultThen]

theorem meets_literal : Meets length .clause (literal length) := by
  intro after s hs
  rw [fault_eq_next length fun _ => rfl, literal]
  rcases hnext : next length s with e | ⟨x, t⟩
  · rfl
  · have hne := hs.step_ne length hnext
    by_cases hminus : x.char = '-'
    · have hstep : (Place.element .clause after).step x.char = .ok .minus := by
        simp [Place.step, hminus]
      simp only [hstep, if_pos hminus, fault_minus]
      rcases varName length t.1 with e | ⟨v, u⟩
      · rfl
      · rfl
    · by_cases hletter : isLetter x.char = true
      · simp [Place.step, hne, hminus, hletter, faultThen]
      · simp [Place.step, hne, hminus, hletter, faultThen, notAnElement_eq, Scope.expected]

section
variable {α : Type} {scope : Scope} {element : After → (s : List Lexeme) → Reading α s}
  (h : Meets length scope element)
include h

/-- The induction is on the number of lexemes, as the recursion of `elements` is. -/
theorem fault_elements {n : Nat} {after : After} {s : List Lexeme} (hn : s.length = n)
    (hs : Unclosed after s) :
    (Place.element scope after).fault length s =
      faultThen (elements length element after s) (scope.closed.fault length) := by
  induction n using Nat.strongRecOn generalizing after s with
  | ind n ih =>
    rw [h after s hs, elements]
    rcases element after s with e | ⟨a, r⟩
    · rfl
    · rw [faultThen, fault_eq_next length fun _ => rfl]
      dsimp only
      rcases next length r.1 with e | ⟨x, t⟩
      · rfl
      · by_cases hsep : isSeparator x.char = true
        · have hlt : t.1.length < n := hn ▸ Nat.lt_trans t.2 r.2
          simp only [Place.step, hsep, if_true, ih _ hlt rfl (unclosed_separator t.1)]
          rcases elements length element .separator t.1 with e | ⟨as, u⟩
          · rfl
          · rfl
        · by_cases hclose : x.char = '}'
          · simp [Place.step, isSeparator, hclose, faultThen, Shorter.trans]
          · simp [Place.step, hsep, hclose, faultThen]

theorem fault_list (s : List Lexeme) :
    (Place.element scope .opening).fault length s =
      faultThen (list length element s) (scope.closed.fault length) := by
  by_cases hs : Unclosed .opening s
  · rw [fault_elements length h rfl hs]
    cases s with
    | nil => rfl
    | cons x s => rw [list_cons length s (hs rfl x rfl)]
  · cases s with
    | nil => exact absurd (fun _ => by simp) hs
    | cons x s =>
      have hx : x.char = '}' := by simpa [Unclosed] using hs
      obtain ⟨c, offset⟩ := x
      obtain rfl : c = '}' := hx
      simp [Place.fault, Place.advance, Place.step, list, faultThen, isLegal]

/-- A place from which only an opening brace leads on, against a reader of lists in braces. -/
theorem fault_braced {β : Type} {p : Place} {f : List α → β} {fail : Lexeme → ParseError}
    {s : List Lexeme} (hp : s = [] → p.atEnd length = some (.unterminatedAt length))
    (hopen : p.step '{' = .ok (.element scope .opening))
    (hother : ∀ x t, next length s = .ok (x, t) → x.char ≠ '{' →
      ∃ kind, p.step x.char = .error kind ∧ fail x = .ofLexeme kind x) :
    p.fault length s =
      faultThen (braced length element f fail s) (scope.closed.fault length) := by
  rw [fault_eq_next length hp, braced]
  rcases hnext : next length s with e | ⟨x, t⟩
  · rfl
  · by_cases hx : x.char = '{'
    · simp only [hx, hopen, if_true, fault_list length h]
      rcases list length element t.1 with e | ⟨as, u⟩
      · rfl
      · rfl
    · obtain ⟨kind, hstep, hfail⟩ := hother x t hnext hx
      simp [hx, hstep, hfail, faultThen]

end

theorem meets_clause : Meets length .formula (clause length) := by
  intro after s hs
  rw [clause_eq_braced]
  apply fault_braced length (meets_literal length) fun _ => rfl
  · simp [Place.step]
  · intro x t hnext hx
    refine ⟨unexpected .expectedClause after x.char, ?_, notAnElement_eq _ _ _⟩
    simp [Place.step, hx, hs.step_ne length hnext, Scope.expected]

theorem fault_start {s : List Lexeme} (hs : s ≠ []) :
    Place.start.fault length s =
      faultThen (formula length s) (Place.closed.fault length) := by
  rw [formula_eq_braced length hs]
  apply fault_braced length (meets_clause length) fun h => absurd h hs
  · rfl
  · intro x t _ hx
    exact ⟨_, by simp [Place.step, hx], rfl⟩

/-- The readers find the error that is met on the way from place to place. -/
theorem whole_eq_error_iff {s : List Lexeme} {e : ParseError} :
    whole length s = .error e ↔ Place.start.fault length s = some e := by
  by_cases hs : s = []
  · subst hs
    simp [whole, formula, Place.fault, Place.atEnd]
  · rw [fault_start length hs, whole]
    rcases formula length s with e' | ⟨F, r⟩
    · simp [faultThen]
    · dsimp only [faultThen]
      rcases r.1 with _ | ⟨x, t⟩
      · simp [Place.fault, Place.atEnd]
      · by_cases hlegal : isLegal x.char = true
        · simp [Place.fault, Place.advance, Place.step, hlegal]
        · simp [Place.fault, Place.advance, hlegal]

end
end Clausal.Formula.Reader
