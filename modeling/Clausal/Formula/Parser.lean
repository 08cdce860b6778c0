import Clausal.Formula
import Clausal.Formula.ParseError
import Clausal.Text.Letter

/-!
# Reading formulas

    formula   := '{' '}' | '{' clause (separator clause)* '}'
    clause    := '{' '}' | '{' literal (separator literal)* '}'
    literal   := '-'? letter
    separator := ',' | ';'

Blanks stand anywhere. A reader takes a prefix of the lexemes and returns the rest, which is
shorter: this is why the loops end. A lexeme that is neither a letter nor one of the five signs is
an illegal character wherever it is read, and a reader that needs a lexeme and has none left finds
the formula unterminated; only a text without lexemes lacks the opening brace instead.
-/

set_option autoImplicit false

namespace Clausal.Formula

open Text (Lexeme isLetter)

namespace Reader

abbrev Shorter (s : List Lexeme) := { r : List Lexeme // r.length < s.length }

def Shorter.trans {s : List Lexeme} (r : Shorter s) (t : Shorter r.1) : Shorter s :=
  ⟨t.1, Nat.lt_trans t.2 r.2⟩

abbrev Reading (α : Type) (s : List Lexeme) := Except ParseError (α × Shorter s)

def isSeparator (c : Char) : Bool := c == ',' || c == ';'

def isLegal (c : Char) : Bool := c == '{' || c == '}' || isSeparator c || c == '-' || isLetter c

/-- What stands before an element of a list. -/
inductive After
  | opening
  | separator
deriving DecidableEq

/-- The error at a lexeme that cannot begin an element. -/
def notAnElement (expected : ParseError.Kind) (after : After) (x : Lexeme) : ParseError :=
  if isSeparator x.char then
    match after with
    | .opening => .ofLexeme .misplacedSeparator x
    | .separator => .ofLexeme .adjacentSeparators x
  else .ofLexeme expected x

section
variable (length : Nat)

/-- The next lexeme of a text of the given length. -/
def next (s : List Lexeme) : Reading Lexeme s :=
  match s with
  | [] => .error (.unterminatedAt length)
  | x :: rest =>
    if isLegal x.char then .ok (x, ⟨rest, by simp⟩) else .error (.ofLexeme .illegalCharacter x)

def varName (s : List Lexeme) : Reading Char s :=
  match next length s with
  | .error e => .error e
  | .ok (x, r) => if isLetter x.char then .ok (x.char, r) else .error (.ofLexeme .expectedVariable x)

def literal (after : After) (s : List Lexeme) : Reading Literal s :=
  match next length s with
  | .error e => .error e
  | .ok (x, r) =>
    if x.char = '-' then
      match varName length r.1 with
      | .error e => .error e
      | .ok (v, t) => .ok (.neg v, r.trans t)
    else if isLetter x.char then .ok (.pos x.char, r)
    else .error (notAnElement .expectedLiteral after x)

/-- Elements with separators between them, up to and including the closing brace. -/
def elements {α : Type} (element : After → (s : List Lexeme) → Reading α s) (after : After)
    (s : List Lexeme) : Reading (List α) s :=
  match element after s with
  | .error e => .error e
  | .ok (a, r) =>
    match next length r.1 with
    | .error e => .error e
    | .ok (x, t) =>
      if isSeparator x.char then
        match elements element .separator t.1 with
        | .error e => .error e
        | .ok (as, u) => .ok (a :: as, r.trans (t.trans u))
      else if x.char = '}' then .ok ([a], r.trans t)
      else .error (.ofLexeme .missingSeparator x)
termination_by s.length
decreasing_by
  have := r.2
  have := t.2
  omega

/-- What follows an opening brace: at once the closing brace, or elements. -/
def list {α : Type} (element : After → (s : List Lexeme) → Reading α s) (s : List Lexeme) :
    Reading (List α) s :=
  match s with
  | ⟨'}', _⟩ :: rest => .ok ([], ⟨rest, by simp⟩)
  | s => elements length element .opening s

def clause (after : After) (s : List Lexeme) : Reading Clause s :=
  match next length s with
  | .error e => .error e
  | .ok (x, r) =>
    if x.char = '{' then
      match list length (literal length) r.1 with
      | .error e => .error e
      | .ok (ls, t) => .ok (Clause.ofList ls, r.trans t)
    else .error (notAnElement .expectedClause after x)

def formula (s : List Lexeme) : Reading Formula s :=
  match s with
  | [] => .error ⟨.missingOpeningBrace, none, length⟩
  | s =>
    match next length s with
    | .error e => .error e
    | .ok (x, r) =>
      if x.char = '{' then
        match list length (clause length) r.1 with
        | .error e => .error e
        | .ok (cs, t) => .ok (Formula.ofList cs, r.trans t)
      else .error (.ofLexeme .missingOpeningBrace x)

/-- A formula and nothing after it. -/
def whole (s : List Lexeme) : Except ParseError Formula :=
  match formula length s with
  | .error e => .error e
  | .ok (F, r) =>
    match r.1 with
    | [] => .ok F
    | x :: _ =>
      .error (.ofLexeme (if isLegal x.char then .trailingInput else .illegalCharacter) x)

end
end Reader

def parse (text : String) : Except ParseError Formula :=
  Reader.whole text.utf8ByteSize (Text.lexemes 0 text.toList)

end Clausal.Formula
