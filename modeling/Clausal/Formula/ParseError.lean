import Clausal.Text.Lexeme

/-!
# Errors in the text of a formula

An error names what is wrong, the character where it shows, and that character's offset in bytes.
At the end of the text there is no character and the offset is the length of the text.
-/

set_option autoImplicit false

namespace Clausal

inductive ParseError.Kind
  | missingOpeningBrace
  | expectedClause
  | expectedLiteral
  | expectedVariable
  | adjacentSeparators
  | misplacedSeparator
  | missingSeparator
  | illegalCharacter
  | unterminated
  | trailingInput
deriving DecidableEq

structure ParseError where
  kind : ParseError.Kind
  found : Option Char
  position : Nat
deriving DecidableEq

namespace ParseError

/-- The error that shows at a lexeme. -/
def ofLexeme (kind : Kind) (x : Text.Lexeme) : ParseError := ⟨kind, some x.char, x.offset⟩

/-- The text ends, after `length` bytes, inside a formula. -/
def unterminatedAt (length : Nat) : ParseError := ⟨.unterminated, none, length⟩

def Kind.message : Kind → String
  | .missingOpeningBrace => "a formula must start with an opening brace `\x7b`"
  | .expectedClause => "expected a clause; every clause must be enclosed in braces"
  | .expectedLiteral => "expected a literal"
  | .expectedVariable => "expected a variable name (a single letter)"
  | .adjacentSeparators => "the separators `,` and `;` must not follow each other directly"
  | .misplacedSeparator => "a separator must follow an element"
  | .missingSeparator => "two elements must be separated by `,` or `;`"
  | .illegalCharacter => "illegal character"
  | .unterminated => "reached the end of the formula without a closing brace `\x7d`"
  | .trailingInput => "the formula was closed but input remains"

def message (e : ParseError) : String :=
  match e.found with
  | some c => s!"{e.kind.message}: found `{c}` at position {e.position}"
  | none => s!"{e.kind.message}: found end of input"

end ParseError
end Clausal
