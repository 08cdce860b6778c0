/-!
# Blanks and lexemes

A blank is a character with the property White_Space of the Unicode standard. The table lists the
maximal ranges of code points that have the property, in ascending order.

A lexeme is a character that is not blank, with its place in the text: the number of bytes that
the characters before it, blanks included, take in UTF-8.
-/

set_option autoImplicit false

namespace Clausal.Text

def blankRanges : List (Nat × Nat) := [
  (0x9, 0xd), (0x20, 0x20), (0x85, 0x85), (0xa0, 0xa0), (0x1680, 0x1680), (0x2000, 0x200a),
  (0x2028, 0x2029), (0x202f, 0x202f), (0x205f, 0x205f), (0x3000, 0x3000)
]

def isBlank (c : Char) : Bool :=
  blankRanges.any fun r => r.1 ≤ c.toNat && c.toNat ≤ r.2

structure Lexeme where
  char : Char
  offset : Nat
deriving DecidableEq

/-- The lexemes of a text that begins at the given offset. -/
def lexemes : Nat → List Char → List Lexeme
  | _, [] => []
  | offset, c :: cs =>
    if isBlank c then lexemes (offset + c.utf8Size) cs
    else ⟨c, offset⟩ :: lexemes (offset + c.utf8Size) cs

theorem map_char_lexemes (offset : Nat) (cs : List Char) :
    (lexemes offset cs).map Lexeme.char = cs.filter (!isBlank ·) := by
  induction cs generalizing offset with
  | nil => rfl
  | cons c cs ih =>
    unfold lexemes
    split
    · next h => simp [h, ih]
    · next h => simp [h, ih]

theorem lexemes_append (offset : Nat) (cs ds : List Char) :
    lexemes offset (cs ++ ds) =
      lexemes offset cs ++ lexemes (offset + (String.ofList cs).utf8ByteSize) ds := by
  induction cs generalizing offset with
  | nil => simp [lexemes]
  | cons c cs ih =>
    have hsize : (String.ofList (c :: cs)).utf8ByteSize =
        c.utf8Size + (String.ofList cs).utf8ByteSize := by simp [String.ofList_cons]
    rw [List.cons_append, lexemes, lexemes, hsize, ← Nat.add_assoc, ih]
    split
    · rfl
    · rfl

/-- A lexeme stands in the text at its offset, and those before it are the lexemes of the text that
precedes it. -/
theorem exists_of_lexemes_eq {offset : Nat} {cs : List Char} {before after : List Lexeme}
    {x : Lexeme} (h : lexemes offset cs = before ++ x :: after) :
    ∃ as bs, cs = as ++ x.char :: bs ∧ lexemes offset as = before ∧ isBlank x.char = false ∧
      x.offset = offset + (String.ofList as).utf8ByteSize := by
  induction cs generalizing offset before with
  | nil => simp [lexemes] at h
  | cons c cs ih =>
    have hsize : ∀ as, offset + c.utf8Size + (String.ofList as).utf8ByteSize =
        offset + (String.ofList (c :: as)).utf8ByteSize := by
      intro as
      simp [String.ofList_cons, Nat.add_assoc]
    rw [lexemes] at h
    split at h
    · next hblank =>
      obtain ⟨as, bs, rfl, has, hx, hoffset⟩ := ih h
      refine ⟨c :: as, bs, rfl, ?_, hx, hoffset.trans (hsize as)⟩
      rw [lexemes, if_pos hblank, has]
    · next hblank =>
      cases before with
      | nil =>
        obtain ⟨rfl, _⟩ := List.cons.inj h
        exact ⟨[], cs, rfl, rfl, by simpa using hblank, by simp⟩
      | cons y before =>
        obtain ⟨rfl, hrest⟩ := List.cons.inj h
        obtain ⟨as, bs, rfl, has, hx, hoffset⟩ := ih hrest
        refine ⟨c :: as, bs, rfl, ?_, hx, hoffset.trans (hsize as)⟩
        rw [lexemes, if_neg hblank, has]

end Clausal.Text
