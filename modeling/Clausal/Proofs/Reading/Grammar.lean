import Clausal.Formula
import Clausal.Text.Letter

/-!
# The grammar of formulas

    formula   := '{' '}' | '{' clause (separator clause)* '}'
    clause    := '{' '}' | '{' literal (separator literal)* '}'
    literal   := '-'? letter
    separator := ',' | ';'

Each rule is a relation between a text without blanks and what it stands for. A clause stands for
the list of its literals and a formula for the list of its clauses, both as written, so repeated
elements are still there.

This module does NOT mention how texts are read.
-/

set_option autoImplicit false

namespace Clausal.Grammar

open Text (isLetter)

inductive IsLiteral : List Char → Literal → Prop
  | pos {x : Char} (h : isLetter x = true) : IsLiteral [x] (.pos x)
  | neg {x : Char} (h : isLetter x = true) : IsLiteral ['-', x] (.neg x)

section
variable {α : Type} (item : List Char → α → Prop)

/-- Items with separators between them. -/
inductive IsSequence : List Char → List α → Prop
  | single {cs : List Char} {a : α} (h : item cs a) : IsSequence cs [a]
  | cons {cs ds : List Char} {sep : Char} {a : α} {as : List α} (h : item cs a)
      (hsep : sep = ',' ∨ sep = ';') (hrest : IsSequence ds as) :
      IsSequence (cs ++ sep :: ds) (a :: as)

inductive IsBraced : List Char → List α → Prop
  | empty : IsBraced ['{', '}'] []
  | sequence {cs : List Char} {as : List α} (h : IsSequence item cs as) :
      IsBraced ('{' :: (cs ++ ['}'])) as

end

def IsClause : List Char → List Literal → Prop := IsBraced IsLiteral

def IsFormula : List Char → List (List Literal) → Prop := IsBraced IsClause

/-- No text of an item is empty or begins with a closing brace. -/
def Opens {α : Type} (item : List Char → α → Prop) : Prop :=
  ∀ cs a, item cs a → ∃ c ds, cs = c :: ds ∧ c ≠ '}'

theorem ne_of_isLetter {x c : Char} (hx : isLetter x = true) (hc : isLetter c = false) :
    x ≠ c := by
  rintro rfl
  simp [hx] at hc

theorem opens_isLiteral : Opens IsLiteral := by
  intro cs l h
  cases h with
  | pos hx => exact ⟨_, _, rfl, ne_of_isLetter hx (by decide +kernel)⟩
  | neg => exact ⟨_, _, rfl, by decide⟩

theorem IsBraced.exists_cons {α : Type} {item : List Char → α → Prop} {cs : List Char}
    {as : List α} (h : IsBraced item cs as) : ∃ c ds, cs = '{' :: c :: ds := by
  cases h with
  | empty => exact ⟨_, _, rfl⟩
  | @sequence cs =>
    obtain ⟨c, ds, hds⟩ := List.exists_cons_of_ne_nil (List.append_ne_nil_of_right_ne_nil cs
      (List.cons_ne_nil '}' []))
    exact ⟨c, ds, by rw [hds]⟩

theorem opens_isBraced {α : Type} (item : List Char → α → Prop) : Opens (IsBraced item) := by
  intro cs as h
  obtain ⟨c, ds, rfl⟩ := h.exists_cons
  exact ⟨_, _, rfl, by decide⟩

theorem Opens.isSequence {α : Type} {item : List Char → α → Prop} (h : Opens item) :
    Opens (IsSequence item) := by
  intro cs as hcs
  cases hcs with
  | single hitem => exact h _ _ hitem
  | cons hitem =>
    obtain ⟨c, ds, rfl, hc⟩ := h _ _ hitem
    exact ⟨c, _, rfl, hc⟩

section
variable {α β : Type} {item : List Char → α → Prop} {f : α → β} {cs : List Char}

/-- The items as they are evaluated by `f`. -/
def Image (item : List Char → α → Prop) (f : α → β) (cs : List Char) (b : β) : Prop :=
  ∃ a, item cs a ∧ f a = b

theorem isSequence_image_iff {bs : List β} :
    IsSequence (Image item f) cs bs ↔ ∃ as, IsSequence item cs as ∧ as.map f = bs := by
  constructor
  · intro h
    induction h with
    | single h =>
      obtain ⟨a, ha, rfl⟩ := h
      exact ⟨[a], .single ha, rfl⟩
    | cons h hsep _ ih =>
      obtain ⟨a, ha, rfl⟩ := h
      obtain ⟨as, has, rfl⟩ := ih
      exact ⟨a :: as, .cons ha hsep has, rfl⟩
  · rintro ⟨as, has, rfl⟩
    induction has with
    | single ha => exact .single ⟨_, ha, rfl⟩
    | cons ha hsep _ ih => exact .cons ⟨_, ha, rfl⟩ hsep ih

theorem isBraced_image_iff {bs : List β} :
    IsBraced (Image item f) cs bs ↔ ∃ as, IsBraced item cs as ∧ as.map f = bs := by
  constructor
  · intro h
    cases h with
    | empty => exact ⟨[], .empty, rfl⟩
    | sequence h =>
      obtain ⟨as, has, hmap⟩ := isSequence_image_iff.mp h
      exact ⟨as, .sequence has, hmap⟩
  · rintro ⟨as, has, rfl⟩
    cases has with
    | empty => exact .empty
    | sequence has => exact .sequence (isSequence_image_iff.mpr ⟨as, has, rfl⟩)

theorem Opens.image (h : Opens item) : Opens (Image item f) := by
  rintro cs b ⟨a, ha, _⟩
  exact h cs a ha

end
end Clausal.Grammar
