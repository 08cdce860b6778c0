import Clausal.Formula.Parser
import Clausal.Proofs.Reading.Grammar

/-!
# What is read as a formula

A reader takes from the lexemes exactly one text of its rule and returns what is left. Texts of an
element never begin with a closing brace, so the brace that closes an empty list is told from an
element, and after an element the next lexeme decides whether there is another one. From the
literals up to the formula each reader is characterised by the readers that it calls.

The main statement: a text is read exactly if it is, without its blanks, a text of the grammar, and
it is read as what that text stands for.

This module does NOT say which error another text has.
-/

set_option autoImplicit false

namespace Clausal.Formula.Reader

open Text (Lexeme isLetter isBlank lexemes)
open Grammar

def chars (s : List Lexeme) : List Char := s.map Lexeme.char

@[simp] theorem chars_cons (x : Lexeme) (s : List Lexeme) : chars (x :: s) = x.char :: chars s :=
  rfl

@[simp] theorem chars_append (s t : List Lexeme) : chars (s ++ t) = chars s ++ chars t :=
  List.map_append

theorem chars_eq_cons {s : List Lexeme} {c : Char} {cs : List Char} (h : chars s = c :: cs) :
    ∃ x t, s = x :: t ∧ x.char = c ∧ chars t = cs :=
  List.map_eq_cons_iff.mp h

theorem chars_eq_append {s : List Lexeme} {cs ds : List Char} (h : chars s = cs ++ ds) :
    ∃ t u, s = t ++ u ∧ chars t = cs ∧ chars u = ds :=
  List.map_eq_append_iff.mp h

/-- The reader returns `a` after a text that stands for it in the rule `item`. -/
def Reads {α : Type} (element : After → (s : List Lexeme) → Reading α s)
    (item : List Char → α → Prop) : Prop :=
  ∀ after s a r (hr : r.length < s.length), element after s = .ok (a, ⟨r, hr⟩) ↔
    ∃ p, item (chars p) a ∧ s = p ++ r

theorem isLegal_of_isLetter {c : Char} (h : isLetter c = true) : isLegal c = true := by
  simp [isLegal, h]

theorem isSeparator_iff {c : Char} : isSeparator c = true ↔ c = ',' ∨ c = ';' := by
  simp [isSeparator]

theorem isLegal_of_isSeparator {c : Char} (h : isSeparator c = true) : isLegal c = true := by
  simp [isLegal, h]

section
variable (length : Nat)

/-- What `clause` and `formula` have in common: an opening brace and the list behind it. -/
def braced {α β : Type} (element : After → (s : List Lexeme) → Reading α s) (f : List α → β)
    (fail : Lexeme → ParseError) (s : List Lexeme) : Reading β s :=
  match next length s with
  | .error e => .error e
  | .ok (x, r) =>
    if x.char = '{' then
      match list length element r.1 with
      | .error e => .error e
      | .ok (as, t) => .ok (f as, r.trans t)
    else .error (fail x)

theorem clause_eq_braced (after : After) (s : List Lexeme) :
    clause length after s =
      braced length (literal length) Clause.ofList (notAnElement .expectedClause after) s := by
  unfold clause braced
  rcases next length s with e | ⟨x, r⟩
  · rfl
  · dsimp only
    rcases list length (literal length) r.1 with e | ⟨ls, t⟩ <;> rfl

theorem formula_eq_braced {s : List Lexeme} (hs : s ≠ []) :
    formula length s =
      braced length (clause length) Formula.ofList (.ofLexeme .missingOpeningBrace) s := by
  rw [formula]
  · unfold braced
    rcases next length s with e | ⟨x, r⟩
    · rfl
    · dsimp only
      rcases list length (clause length) r.1 with e | ⟨cs, t⟩ <;> rfl
  · exact hs

theorem next_eq_ok {s r : List Lexeme} {x : Lexeme} {hr : r.length < s.length} :
    next length s = .ok (x, ⟨r, hr⟩) ↔ s = x :: r ∧ isLegal x.char = true := by
  cases s with
  | nil => simp [next]
  | cons y rest =>
    by_cases hlegal : isLegal y.char = true
    · simp only [next, hlegal, if_true, Except.ok.injEq, Prod.mk.injEq, Subtype.mk.injEq,
        List.cons.injEq]
      constructor
      · rintro ⟨rfl, rfl⟩
        exact ⟨⟨rfl, rfl⟩, hlegal⟩
      · exact And.left
    · simp only [next, hlegal, if_false, reduceCtorEq, List.cons.injEq, false_iff]
      rintro ⟨⟨rfl, _⟩, hx⟩
      exact hlegal hx

theorem next_cons {x : Lexeme} (s : List Lexeme) (h : isLegal x.char = true) :
    next length (x :: s) = .ok (x, ⟨s, Nat.lt_succ_self _⟩) :=
  (next_eq_ok length).mpr ⟨rfl, h⟩

theorem varName_eq_ok {s r : List Lexeme} {c : Char} {hr : r.length < s.length} :
    varName length s = .ok (c, ⟨r, hr⟩) ↔
      ∃ x, s = x :: r ∧ x.char = c ∧ isLetter c = true := by
  unfold varName
  constructor
  · intro h
    split at h
    · cases h
    · next x t hnext =>
      split at h
      · next hx =>
        cases h
        exact ⟨x, ((next_eq_ok length).mp hnext).1, rfl, hx⟩
      · cases h
  · rintro ⟨x, rfl, rfl, hx⟩
    rw [next_cons length r (isLegal_of_isLetter hx)]
    simp [hx]

theorem reads_literal : Reads (literal length) IsLiteral := by
  intro after s l r hr
  unfold literal
  constructor
  · intro h
    split at h
    · cases h
    · next x t hnext =>
      have hs := ((next_eq_ok length).mp hnext).1
      split at h
      · next hminus =>
        split at h
        · cases h
        · next v u hvar =>
          cases h
          obtain ⟨y, ht, rfl, hy⟩ := (varName_eq_ok length).mp hvar
          refine ⟨[x, y], ?_, hs.trans (congrArg (x :: ·) ht)⟩
          simpa [chars, hminus] using IsLiteral.neg hy
      · split at h
        · next hx =>
          cases h
          exact ⟨[x], .pos hx, hs⟩
        · cases h
  · rintro ⟨p, hp, rfl⟩
    generalize hcs : chars p = cs at hp
    cases hp with
    | pos hx =>
      obtain ⟨x, t, rfl, rfl, ht⟩ := chars_eq_cons hcs
      obtain rfl : t = [] := List.map_eq_nil_iff.mp ht
      have hminus : x.char ≠ '-' := ne_of_isLetter hx (by decide +kernel)
      have hnext := next_cons length r (isLegal_of_isLetter hx)
      simp [hnext, hminus, hx]
    | neg hx =>
      obtain ⟨x, t, rfl, hminus, ht⟩ := chars_eq_cons hcs
      obtain ⟨y, u, rfl, rfl, hu⟩ := chars_eq_cons ht
      obtain rfl : u = [] := List.map_eq_nil_iff.mp hu
      have hnext := next_cons length (y :: r) (x := x) (by simp [hminus, isLegal])
      have hvar : varName length (y :: r) = .ok (y.char, ⟨r, by simp⟩) :=
        (varName_eq_ok length).mpr ⟨y, rfl, rfl, hx⟩
      simp [hnext, hminus, hvar, Shorter.trans]

section
variable {α : Type} {element : After → (s : List Lexeme) → Reading α s}
  {item : List Char → α → Prop} (h : Reads element item)
include h

/-- The induction is on the number of lexemes, as the recursion of `elements` is. -/
theorem exists_isSequence_of_elements {n : Nat} {after : After} {s r : List Lexeme} {as : List α}
    {hr : r.length < s.length} (hn : s.length = n)
    (hs : elements length element after s = .ok (as, ⟨r, hr⟩)) :
    ∃ p y, IsSequence item (chars p) as ∧ y.char = '}' ∧ s = p ++ y :: r := by
  induction n using Nat.strongRecOn generalizing after s r as with
  | ind n ih =>
    rw [elements] at hs
    split at hs
    · cases hs
    · next a t hitem =>
      obtain ⟨t, ht⟩ := t
      obtain ⟨p, hp, rfl⟩ := (h _ _ _ _ ht).mp hitem
      dsimp only at hs
      split at hs
      · cases hs
      · next x u hnext =>
        obtain ⟨u, hu⟩ := u
        obtain ⟨rfl, _⟩ := (next_eq_ok length).mp hnext
        dsimp only at hs
        -- Behind an element stands a separator and the next element, or the closing brace.
        split at hs
        · next hsep =>
          split at hs
          · cases hs
          · next as' w hrest =>
            obtain ⟨w, hw⟩ := w
            cases hs
            have hlt : u.length < n := hn ▸ Nat.lt_trans hu ht
            obtain ⟨q, y, hq, hy, rfl⟩ := ih u.length hlt rfl hrest
            refine ⟨p ++ x :: q, y, ?_, hy, by simp [Shorter.trans]⟩
            rw [chars_append, chars_cons]
            exact .cons hp (isSeparator_iff.mp hsep) hq
        · split at hs
          · next hbrace =>
            cases hs
            exact ⟨p, x, .single hp, hbrace, rfl⟩
          · cases hs

theorem isBraced_of_list {s r : List Lexeme} {as : List α} {hr : r.length < s.length}
    (hs : list length element s = .ok (as, ⟨r, hr⟩)) :
    ∃ p, IsBraced item ('{' :: chars p) as ∧ s = p ++ r := by
  unfold list at hs
  split at hs
  · next offset rest =>
    cases hs
    exact ⟨[⟨'}', offset⟩], .empty, rfl⟩
  · obtain ⟨p, y, hseq, hy, rfl⟩ := exists_isSequence_of_elements length h rfl hs
    refine ⟨p ++ [y], ?_, by simp⟩
    rw [chars_append, chars_cons, hy]
    exact .sequence hseq

omit h in
theorem list_cons {x : Lexeme} (s : List Lexeme) (hx : x.char ≠ '}') :
    list length element (x :: s) = elements length element .opening (x :: s) := by
  rw [list]
  rintro offset rest heq
  cases heq
  exact hx rfl

omit h
variable (hopens : Opens item)
include hopens

theorem length_lt_append {p : List Lexeme} {a : α} (hp : item (chars p) a) (s : List Lexeme) :
    s.length < (p ++ s).length := by
  obtain ⟨c, ds, hcs, _⟩ := hopens _ _ hp
  obtain ⟨x, t, rfl, _, _⟩ := chars_eq_cons hcs
  simp only [List.cons_append, List.length_cons, List.length_append]
  omega

include h

/-- The induction is on the text, one item after the other. -/
theorem elements_eq_of_isSequence {cs : List Char} {as : List α} (hcs : IsSequence item cs as)
    {p : List Lexeme} (hp : chars p = cs) {y : Lexeme} (hy : y.char = '}') {s r : List Lexeme}
    (hs : s = p ++ y :: r) (after : After) (hr : r.length < s.length) :
    elements length element after s = .ok (as, ⟨r, hr⟩) := by
  induction hcs generalizing p s after with
  | single hitem =>
    subst hp hs
    have hlt := length_lt_append hopens hitem (y :: r)
    have helement := (h after _ _ _ hlt).mpr ⟨p, hitem, rfl⟩
    have hnext := next_cons length r (x := y) (by simp [hy, isLegal])
    rw [elements, helement]
    simp [hnext, hy, isSeparator, Shorter.trans]
  | cons hitem hsep _ ih =>
    obtain ⟨p, q, rfl, rfl, hq⟩ := chars_eq_append hp
    obtain ⟨x, q, rfl, rfl, rfl⟩ := chars_eq_cons hq
    rw [List.append_assoc, List.cons_append] at hs
    subst hs
    have hsep := isSeparator_iff.mpr hsep
    have hlt := length_lt_append hopens hitem (x :: (q ++ y :: r))
    have helement := (h after _ _ _ hlt).mpr ⟨p, hitem, rfl⟩
    have hnext := next_cons length (q ++ y :: r) (isLegal_of_isSeparator hsep)
    have hrest := ih rfl rfl .separator (by simp; omega)
    rw [elements, helement]
    simp [hnext, hsep, hrest, Shorter.trans]

theorem list_eq_of_isBraced {p s r : List Lexeme} {as : List α}
    (hp : IsBraced item ('{' :: chars p) as) (hs : s = p ++ r) (hr : r.length < s.length) :
    list length element s = .ok (as, ⟨r, hr⟩) := by
  generalize hcs : '{' :: chars p = cs at hp
  cases hp with
  | empty =>
    obtain ⟨⟨c, offset⟩, t, rfl, rfl, ht⟩ := chars_eq_cons (List.cons.inj hcs).2
    obtain rfl : t = [] := List.map_eq_nil_iff.mp ht
    subst hs
    rfl
  | sequence hseq =>
    obtain ⟨p, t, rfl, rfl, ht⟩ := chars_eq_append (List.cons.inj hcs).2
    obtain ⟨y, t, rfl, hy, ht⟩ := chars_eq_cons ht
    obtain rfl : t = [] := List.map_eq_nil_iff.mp ht
    have helements := elements_eq_of_isSequence length h hopens hseq rfl hy
      (hs.trans (by simp)) .opening hr
    -- The first element does not begin with a closing brace, so the list is not taken for empty.
    obtain ⟨c, ds, hc, hne⟩ := hopens.isSequence _ _ hseq
    obtain ⟨x, q, rfl, rfl, _⟩ := chars_eq_cons hc
    subst hs
    exact (list_cons length _ hne).trans helements

/-- The text of a list is an opening brace and what is read as its rest. -/
theorem isBraced_iff_list {s r : List Lexeme} {as : List α} :
    (∃ p, IsBraced item (chars p) as ∧ s = p ++ r) ↔
      ∃ x t hr, s = x :: t ∧ x.char = '{' ∧ list length element t = .ok (as, ⟨r, hr⟩) := by
  constructor
  · rintro ⟨p, hp, rfl⟩
    obtain ⟨c, ds, hds⟩ := hp.exists_cons
    obtain ⟨x, t, rfl, hx, ht⟩ := chars_eq_cons hds
    obtain ⟨y, u, rfl, _, _⟩ := chars_eq_cons ht
    have hr : r.length < (y :: u ++ r).length := by
      simp only [List.cons_append, List.length_cons, List.length_append]
      omega
    rw [chars_cons, hx] at hp
    exact ⟨x, y :: u ++ r, hr, rfl, hx, list_eq_of_isBraced length h hopens hp rfl hr⟩
  · rintro ⟨x, t, hr, rfl, hx, hlist⟩
    obtain ⟨p, hp, rfl⟩ := isBraced_of_list length h hlist
    exact ⟨x :: p, by rwa [chars_cons, hx], rfl⟩

theorem braced_eq_ok {β : Type} (f : List α → β) (fail : Lexeme → ParseError)
    {s r : List Lexeme} {b : β} {hr : r.length < s.length} :
    braced length element f fail s = .ok (b, ⟨r, hr⟩) ↔
      ∃ p, Image (IsBraced item) f (chars p) b ∧ s = p ++ r := by
  unfold braced
  constructor
  · intro hs
    split at hs
    · cases hs
    · next x t hnext =>
      obtain ⟨t, ht⟩ := t
      obtain ⟨rfl, _⟩ := (next_eq_ok length).mp hnext
      dsimp only at hs
      split at hs
      · next hx =>
        split at hs
        · cases hs
        · next as u hlist =>
          obtain ⟨u, hu⟩ := u
          cases hs
          obtain ⟨p, hp, hs⟩ :=
            (isBraced_iff_list length h hopens).mpr ⟨x, t, hu, rfl, hx, hlist⟩
          exact ⟨p, ⟨as, hp, rfl⟩, hs⟩
      · cases hs
  · rintro ⟨p, ⟨as, hp, rfl⟩, hs⟩
    obtain ⟨x, t, hu, rfl, hx, hlist⟩ := (isBraced_iff_list length h hopens).mp ⟨p, hp, hs⟩
    have hnext := next_cons length t (x := x) (by simp [hx, isLegal])
    simp [hnext, hx, hlist, Shorter.trans]

end

theorem reads_clause : Reads (clause length) (Image IsClause Clause.ofList) := by
  intro after s c r hr
  rw [clause_eq_braced]
  exact braced_eq_ok length (reads_literal length) opens_isLiteral _ _

theorem opens_clause : Opens (Image IsClause Clause.ofList) := (opens_isBraced IsLiteral).image

theorem formula_eq_ok {s r : List Lexeme} {F : Formula} {hr : r.length < s.length} :
    formula length s = .ok (F, ⟨r, hr⟩) ↔
      ∃ p, Image (IsBraced (Image IsClause Clause.ofList)) Formula.ofList (chars p) F ∧
        s = p ++ r := by
  have hne : s ≠ [] := List.ne_nil_of_length_pos (Nat.lt_of_le_of_lt (Nat.zero_le _) hr)
  rw [formula_eq_braced length hne]
  exact braced_eq_ok length (reads_clause length) opens_clause _ _

theorem whole_eq_ok {s : List Lexeme} {F : Formula} :
    whole length s = .ok F ↔
      Image (IsBraced (Image IsClause Clause.ofList)) Formula.ofList (chars s) F := by
  unfold whole
  constructor
  · intro h
    split at h
    · cases h
    · next G r hformula =>
      obtain ⟨r, hr⟩ := r
      dsimp only at h
      split at h
      · cases h
        obtain ⟨p, hp, rfl⟩ := (formula_eq_ok length).mp hformula
        rwa [List.append_nil]
      · cases h
  · intro h
    have hne : 0 < s.length := by
      obtain ⟨cs, hcs, _⟩ := h
      obtain ⟨c, ds, hds⟩ := hcs.exists_cons
      obtain ⟨x, t, rfl, _, _⟩ := chars_eq_cons hds
      exact Nat.zero_lt_succ _
    have hformula : formula length s = .ok (F, ⟨[], hne⟩) :=
      (formula_eq_ok length).mpr ⟨s, h, s.append_nil.symm⟩
    rw [hformula]

end
end Reader

open Text (isBlank)
open Grammar

theorem parse_eq_ok {text : String} {F : Formula} :
    parse text = .ok F ↔ ∃ clauses, IsFormula (text.toList.filter (!isBlank ·)) clauses ∧
      Formula.ofList (clauses.map Clause.ofList) = F := by
  have hchars : Reader.chars (Text.lexemes 0 text.toList) = text.toList.filter (!isBlank ·) :=
    Text.map_char_lexemes 0 text.toList
  rw [parse, Reader.whole_eq_ok, hchars]
  constructor
  · rintro ⟨cs, hcs, rfl⟩
    obtain ⟨clauses, hclauses, rfl⟩ := isBraced_image_iff.mp hcs
    exact ⟨clauses, hclauses, rfl⟩
  · rintro ⟨clauses, hclauses, rfl⟩
    exact ⟨_, isBraced_image_iff.mpr ⟨clauses, hclauses, rfl⟩, rfl⟩

/-- A text is read exactly if its characters without the blanks form a text of the grammar, and it
is read as the formula of the clauses that are written there. -/
theorem parse_iff_isFormula (text : String) :
    ((∃ F, parse text = .ok F) ↔
      ∃ clauses, IsFormula (text.toList.filter (!isBlank ·)) clauses) ∧
    ∀ clauses, IsFormula (text.toList.filter (!isBlank ·)) clauses →
      parse text = .ok (Formula.ofList (clauses.map Clause.ofList)) := by
  refine ⟨⟨?_, ?_⟩, ?_⟩
  · rintro ⟨F, hF⟩
    obtain ⟨clauses, hclauses, _⟩ := parse_eq_ok.mp hF
    exact ⟨clauses, hclauses⟩
  · rintro ⟨clauses, hclauses⟩
    exact ⟨_, parse_eq_ok.mpr ⟨clauses, hclauses, rfl⟩⟩
  · intro clauses hclauses
    exact parse_eq_ok.mpr ⟨clauses, hclauses, rfl⟩

end Clausal.Formula
