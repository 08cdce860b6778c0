import Clausal.Proofs.Reading.EarliestError

/-!
# Which error a text has

A place was introduced as what is left open on the way through a text. Here the places are told by
the grammar: `Stands` says, for each of the nine, which texts without blanks lead up to it, as
sequences of complete clauses and literals behind the braces that are open. The kind of an error
depends on this place and on the character that cannot stand there, and `Misfit` lists how.

The main statement: a text has an error exactly if it stops before the end of a formula or holds a
character that does not fit where it stands, and the kind of the error is the one listed.
-/

set_option autoImplicit false

namespace Clausal

open Text (isLetter isBlank lexemes)

namespace Grammar

variable {α : Type} {item : List Char → α → Prop} {cs ds : List Char} {as : List α} {a : α}

theorem IsSequence.snoc (h : IsSequence item cs as) {sep : Char} (hsep : sep = ',' ∨ sep = ';')
    (ha : item ds a) : IsSequence item (cs ++ sep :: ds) (as ++ [a]) := by
  induction h with
  | single hb => exact .cons hb hsep (.single ha)
  | cons hb hsep' _ ih =>
    rw [List.append_assoc]
    exact .cons hb hsep' ih

end Grammar

namespace Formula.Reader

open Grammar

section
variable {α : Type} (item : List Char → α → Prop) (pre : List Char)

/-- Behind `pre` a list was opened, and the next item of it is to come. -/
inductive Awaits : After → List Char → Prop
  | opening : Awaits .opening (pre ++ ['{'])
  | separator {cs : List Char} {as : List α} {sep : Char} (h : IsSequence item cs as)
      (hsep : sep = ',' ∨ sep = ';') : Awaits .separator (pre ++ '{' :: (cs ++ [sep]))

end

/-- The text leads up to the place. -/
inductive Stands : Place → List Char → Prop
  | start : Stands .start []
  | clause {after : After} {cs : List Char} (h : Awaits IsClause [] after cs) :
      Stands (.element .formula after) cs
  | literal {before after : After} {pre cs : List Char} (hpre : Awaits IsClause [] before pre)
      (h : Awaits IsLiteral pre after cs) : Stands (.element .clause after) cs
  | minus {before after : After} {pre cs : List Char} (hpre : Awaits IsClause [] before pre)
      (h : Awaits IsLiteral pre after cs) : Stands .minus (cs ++ ['-'])
  | behindLiteral {before : After} {pre cs : List Char} {ls : List Literal}
      (hpre : Awaits IsClause [] before pre) (h : IsSequence IsLiteral cs ls) :
      Stands (.behind .clause) (pre ++ '{' :: cs)
  | behindClause {cs : List Char} {clauses : List (List Literal)}
      (h : IsSequence IsClause cs clauses) : Stands (.behind .formula) ('{' :: cs)
  | closed {cs : List Char} {clauses : List (List Literal)} (h : IsFormula cs clauses) :
      Stands .closed cs

/-- The character leads from the one place to the other. -/
inductive Goes : Place → Char → Place → Prop
  | start : Goes .start '{' (.element .formula .opening)
  | clause {after : After} : Goes (.element .formula after) '{' (.element .clause .opening)
  | minus {after : After} : Goes (.element .clause after) '-' .minus
  | letter {after : After} {c : Char} (h : isLetter c = true) :
      Goes (.element .clause after) c (.behind .clause)
  | var {c : Char} (h : isLetter c = true) : Goes .minus c (.behind .clause)
  | separator {scope : Scope} {c : Char} (h : isSeparator c = true) :
      Goes (.behind scope) c (.element scope .separator)
  | close {scope : Scope} : Goes (.behind scope) '}' scope.closed
  | closeEmpty {scope : Scope} : Goes (.element scope .opening) '}' scope.closed

/-- An element can begin with the character. -/
def Scope.Begins : Scope → Char → Prop
  | .formula, c => c = '{'
  | .clause, c => c = '-' ∨ isLetter c = true

/-- The kind of error at a character that cannot stand at the place. -/
inductive Misfit : Place → Char → ParseError.Kind → Prop
  | illegal {p : Place} {c : Char} (h : isLegal c = false) : Misfit p c .illegalCharacter
  | start {c : Char} (h : isLegal c = true) (hc : c ≠ '{') :
      Misfit .start c .missingOpeningBrace
  | closed {c : Char} (h : isLegal c = true) : Misfit .closed c .trailingInput
  | misplaced {scope : Scope} {c : Char} (h : isSeparator c = true) :
      Misfit (.element scope .opening) c .misplacedSeparator
  | adjacent {scope : Scope} {c : Char} (h : isSeparator c = true) :
      Misfit (.element scope .separator) c .adjacentSeparators
  | element {scope : Scope} {after : After} {c : Char} (h : isLegal c = true)
      (hsep : isSeparator c = false) (hbegin : ¬ scope.Begins c)
      (hclose : c = '}' → after = .separator) : Misfit (.element scope after) c scope.expected
  | minus {c : Char} (h : isLegal c = true) (hc : isLetter c = false) :
      Misfit .minus c .expectedVariable
  | behind {scope : Scope} {c : Char} (h : isLegal c = true) (hsep : isSeparator c = false)
      (hc : c ≠ '}') : Misfit (.behind scope) c .missingSeparator

theorem isLetter_eq_false_of_isSeparator {c : Char} (h : isSeparator c = true) :
    isLetter c = false := by
  rcases isSeparator_iff.mp h with rfl | rfl
  · decide +kernel
  · decide +kernel

section
variable {p q : Place} {c : Char} {kind : ParseError.Kind}

theorem Goes.advance_eq (h : Goes p c q) : p.advance c = .ok q := by
  cases h with
  | start => rfl
  | @clause after => simp [Place.advance, Place.step, isLegal]
  | minus => simp [Place.advance, Place.step, isLegal]
  | letter hc =>
    have hclose : c ≠ '}' := ne_of_isLetter hc (by decide +kernel)
    have hminus : c ≠ '-' := ne_of_isLetter hc (by decide +kernel)
    simp [Place.advance, Place.step, isLegal_of_isLetter hc, hclose, hminus, hc]
  | var hc => simp [Place.advance, Place.step, isLegal_of_isLetter hc, hc]
  | separator hc => simp [Place.advance, Place.step, isLegal_of_isSeparator hc, hc]
  | close => simp [Place.advance, Place.step, isLegal, isSeparator]
  | closeEmpty => simp [Place.advance, Place.step, isLegal]

theorem not_begins_of_isSeparator (h : isSeparator c = true) (scope : Scope) :
    ¬ scope.Begins c := by
  cases scope with
  | formula =>
    rintro rfl
    cases h
  | clause =>
    rintro (rfl | hletter)
    · cases h
    · simp [isLetter_eq_false_of_isSeparator h] at hletter

/-- Where an element is to come, what cannot begin one and does not close the list is an error. -/
theorem step_element {scope : Scope} {after : After} (hbegin : ¬ scope.Begins c)
    (hclose : c = '}' → after = .separator) :
    (Place.element scope after).step c = .error (unexpected scope.expected after c) := by
  have hne : ¬ (c = '}' ∧ after = .opening) := by
    rintro ⟨hc, rfl⟩
    cases hclose hc
  cases scope with
  | formula =>
    have hc : c ≠ '{' := hbegin
    simp [Place.step, hne, hc]
  | clause =>
    obtain ⟨hc, hletter⟩ : c ≠ '-' ∧ isLetter c = false := by simpa [Scope.Begins] using hbegin
    simp [Place.step, hne, hc, hletter]

theorem Misfit.advance_eq (h : Misfit p c kind) : p.advance c = .error kind := by
  cases h with
  | illegal h => simp [Place.advance, h]
  | start h hc => simp [Place.advance, Place.step, h, hc]
  | closed h => simp [Place.advance, Place.step, h]
  | @misplaced scope _ h =>
    have hclose : c = '}' → After.opening = .separator := by
      rintro rfl
      cases h
    have hstep := step_element (not_begins_of_isSeparator h scope) hclose
    simp [Place.advance, isLegal_of_isSeparator h, hstep, unexpected, h]
  | @adjacent scope _ h =>
    have hclose : c = '}' → After.separator = .separator := fun _ => rfl
    have hstep := step_element (not_begins_of_isSeparator h scope) hclose
    simp [Place.advance, isLegal_of_isSeparator h, hstep, unexpected, h]
  | element h hsep hbegin hclose =>
    have hstep := step_element hbegin hclose
    simp [Place.advance, h, hstep, unexpected, hsep]
  | minus h hc => simp [Place.advance, Place.step, h, hc]
  | behind h hsep hc => simp [Place.advance, Place.step, h, hsep, hc]

theorem goes_or_misfit_element (scope : Scope) (after : After) (hlegal : isLegal c = true) :
    (∃ q, Goes (.element scope after) c q) ∨ ∃ kind, Misfit (.element scope after) c kind := by
  by_cases hsep : isSeparator c = true
  · cases after with
    | opening => exact .inr ⟨_, .misplaced hsep⟩
    | separator => exact .inr ⟨_, .adjacent hsep⟩
  · have hsep : isSeparator c = false := by simpa using hsep
    by_cases hbegin : scope.Begins c
    · cases scope with
      | formula =>
        obtain rfl : c = '{' := hbegin
        exact .inl ⟨_, .clause⟩
      | clause =>
        rcases hbegin with rfl | hletter
        · exact .inl ⟨_, .minus⟩
        · exact .inl ⟨_, .letter hletter⟩
    · by_cases hclose : c = '}' ∧ after = .opening
      · obtain ⟨rfl, rfl⟩ := hclose
        exact .inl ⟨_, .closeEmpty⟩
      · refine .inr ⟨_, .element hlegal hsep hbegin fun hc => ?_⟩
        cases after with
        | opening => exact absurd ⟨hc, rfl⟩ hclose
        | separator => rfl

/-- The lists of what goes on and of what does not are complete. -/
theorem goes_or_misfit (p : Place) (c : Char) :
    (∃ q, Goes p c q) ∨ ∃ kind, Misfit p c kind := by
  by_cases hlegal : isLegal c = true
  · cases p with
    | start =>
      by_cases hc : c = '{'
      · subst hc
        exact .inl ⟨_, .start⟩
      · exact .inr ⟨_, .start hlegal hc⟩
    | element scope after => exact goes_or_misfit_element scope after hlegal
    | minus =>
      by_cases hletter : isLetter c = true
      · exact .inl ⟨_, .var hletter⟩
      · exact .inr ⟨_, .minus hlegal (by simpa using hletter)⟩
    | behind scope =>
      by_cases hsep : isSeparator c = true
      · exact .inl ⟨_, .separator hsep⟩
      · by_cases hc : c = '}'
        · subst hc
          exact .inl ⟨_, .close⟩
        · exact .inr ⟨_, .behind hlegal (by simpa using hsep) hc⟩
    | closed => exact .inr ⟨_, .closed hlegal⟩
  · exact .inr ⟨_, .illegal (by simpa using hlegal)⟩

theorem goes_iff : Goes p c q ↔ p.advance c = .ok q := by
  constructor
  · exact Goes.advance_eq
  · intro h
    rcases goes_or_misfit p c with ⟨r, hr⟩ | ⟨kind, hkind⟩
    · obtain rfl : r = q := by simpa [hr.advance_eq] using h
      exact hr
    · simp [hkind.advance_eq] at h

theorem misfit_iff : Misfit p c kind ↔ p.advance c = .error kind := by
  constructor
  · exact Misfit.advance_eq
  · intro h
    rcases goes_or_misfit p c with ⟨r, hr⟩ | ⟨kind', hkind⟩
    · simp [hr.advance_eq] at h
    · obtain rfl : kind' = kind := by simpa [hkind.advance_eq] using h
      exact hkind

end

section
variable {α : Type} {item : List Char → α → Prop} {pre cs ds : List Char} {as : List α} {a : α}
  {after : After}

theorem Awaits.exists_isSequence (h : Awaits item pre after cs) (ha : item ds a) :
    ∃ es as, IsSequence item es as ∧ cs ++ ds = pre ++ '{' :: es := by
  cases h with
  | opening => exact ⟨ds, [a], .single ha, by simp⟩
  | separator hcs hsep => exact ⟨_, _, hcs.snoc hsep ha, by simp⟩

end

namespace Stands

variable {p q : Place} {cs ds : List Char} {c : Char}

theorem of_clause {after : After} {clause : List Literal}
    (h : Awaits IsClause [] after cs) (hds : IsClause ds clause) :
    Stands (.behind .formula) (cs ++ ds) := by
  obtain ⟨es, as, hes, heq⟩ := h.exists_isSequence hds
  rw [heq]
  exact .behindClause hes

theorem of_literal {before after : After} {pre : List Char} {l : Literal}
    (hpre : Awaits IsClause [] before pre) (h : Awaits IsLiteral pre after cs)
    (hds : IsLiteral ds l) : Stands (.behind .clause) (cs ++ ds) := by
  obtain ⟨es, as, hes, heq⟩ := h.exists_isSequence hds
  rw [heq]
  exact .behindLiteral hpre hes

/-- One more character makes a text that leads up to the next place. -/
theorem snoc (h : Stands p cs) (hgoes : Goes p c q) : Stands q (cs ++ [c]) := by
  cases hgoes with
  | start =>
    cases h
    exact .clause .opening
  | clause =>
    cases h with
    | clause h => exact .literal h .opening
  | minus =>
    cases h with
    | literal hpre h => exact .minus hpre h
  | letter hletter =>
    cases h with
    | literal hpre h => exact .of_literal hpre h (.pos hletter)
  | var hletter =>
    cases h with
    | minus hpre h =>
      rw [List.append_assoc]
      exact .of_literal hpre h (.neg hletter)
  | separator hsep =>
    cases h with
    | behindLiteral hpre h =>
      rw [List.append_assoc]
      exact .literal hpre (.separator h (isSeparator_iff.mp hsep))
    | behindClause h => exact .clause (.separator h (isSeparator_iff.mp hsep))
  | close =>
    cases h with
    | behindLiteral hpre h =>
      rw [List.append_assoc]
      exact .of_clause hpre (.sequence h)
    | behindClause h => exact .closed (.sequence h)
  | closeEmpty =>
    cases h with
    | clause h =>
      cases h
      exact .closed .empty
    | literal hpre h =>
      cases h
      rw [List.append_assoc]
      exact .of_clause hpre .empty

theorem append (h : Stands p cs) (hds : Leads p ds q) : Stands q (cs ++ ds) := by
  induction hds generalizing cs with
  | nil => rwa [List.append_nil]
  | cons hstep _ ih =>
    rw [List.append_cons]
    exact ih (h.snoc (goes_iff.mpr hstep))

end Stands

section
variable {α : Type} {item : List Char → α → Prop} {pre cs : List Char} {as : List α} {p : Place}
  {scope : Scope} {after : After}

/-- Each text of the rule leads past an element of the list. -/
def Crosses (scope : Scope) (item : List Char → α → Prop) : Prop :=
  ∀ cs a, item cs a → ∀ after, Leads (.element scope after) cs (.behind scope)

theorem crosses_isLiteral : Crosses .clause IsLiteral := by
  intro cs l h after
  cases h with
  | pos hx => exact .cons (Goes.letter hx).advance_eq .nil
  | neg hx => exact .cons Goes.minus.advance_eq (.cons (Goes.var hx).advance_eq .nil)

theorem Crosses.isSequence (h : Crosses scope item) (hcs : IsSequence item cs as) :
    Leads (.element scope after) cs (.behind scope) := by
  induction hcs generalizing after with
  | single ha => exact h _ _ ha after
  | cons ha hsep _ ih =>
    exact (h _ _ ha after).trans (.cons (Goes.separator (isSeparator_iff.mpr hsep)).advance_eq ih)

theorem Crosses.isBraced (h : Crosses scope item) (hp : Goes p '{' (.element scope .opening))
    (hcs : IsBraced item cs as) : Leads p cs scope.closed := by
  cases hcs with
  | empty => exact .cons hp.advance_eq (.cons Goes.closeEmpty.advance_eq .nil)
  | sequence hcs =>
    exact .cons hp.advance_eq ((h.isSequence hcs).trans (.cons Goes.close.advance_eq .nil))

theorem crosses_isClause : Crosses .formula IsClause :=
  fun _ _ h _ => crosses_isLiteral.isBraced .clause h

theorem Awaits.leads (h : Awaits item pre after cs) (hitem : Crosses scope item)
    (hpre : Leads .start pre p) (hp : Goes p '{' (.element scope .opening)) :
    Leads .start cs (.element scope after) := by
  cases h with
  | opening => exact hpre.trans (.cons hp.advance_eq .nil)
  | separator hcs hsep =>
    have hseparator : Goes (.behind scope) _ _ := .separator (isSeparator_iff.mpr hsep)
    exact hpre.trans (.cons hp.advance_eq
      ((hitem.isSequence hcs).trans (.cons hseparator.advance_eq .nil)))

end

section
variable {p q : Place} {cs : List Char}

theorem Stands.leads (h : Stands p cs) : Leads .start cs p := by
  have hclause : ∀ {before pre}, Awaits IsClause [] before pre →
      Leads .start pre (.element .formula before) :=
    fun hpre => hpre.leads crosses_isClause .nil .start
  cases h with
  | start => exact .nil
  | clause h => exact hclause h
  | literal hpre h => exact h.leads crosses_isLiteral (hclause hpre) .clause
  | minus hpre h =>
    have hliteral := h.leads crosses_isLiteral (hclause hpre) .clause
    exact hliteral.trans (.cons Goes.minus.advance_eq .nil)
  | behindLiteral hpre h =>
    exact (hclause hpre).trans (.cons Goes.clause.advance_eq (crosses_isLiteral.isSequence h))
  | behindClause h => exact .cons Goes.start.advance_eq (crosses_isClause.isSequence h)
  | closed h => exact crosses_isClause.isBraced .start h

theorem stands_iff_leads : Stands p cs ↔ Leads .start cs p :=
  ⟨Stands.leads, Stands.start.append⟩

theorem Leads.unique (h : Leads p cs q) {r : Place} (h' : Leads p cs r) : q = r := by
  induction h with
  | nil =>
    cases h'
    rfl
  | cons hstep _ ih =>
    cases h' with
    | cons hstep' hcs' =>
      obtain rfl := Except.ok.inj (hstep.symm.trans hstep')
      exact ih hcs'

theorem Stands.eq_start_iff (h : Stands p cs) : p = .start ↔ cs = [] := by
  constructor
  · rintro rfl
    cases h
    rfl
  · rintro rfl
    exact h.leads.unique .nil

end

/-- The error of a text that ends at the place. -/
theorem Place.atEnd_eq (p : Place) (length : Nat) (e : ParseError) :
    p.atEnd length = some e ↔ p ≠ .closed ∧
      e = ⟨if p = .start then .missingOpeningBrace else .unterminated, none, length⟩ := by
  cases p <;> simp [atEnd, ParseError.unterminatedAt, eq_comm]

end Formula.Reader

namespace Formula

open Reader

/-- The characters of a text that are not blanks. -/
def significant (text : String) : List Char := text.toList.filter (!isBlank ·)

theorem stands_significant_iff {text : String} {p : Place} :
    Stands p (significant text) ↔ Leads .start (Reader.chars (lexemes 0 text.toList)) p := by
  rw [stands_iff_leads, Reader.chars, Text.map_char_lexemes]
  rfl

theorem significant_eq_nil_iff {text : String} :
    significant text = [] ↔ text.toList.all isBlank = true := by
  simp [significant, List.filter_eq_nil_iff]

theorem parse_error_at_end {text : String} {e : ParseError} {p : Place}
    (h : Stands p (significant text)) (hend : p.atEnd text.utf8ByteSize = some e) :
    parse text = .error e := by
  apply parse_eq_error_iff.mpr
  rw [← List.append_nil (lexemes 0 text.toList),
    Place.fault_append _ (stands_significant_iff.mp h)]
  exact hend

theorem atEnd_significant {text : String} {e : ParseError} {p : Place}
    (h : Stands p (significant text)) :
    p.atEnd text.utf8ByteSize = some e ↔ p ≠ .closed ∧
      e = ⟨if text.toList.all isBlank then .missingOpeningBrace else .unterminated, none,
        text.utf8ByteSize⟩ := by
  simp only [Place.atEnd_eq, h.eq_start_iff, significant_eq_nil_iff]

theorem parse_error_at_char {before : String} {c : Char} {p : Place} {kind : ParseError.Kind}
    (h : Stands p (significant before)) (hc : isBlank c = false) (hmisfit : Misfit p c kind)
    (after : String) :
    parse (before.push c ++ after) = .error ⟨kind, some c, before.utf8ByteSize⟩ :=
  parse_error_of_leads (x := ⟨c, before.utf8ByteSize⟩) (stands_significant_iff.mp h) hc rfl
    hmisfit.advance_eq after

/-- A text has an error exactly if it stops where no formula is complete, or a character of it does
not fit where it stands. In the second case that character and the place before it, of which there
is only one, determine the kind of the error. -/
theorem parse_error_kind :
    (∀ text e, parse text = .error e ↔
      (∃ p, Stands p (significant text) ∧ p ≠ .closed ∧
        e = ⟨if text.toList.all isBlank then .missingOpeningBrace else .unterminated, none,
          text.utf8ByteSize⟩) ∨
      ∃ before c after p kind, text = before.push c ++ after ∧ isBlank c = false ∧
        Stands p (significant before) ∧ Misfit p c kind ∧
        e = ⟨kind, some c, before.utf8ByteSize⟩) ∧
    (∀ p q cs, Stands p cs → Stands q cs → p = q) ∧
    ∀ p c kind kind', Misfit p c kind → Misfit p c kind' → kind = kind' := by
  refine ⟨fun text e => ⟨?_, ?_⟩, ?_, ?_⟩
  · intro h
    rcases exists_of_parse_error h with
      ⟨p, hlead, hend⟩ | ⟨before, x, after, p, kind, htext, hx, hoffset, hlead, herror, rfl⟩
    · have hstands := stands_significant_iff.mpr hlead
      exact .inl ⟨p, hstands, (atEnd_significant hstands).mp hend⟩
    · refine .inr ⟨before, x.char, after, p, kind, htext, hx, stands_significant_iff.mpr hlead,
        misfit_iff.mpr herror, ?_⟩
      rw [← hoffset]
      rfl
  · rintro (⟨p, hstands, hend⟩ | ⟨before, c, after, p, kind, rfl, hc, hstands, hmisfit, rfl⟩)
    · exact parse_error_at_end hstands ((atEnd_significant hstands).mpr hend)
    · exact parse_error_at_char hstands hc hmisfit after
  · intro p q cs hp hq
    exact hp.leads.unique hq.leads
  · intro p c kind kind' h h'
    exact Except.error.inj (h.advance_eq.symm.trans h'.advance_eq)

end Formula
end Clausal
