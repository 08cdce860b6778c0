import Clausal.Proofs.Reading.Places

/-!
# Errors at the earliest character

Every place can be left for the end of a formula: what is open there can be closed. So a text that
has led to a place can still become one that is read, and an error is met only at a character
behind which nothing could help any more, or at the end of a text that stops too early. On the way
the places look at no character ahead.

The main statement: the text before an error can be continued to one that is read, and no text
that continues it with the same character has another error.
-/

set_option autoImplicit false

namespace Clausal.Formula

open Text (Lexeme isLetter isBlank lexemes)

/-- Some text that begins with this one is read. -/
def Viable (text : String) : Prop := ∃ rest F, parse (text ++ rest) = .ok F

namespace Reader

/-- The characters lead from one place to the other. -/
inductive Leads : Place → List Char → Place → Prop
  | nil {p : Place} : Leads p [] p
  | cons {p q r : Place} {c : Char} {cs : List Char} (h : p.advance c = .ok q)
      (hcs : Leads q cs r) : Leads p (c :: cs) r

theorem Leads.trans {p q r : Place} {cs ds : List Char} (h : Leads p cs q) (h' : Leads q ds r) :
    Leads p (cs ++ ds) r := by
  induction h with
  | nil => exact h'
  | cons hstep _ ih => exact .cons hstep (ih h')

namespace Place

section
variable (length : Nat) {p q : Place}

theorem fault_append {s : List Lexeme} (h : Leads p (chars s) q) (t : List Lexeme) :
    p.fault length (s ++ t) = q.fault length t := by
  induction s generalizing p with
  | nil =>
    cases h
    rfl
  | cons x s ih =>
    cases h with
    | cons hstep hs =>
      rw [List.cons_append, fault, hstep]
      exact ih hs

/-- An error is met at the end, or at the first lexeme that leads nowhere. -/
theorem exists_of_fault {s : List Lexeme} {e : ParseError} (h : p.fault length s = some e) :
    (∃ q, Leads p (chars s) q ∧ q.atEnd length = some e) ∨
      ∃ before x after q kind, s = before ++ x :: after ∧ Leads p (chars before) q ∧
        q.advance x.char = .error kind ∧ e = .ofLexeme kind x := by
  induction s generalizing p with
  | nil => exact .inl ⟨p, .nil, h⟩
  | cons x s ih =>
    rw [fault] at h
    split at h
    · next q hstep =>
      rcases ih h with ⟨r, hs, hend⟩ | ⟨before, y, after, r, kind, rfl, hs, herror, he⟩
      · exact .inl ⟨r, .cons hstep hs, hend⟩
      · exact .inr ⟨x :: before, y, after, r, kind, rfl, .cons hstep hs, herror, he⟩
    · next kind herror =>
      cases h
      exact .inr ⟨[], x, s, p, kind, rfl, .nil, herror, rfl⟩

end

theorem eq_of_atEnd {p : Place} {length : Nat} {e : ParseError} (h : p.atEnd length = some e) :
    e.found = none ∧ e.position = length := by
  cases p <;> cases h <;> exact ⟨rfl, rfl⟩

end Place

/-- Closes the braces that are open behind an element. -/
def Scope.closers : Scope → List Char
  | .formula => ['}']
  | .clause => ['}', '}']

def Scope.sample : Scope → List Char
  | .formula => ['{', '}']
  | .clause => ['a']

/-- What completes a text that has led to the place. -/
def Place.completion : Place → List Char
  | .start => ['{', '}']
  | .element scope .opening => scope.closers
  | .element scope .separator => scope.sample ++ scope.closers
  | .minus => 'a' :: Scope.clause.closers
  | .behind scope => scope.closers
  | .closed => []

theorem leads_letter : Leads .minus ['a'] (.behind .clause) := .cons rfl .nil

theorem Scope.leads_closers (scope : Scope) : Leads (.behind scope) scope.closers .closed := by
  cases scope with
  | formula => exact .cons rfl .nil
  | clause => exact .cons rfl (.cons rfl .nil)

theorem Scope.leads_closers_opening (scope : Scope) :
    Leads (.element scope .opening) scope.closers .closed := by
  cases scope with
  | formula => exact .cons rfl .nil
  | clause => exact .cons rfl (.cons rfl .nil)

theorem Scope.leads_sample (scope : Scope) :
    Leads (.element scope .separator) scope.sample (.behind scope) := by
  cases scope with
  | formula => exact .cons rfl (.cons rfl .nil)
  | clause => exact .cons rfl .nil

theorem Place.leads_completion (p : Place) : Leads p p.completion .closed := by
  cases p with
  | start => exact .cons rfl (.cons rfl .nil)
  | element scope after =>
    cases after with
    | opening => exact scope.leads_closers_opening
    | separator => exact scope.leads_sample.trans scope.leads_closers
  | minus => exact leads_letter.trans (Scope.leads_closers .clause)
  | behind scope => exact scope.leads_closers
  | closed => exact .nil

theorem Place.filter_completion (p : Place) :
    p.completion.filter (!isBlank ·) = p.completion := by
  cases p with
  | element scope after => cases scope <;> cases after <;> decide +kernel
  | behind scope => cases scope <;> decide +kernel
  | start => decide +kernel
  | minus => decide +kernel
  | closed => rfl

theorem parse_eq_error_iff {text : String} {e : ParseError} :
    parse text = .error e ↔
      Place.start.fault text.utf8ByteSize (lexemes 0 text.toList) = some e :=
  whole_eq_error_iff _

theorem exists_parse_of_leads {text : String}
    (h : Leads .start (chars (lexemes 0 text.toList)) .closed) : ∃ F, parse text = .ok F := by
  cases hparse : parse text with
  | ok F => exact ⟨F, rfl⟩
  | error e =>
    have hfault := parse_eq_error_iff.mp hparse
    rw [← List.append_nil (lexemes 0 text.toList), Place.fault_append _ h] at hfault
    cases hfault

theorem viable_of_leads {text : String} {p : Place}
    (h : Leads .start (chars (lexemes 0 text.toList)) p) : Viable text := by
  refine ⟨String.ofList p.completion, exists_parse_of_leads ?_⟩
  rw [String.toList_append, String.toList_ofList, Text.lexemes_append, chars_append]
  apply h.trans
  rw [chars, Text.map_char_lexemes, p.filter_completion]
  exact p.leads_completion

theorem parse_error_of_leads {before : String} {p : Place} {kind : ParseError.Kind} {x : Lexeme}
    (h : Leads .start (chars (lexemes 0 before.toList)) p) (hx : isBlank x.char = false)
    (hoffset : x.offset = before.utf8ByteSize) (herror : p.advance x.char = .error kind)
    (rest : String) : parse (before.push x.char ++ rest) = .error (.ofLexeme kind x) := by
  apply parse_eq_error_iff.mpr
  have htext : (before.push x.char ++ rest).toList = before.toList ++ x.char :: rest.toList := by
    simp
  rw [htext, Text.lexemes_append, Place.fault_append _ h, lexemes, if_neg (by simp [hx]),
    Place.fault, herror, String.ofList_toList, Nat.zero_add, ← hoffset]

/-- The text leads to a place where it must not end, or up to a character that leads nowhere. -/
theorem exists_of_parse_error {text : String} {e : ParseError} (h : parse text = .error e) :
    (∃ p, Leads .start (chars (lexemes 0 text.toList)) p ∧
      p.atEnd text.utf8ByteSize = some e) ∨
    ∃ (before : String) (x : Lexeme) (after : String) (p : Place) (kind : ParseError.Kind),
      text = before.push x.char ++ after ∧ isBlank x.char = false ∧
      x.offset = before.utf8ByteSize ∧ Leads .start (chars (lexemes 0 before.toList)) p ∧
      p.advance x.char = .error kind ∧ e = .ofLexeme kind x := by
  rcases Place.exists_of_fault _ (parse_eq_error_iff.mp h) with
    ⟨p, hlead, hend⟩ | ⟨before, x, after, p, kind, hsplit, hlead, herror, rfl⟩
  · exact .inl ⟨p, hlead, hend⟩
  · obtain ⟨as, bs, htext, rfl, hx, hoffset⟩ := Text.exists_of_lexemes_eq hsplit
    rw [Nat.zero_add] at hoffset
    refine .inr ⟨String.ofList as, x, String.ofList bs, p, kind, ?_, hx, hoffset, ?_, herror, rfl⟩
    · rw [← String.toList_inj]
      simp [htext]
    · rwa [String.toList_ofList]

end Reader

open Reader

/-- An error shows at the earliest character at which no continuation of the text can be read, and
it is the same in all of them. Only a text that stops too early has its error at the end. -/
theorem parse_error_earliest {text : String} {e : ParseError} (h : parse text = .error e) :
    (∀ c, e.found = some c → ∃ before after, text = before.push c ++ after ∧
      e.position = before.utf8ByteSize ∧ Viable before ∧
      ∀ rest, parse (before.push c ++ rest) = .error e) ∧
    (e.found = none → e.position = text.utf8ByteSize ∧ Viable text) := by
  rcases exists_of_parse_error h with
    ⟨p, hlead, hend⟩ | ⟨before, x, after, p, kind, htext, hx, hoffset, hlead, herror, rfl⟩
  · obtain ⟨hfound, hposition⟩ := Place.eq_of_atEnd hend
    refine ⟨?_, fun _ => ⟨hposition, viable_of_leads hlead⟩⟩
    intro c hc
    rw [hfound] at hc
    cases hc
  · refine ⟨?_, fun hfound => by cases hfound⟩
    intro c hc
    obtain rfl : x.char = c := Option.some.inj hc
    exact ⟨before, after, htext, hoffset, viable_of_leads hlead,
      parse_error_of_leads hlead hx hoffset herror⟩

/-- The letter takes two bytes and the blank one, so the second separator stands at byte 6. -/
theorem parse_error_earliest_separator :
    parse "\x7b\x7bé, ;b\x7d\x7d" = .error ⟨.adjacentSeparators, some ';', 6⟩ ∧
      ∃ before after, "\x7b\x7bé, ;b\x7d\x7d" = before.push ';' ++ after ∧
        6 = before.utf8ByteSize ∧ Viable before ∧
        ∀ rest, parse (before.push ';' ++ rest) = .error ⟨.adjacentSeparators, some ';', 6⟩ := by
  have h : parse "\x7b\x7bé, ;b\x7d\x7d" = .error ⟨.adjacentSeparators, some ';', 6⟩ :=
    parse_eq_error_iff.mpr (by decide +kernel)
  exact ⟨h, (parse_error_earliest h).1 ';' rfl⟩

end Clausal.Formula
