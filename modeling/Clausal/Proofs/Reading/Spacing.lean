import Clausal.Proofs.Reading.ErrorKinds

/-!
# Blanks and separators in the text of a formula

Two texts that differ in their blanks only have the same lexemes, at other offsets. Where one of
the two separators stands, the other one leads to the same place or to the same error. So texts
that differ in nothing else are read alike: they stand for the same formula, or they have the same
error at the same lexeme.

`plain` writes the comma for both separators, and so two texts are read alike when their lexemes
are the same in plain writing.
-/

set_option autoImplicit false

namespace Clausal

open Text (isLetter isBlank lexemes)

namespace Formula.Reader

open Grammar

/-- The second text is the first with some blanks put in, some left out and some separators
exchanged for the other one. -/
inductive Respaced : List Char → List Char → Prop
  | nil : Respaced [] []
  | same {cs ds : List Char} (c : Char) (h : Respaced cs ds) : Respaced (c :: cs) (c :: ds)
  | exchange {cs ds : List Char} {c d : Char} (hc : isSeparator c = true)
      (hd : isSeparator d = true) (h : Respaced cs ds) : Respaced (c :: cs) (d :: ds)
  | put {cs ds : List Char} {d : Char} (hd : isBlank d = true) (h : Respaced cs ds) :
      Respaced cs (d :: ds)
  | leave {cs ds : List Char} {c : Char} (hc : isBlank c = true) (h : Respaced cs ds) :
      Respaced (c :: cs) ds

/-- The character, with the comma for both separators. -/
def plain (c : Char) : Char := if isSeparator c then ',' else c

theorem plain_of_isSeparator {c : Char} (h : isSeparator c = true) : plain c = ',' := if_pos h

theorem plain_of_isLetter {c : Char} (h : isLetter c = true) : plain c = c := by
  apply if_neg
  intro hsep
  simp [isLetter_eq_false_of_isSeparator hsep] at h

theorem eq_or_isSeparator_of_plain_eq {c d : Char} (h : plain c = plain d) :
    c = d ∨ isSeparator c = true ∧ isSeparator d = true := by
  have hcomma : isSeparator ',' = true := rfl
  unfold plain at h
  split at h
  · next hc =>
    split at h
    · next hd => exact .inr ⟨hc, hd⟩
    · next hd => exact absurd (h ▸ hcomma) hd
  · next hc =>
    split at h
    · exact absurd (h ▸ hcomma) hc
    · exact .inl h

theorem isBlank_eq_false_of_isSeparator {c : Char} (h : isSeparator c = true) :
    isBlank c = false := by
  rcases isSeparator_iff.mp h with rfl | rfl
  · decide +kernel
  · decide +kernel

theorem Respaced.map_plain_eq {cs ds : List Char} (h : Respaced cs ds) :
    (cs.filter (!isBlank ·)).map plain = (ds.filter (!isBlank ·)).map plain := by
  induction h with
  | nil => rfl
  | same c _ ih =>
    rw [List.filter_cons, List.filter_cons]
    split
    · rw [List.map_cons, List.map_cons, ih]
    · exact ih
  | exchange hc hd _ ih =>
    simp [isBlank_eq_false_of_isSeparator hc, isBlank_eq_false_of_isSeparator hd,
      plain_of_isSeparator hc, plain_of_isSeparator hd, ih]
  | put hd _ ih => simpa [hd] using ih
  | leave hc _ ih => simpa [hc] using ih

section
variable {p q : Place} {c : Char} {cs ds : List Char}

/-- Both separators lead to the same place or to the same error. -/
theorem exists_advance_of_isSeparator (p : Place) :
    ∃ r, ∀ c, isSeparator c = true → p.advance c = r := by
  have hne : ∀ {c d : Char}, isSeparator c = true → isSeparator d = false → c ≠ d := by
    rintro c d hc hd rfl
    simp [hc] at hd
  cases p with
  | start => exact ⟨_, fun c h => (Misfit.start (isLegal_of_isSeparator h) (hne h rfl)).advance_eq⟩
  | element scope after =>
    cases after with
    | opening => exact ⟨_, fun c h => (Misfit.misplaced h).advance_eq⟩
    | separator => exact ⟨_, fun c h => (Misfit.adjacent h).advance_eq⟩
  | minus =>
    refine ⟨_, fun c h => (Misfit.minus (isLegal_of_isSeparator h) ?_).advance_eq⟩
    exact isLetter_eq_false_of_isSeparator h
  | behind scope => exact ⟨_, fun c h => (Goes.separator h).advance_eq⟩
  | closed => exact ⟨_, fun c h => (Misfit.closed (isLegal_of_isSeparator h)).advance_eq⟩

theorem advance_plain (p : Place) (c : Char) : p.advance (plain c) = p.advance c := by
  unfold plain
  split
  · next hc =>
    obtain ⟨r, hr⟩ := exists_advance_of_isSeparator p
    rw [hr c hc, hr ',' rfl]
  · rfl

theorem leads_cons_iff :
    Leads p (c :: cs) q ↔ ∃ r, p.advance c = .ok r ∧ Leads r cs q := by
  constructor
  · intro h
    cases h with
    | cons hstep hcs => exact ⟨_, hstep, hcs⟩
  · rintro ⟨r, hstep, hcs⟩
    exact .cons hstep hcs

theorem leads_map_plain : Leads p (cs.map plain) q ↔ Leads p cs q := by
  induction cs generalizing p with
  | nil => rfl
  | cons c cs ih => simp only [List.map_cons, leads_cons_iff, advance_plain, ih]

theorem Leads.of_map_plain_eq (h : Leads p cs q) (heq : cs.map plain = ds.map plain) :
    Leads p ds q := by
  rw [← leads_map_plain, ← heq]
  exact leads_map_plain.mpr h

end

section
variable {α : Type} {item : List Char → α → Prop} {cs : List Char} {as : List α}

/-- In plain writing a text of the rule stands for the same. -/
def Plainly (item : List Char → α → Prop) : Prop := ∀ cs a, item cs a → item (cs.map plain) a

theorem plainly_isLiteral : Plainly IsLiteral := by
  intro cs l h
  cases h with
  | pos hx =>
    rw [List.map_singleton, plain_of_isLetter hx]
    exact .pos hx
  | neg hx =>
    rw [List.map_cons, List.map_singleton, plain_of_isLetter hx]
    exact .neg hx

theorem Plainly.isSequence (h : Plainly item) (hcs : IsSequence item cs as) :
    IsSequence item (cs.map plain) as := by
  induction hcs with
  | single ha => exact .single (h _ _ ha)
  | cons ha hsep _ ih =>
    rw [List.map_append, List.map_cons, plain_of_isSeparator (isSeparator_iff.mpr hsep)]
    exact .cons (h _ _ ha) (.inl rfl) ih

theorem Plainly.isBraced (h : Plainly item) : Plainly (IsBraced item) := by
  intro cs as hcs
  cases hcs with
  | empty => exact .empty
  | sequence hcs =>
    rw [List.map_cons, List.map_append]
    exact .sequence (h.isSequence hcs)

theorem plainly_isFormula : Plainly IsFormula := plainly_isLiteral.isBraced.isBraced

end
end Formula.Reader

namespace Formula

open Reader Grammar

/-- No text of the grammar stands for two formulas. -/
theorem ofList_eq_of_isFormula {cs : List Char} {clauses clauses' : List (List Literal)}
    (h : IsFormula cs clauses) (h' : IsFormula cs clauses') :
    Formula.ofList (clauses.map Clause.ofList) = Formula.ofList (clauses'.map Clause.ofList) := by
  have hwhole : ∀ ds, IsFormula cs ds → whole 0 (cs.map fun c => ⟨c, 0⟩) =
      .ok (Formula.ofList (ds.map Clause.ofList)) := by
    intro ds hds
    have hchars : Reader.chars (cs.map fun c => ⟨c, 0⟩) = cs := by
      simp [Reader.chars, Function.comp_def]
    apply (whole_eq_ok 0).mpr
    rw [hchars]
    exact ⟨_, isBraced_image_iff.mpr ⟨ds, hds, rfl⟩, rfl⟩
  exact Except.ok.inj ((hwhole clauses h).symm.trans (hwhole clauses' h'))

/-- A significant character of a text stands behind those before it. -/
theorem exists_of_significant_eq {text : String} {cs ds : List Char} {c : Char}
    (h : significant text = cs ++ c :: ds) :
    ∃ before after, text = before.push c ++ after ∧ isBlank c = false ∧
      significant before = cs := by
  have hchars : Reader.chars (lexemes 0 text.toList) = cs ++ c :: ds :=
    (Text.map_char_lexemes 0 text.toList).trans h
  obtain ⟨s, t, hst, rfl, ht⟩ := chars_eq_append hchars
  obtain ⟨x, t, rfl, rfl, rfl⟩ := chars_eq_cons ht
  obtain ⟨as, bs, htext, rfl, hx, _⟩ := Text.exists_of_lexemes_eq hst
  refine ⟨String.ofList as, String.ofList bs, ?_, hx, ?_⟩
  · rw [← String.toList_inj]
    simp [htext]
  · rw [significant, String.toList_ofList, Reader.chars, Text.map_char_lexemes]

/-- What a place says of a text that ends there does not depend on the text. -/
theorem exists_kind_of_atEnd {p : Place} {length : Nat} {e : ParseError}
    (h : p.atEnd length = some e) :
    ∃ kind, ∀ n, p.atEnd n = some ⟨kind, none, n⟩ := by
  cases p with
  | closed => cases h
  | start => exact ⟨_, fun _ => rfl⟩
  | element => exact ⟨_, fun _ => rfl⟩
  | minus => exact ⟨_, fun _ => rfl⟩
  | behind => exact ⟨_, fun _ => rfl⟩

section
variable {text text' : String}
  (h : (significant text).map plain = (significant text').map plain)
include h

theorem eq_of_parse {F G : Formula} (hF : parse text = .ok F) (hG : parse text' = .ok G) :
    F = G := by
  obtain ⟨clauses, hclauses, rfl⟩ := parse_eq_ok.mp hF
  obtain ⟨clauses', hclauses', rfl⟩ := parse_eq_ok.mp hG
  have hplain : IsFormula ((significant text).map plain) clauses :=
    plainly_isFormula _ _ hclauses
  have hplain' : IsFormula ((significant text').map plain) clauses' :=
    plainly_isFormula _ _ hclauses'
  rw [← h] at hplain'
  exact ofList_eq_of_isFormula hplain hplain'

theorem stands_of_map_plain_eq {p : Place} (hp : Stands p (significant text)) :
    Stands p (significant text') :=
  stands_iff_leads.mpr (hp.leads.of_map_plain_eq h)

theorem parse_error_alike {e : ParseError} (he : parse text = .error e) :
    (∃ kind, parse text = .error ⟨kind, none, text.utf8ByteSize⟩ ∧
      parse text' = .error ⟨kind, none, text'.utf8ByteSize⟩) ∨
    ∃ kind before c after before' c' after',
      text = before.push c ++ after ∧ text' = before'.push c' ++ after' ∧
      isBlank c = false ∧ isBlank c' = false ∧
      (significant before).length = (significant before').length ∧
      (c = c' ∨ isSeparator c = true ∧ isSeparator c' = true) ∧
      parse text = .error ⟨kind, some c, before.utf8ByteSize⟩ ∧
      parse text' = .error ⟨kind, some c', before'.utf8ByteSize⟩ := by
  rcases exists_of_parse_error he with
    ⟨p, hlead, hend⟩ | ⟨before, x, after, p, kind, rfl, hx, _, hlead, herror, _⟩
  · have hstands := stands_significant_iff.mpr hlead
    obtain ⟨kind, hkind⟩ := exists_kind_of_atEnd hend
    exact .inl ⟨kind, parse_error_at_end hstands (hkind _),
      parse_error_at_end (stands_of_map_plain_eq h hstands) (hkind _)⟩
  · have hstands := stands_significant_iff.mpr hlead
    have hsplit : significant (before.push x.char ++ after) =
        significant before ++ x.char :: significant after := by
      simp [significant, hx]
    rw [hsplit, List.map_append, List.map_cons] at h
    obtain ⟨cs, ds, hsplit', hcs, hds⟩ := List.map_eq_append_iff.mp h.symm
    obtain ⟨c', ds, rfl, hc', _⟩ := List.map_eq_cons_iff.mp hds
    obtain ⟨before', after', rfl, hblank', rfl⟩ := exists_of_significant_eq hsplit'
    have hmisfit : Misfit p c' kind := by
      rw [misfit_iff, ← advance_plain, hc', advance_plain]
      exact herror
    refine .inr ⟨kind, before, x.char, after, before', c', after', rfl, rfl, hx, hblank', ?_,
      eq_or_isSeparator_of_plain_eq hc'.symm, ?_, ?_⟩
    · simpa using (congrArg List.length hcs).symm
    · exact parse_error_at_char hstands hx (misfit_iff.mpr herror) after
    · exact parse_error_at_char (stands_of_map_plain_eq hcs.symm hstands) hblank' hmisfit after'

end

/-- Blanks and the choice of separators make no difference. Texts that differ in nothing else are
read as the same formula, or they have errors of the same kind: both at the end of the text, or both
at the same significant character. -/
theorem parse_respaced {text text' : String} (h : Respaced text.toList text'.toList) :
    (∃ F, parse text = .ok F ∧ parse text' = .ok F) ∨
    (∃ kind, parse text = .error ⟨kind, none, text.utf8ByteSize⟩ ∧
      parse text' = .error ⟨kind, none, text'.utf8ByteSize⟩) ∨
    ∃ kind before c after before' c' after',
      text = before.push c ++ after ∧ text' = before'.push c' ++ after' ∧
      isBlank c = false ∧ isBlank c' = false ∧
      (significant before).length = (significant before').length ∧
      (c = c' ∨ isSeparator c = true ∧ isSeparator c' = true) ∧
      parse text = .error ⟨kind, some c, before.utf8ByteSize⟩ ∧
      parse text' = .error ⟨kind, some c', before'.utf8ByteSize⟩ := by
  have hplain : (significant text).map plain = (significant text').map plain := h.map_plain_eq
  cases hparse : parse text with
  | error e =>
    rw [← hparse]
    exact .inr (parse_error_alike hplain hparse)
  | ok F =>
    cases hparse' : parse text' with
    | ok G =>
      obtain rfl := eq_of_parse hplain hparse hparse'
      exact .inl ⟨F, rfl, rfl⟩
    | error e =>
      -- the error of the one text would be met in the other one too
      rcases parse_error_alike hplain.symm hparse' with
        ⟨_, _, herror⟩ | ⟨_, _, _, _, _, _, _, _, _, _, _, _, _, _, herror⟩
      · simp [hparse] at herror
      · simp [hparse] at herror

/-- In the second text a blank of one byte and one of three bytes are put in, and the two separators
are exchanged for each other. A letter still cannot begin a clause. -/
theorem parse_respaced_expectedClause :
    parse "\x7b\x7bé,b\x7d;c\x7d" = .error ⟨.expectedClause, some 'c', 8⟩ ∧
      ∃ before after : String, "\x7b\x7bé ;b\x7d,\u3000c\x7d" = before.push 'c' ++ after ∧
        parse "\x7b\x7bé ;b\x7d,\u3000c\x7d" =
          .error ⟨.expectedClause, some 'c', before.utf8ByteSize⟩ := by
  have h : parse "\x7b\x7bé,b\x7d;c\x7d" = .error ⟨.expectedClause, some 'c', 8⟩ :=
    parse_eq_error_iff.mpr (by decide +kernel)
  have hrespaced : Respaced "\x7b\x7bé,b\x7d;c\x7d".toList
      "\x7b\x7bé ;b\x7d,\u3000c\x7d".toList :=
    .same _ <| .same _ <| .same _ <| .put (by decide +kernel) <| .exchange rfl rfl <|
      .same _ <| .same _ <| .exchange rfl rfl <| .put (by decide +kernel) <|
      .same _ <| .same _ .nil
  rcases parse_respaced hrespaced with
    ⟨F, hF, _⟩ | ⟨kind, herror, _⟩ | ⟨kind, _, c, _, before, c', after, _, htext, _, _, _, hc,
      herror, herror'⟩
  · simp [h] at hF
  · simp [h] at herror
  · obtain ⟨rfl, rfl⟩ : kind = .expectedClause ∧ c = 'c' := by
      injection h.symm.trans herror with he
      injection he with hkind hfound
      exact ⟨hkind.symm, (Option.some.inj hfound).symm⟩
    have hletter : isSeparator 'c' = false := rfl
    obtain rfl : 'c' = c' := by simpa [hletter] using hc
    exact ⟨h, before, after, htext, herror'⟩

end Formula
end Clausal
