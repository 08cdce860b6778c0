import Clausal.Proofs.Reading.Acceptance

/-!
# Reading back what was written

A formula is written with one blank behind each comma and with nothing else between its signs, so
without the blanks its text is a text of the grammar as soon as its variables are letters. The
lists that are written hold nothing twice, and on such lists keeping first occurrences changes
nothing: what is read is the formula itself, with the order of its clauses and literals.

The main statement: exactly the formulas over letters are read back from their texts, and every
formula that was read is one of them.
-/

set_option autoImplicit false

namespace Clausal

open Text (isLetter isBlank)

namespace Grammar

variable {α : Type} {item : List Char → α → Prop}

theorem isSequence_filter_intercalate {write : α → List Char} {a : α} {as : List α}
    (h : ∀ b ∈ a :: as, item ((write b).filter (!isBlank ·)) b) :
    IsSequence item
      (([',', ' '].intercalate ((a :: as).map write)).filter (!isBlank ·)) (a :: as) := by
  induction as generalizing a with
  | nil =>
    rw [List.map_singleton, List.intercalate_singleton]
    exact .single (h a List.mem_cons_self)
  | cons b bs ih =>
    have hcomma : [',', ' '].filter (!isBlank ·) = [','] := by decide +kernel
    have hrest := ih fun c hc => h c (List.mem_cons_of_mem a hc)
    rw [List.map_cons, List.map_cons, List.intercalate_cons_cons, List.append_assoc,
      List.filter_append, List.filter_append, hcomma]
    exact .cons (h a List.mem_cons_self) (.inl rfl) hrest

theorem isBraced_filter_braced {write : α → List Char} {as : List α}
    (h : ∀ a ∈ as, item ((write a).filter (!isBlank ·)) a) :
    IsBraced item ((Text.braced (as.map write)).filter (!isBlank ·)) as := by
  have hopen : isBlank '{' = false := by decide +kernel
  have hclose : isBlank '}' = false := by decide +kernel
  unfold Text.braced Text.enclosed
  simp only [List.cons_append, List.filter_cons, List.filter_append, hopen, hclose, Bool.not_false,
    if_true, List.filter_nil]
  cases as with
  | nil => exact .empty
  | cons a as => exact .sequence (isSequence_filter_intercalate h)

theorem IsSequence.forall_mem {P : α → Prop} (hP : ∀ cs a, item cs a → P a) {cs : List Char}
    {as : List α} (h : IsSequence item cs as) : ∀ a ∈ as, P a := by
  induction h with
  | single h => simpa using hP _ _ h
  | cons h _ _ ih => exact List.forall_mem_cons.mpr ⟨hP _ _ h, ih⟩

theorem IsBraced.forall_mem {P : α → Prop} (hP : ∀ cs a, item cs a → P a) {cs : List Char}
    {as : List α} (h : IsBraced item cs as) : ∀ a ∈ as, P a := by
  cases h with
  | empty => simp
  | sequence h => exact h.forall_mem hP

theorem IsLiteral.isLetter {cs : List Char} {l : Literal} (h : IsLiteral cs l) :
    isLetter l.var = true := by
  cases h with
  | pos hx => exact hx
  | neg hx => exact hx

theorem IsFormula.isLetter {cs : List Char} {clauses : List (List Literal)}
    (h : IsFormula cs clauses) : ∀ ls ∈ clauses, ∀ l ∈ ls, isLetter l.var = true :=
  IsBraced.forall_mem (fun _ _ hc => IsBraced.forall_mem (fun _ _ hl => hl.isLetter) hc) h

theorem isLiteral_filter_chars {l : Literal} (h : Text.isLetter l.var = true) :
    IsLiteral (l.chars.filter (!isBlank ·)) l := by
  obtain ⟨x, positive⟩ := l
  have hx : isBlank x = false := Text.isBlank_eq_false_of_isLetter h
  have hminus : isBlank '-' = false := by decide +kernel
  cases positive with
  | true =>
    have hchars : (Literal.pos x).chars.filter (!isBlank ·) = [x] := by
      simp [Literal.chars, Literal.pos, hx]
    exact hchars ▸ .pos h
  | false =>
    have hchars : (Literal.neg x).chars.filter (!isBlank ·) = ['-', x] := by
      simp [Literal.chars, Literal.neg, hx, hminus]
    exact hchars ▸ .neg h

end Grammar

open Grammar

namespace Formula

/-- Each variable of the formula is a letter. -/
def Lettered (F : Formula) : Prop := ∀ x ∈ F.vars, isLetter x = true

variable {F G : Formula}

theorem lettered_iff : F.Lettered ↔ ∀ c ∈ F.clauses, ∀ l ∈ c, isLetter l.var = true := by
  constructor
  · intro h c hc l hl
    exact h _ (var_mem_vars hc hl)
  · intro h x hx
    obtain ⟨l, hl, rfl⟩ := mem_vars.mp hx
    obtain ⟨c, hc, hlc⟩ := mem_literals.mp hl
    exact h c hc l hlc

theorem isFormula_filter_chars (h : F.Lettered) :
    IsFormula (F.chars.filter (!isBlank ·)) (F.clauses.map Clause.literals) := by
  have hchars : F.chars = Text.braced ((F.clauses.map Clause.literals).map
      fun ls => Text.braced (ls.map Literal.chars)) := by
    rw [List.map_map]
    rfl
  rw [hchars]
  apply isBraced_filter_braced
  intro ls hls
  obtain ⟨c, hc, rfl⟩ := List.mem_map.mp hls
  apply isBraced_filter_braced
  intro l hl
  exact isLiteral_filter_chars (lettered_iff.mp h c hc l hl)

theorem parse_render_of_lettered (h : F.Lettered) : parse F.render = .ok F := by
  have htext : F.render.toList = F.chars := String.toList_ofList
  refine parse_eq_ok.mpr ⟨F.clauses.map Clause.literals, ?_, ?_⟩
  · rw [htext]
    exact isFormula_filter_chars h
  · rw [List.map_map]
    simp [Function.comp_def]

theorem lettered_of_parse {text : String} (h : parse text = .ok F) : F.Lettered := by
  obtain ⟨clauses, hclauses, rfl⟩ := parse_eq_ok.mp h
  apply lettered_iff.mpr
  intro c hc l hl
  obtain ⟨ls, hls, rfl⟩ := List.mem_map.mp (ListSet.mem_of_mem_ofList hc)
  exact hclauses.isLetter ls hls l (Clause.mem_ofList.mp hl)

/-- Exactly the formulas over letters are read back as they were written. A formula that was read
is one of them, and two of them that are written alike are equal. -/
theorem parse_render :
    (∀ F : Formula, parse F.render = .ok F ↔ F.Lettered) ∧
    (∀ text F, parse text = .ok F → parse F.render = .ok F) ∧
    ∀ F G : Formula, F.Lettered → G.Lettered → F.render = G.render → F = G := by
  refine ⟨?_, ?_, ?_⟩
  · intro F
    exact ⟨lettered_of_parse, parse_render_of_lettered⟩
  · intro text F h
    exact parse_render_of_lettered (lettered_of_parse h)
  · intro F G hF hG heq
    have hread : (Except.ok F : Except ParseError Formula) = .ok G := by
      rw [← parse_render_of_lettered hF, ← parse_render_of_lettered hG, heq]
    exact Except.ok.inj hread

end Formula
end Clausal
