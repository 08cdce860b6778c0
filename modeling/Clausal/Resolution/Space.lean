import Clausal.Resolution.Inference

/-!
# The space of clauses

Up to the order of literals there are `3 ^ n` clauses over `n` variables that are no tautology:
each variable is absent, positive or negative. Every admissible inference fills one more place of
this space, so the room that is left measures how long resolution can go on.
-/

set_option autoImplicit false

namespace Clausal.Resolution

def space : List Char → List (List Literal)
  | [] => [[]]
  | x :: xs => (space xs).flatMap fun ls => [ls, .pos x :: ls, .neg x :: ls]

/-- A set of literals that holds no variable with both signs appears in the space. -/
theorem exists_mem_space {p : Literal → Prop} (hp : ∀ l, p l → ¬ p (-l)) (xs : List Char) :
    ∃ ls ∈ space xs, ∀ l, l ∈ ls ↔ p l ∧ l.var ∈ xs := by
  induction xs with
  | nil => exact ⟨[], by simp [space], by simp⟩
  | cons x xs ih =>
    obtain ⟨ls, hls, h⟩ := ih
    have hmem : ∀ ms, ms = ls ∨ ms = .pos x :: ls ∨ ms = .neg x :: ls → ms ∈ space (x :: xs) := by
      intro ms hms
      exact List.mem_flatMap.mpr ⟨ls, hls, by simpa using hms⟩
    have hvar : ∀ l : Literal, l.var = x ↔ l = .pos x ∨ l = .neg x := by
      rintro ⟨y, s⟩
      cases s <;> simp [Literal.pos, Literal.neg]
    by_cases hpos : p (.pos x)
    · have hneg : ¬ p (.neg x) := hp _ hpos
      refine ⟨.pos x :: ls, hmem _ (.inr (.inl rfl)), fun l => ?_⟩
      simp only [List.mem_cons, h, hvar]
      constructor
      · rintro (rfl | ⟨hl, hx⟩)
        · exact ⟨hpos, .inl (.inl rfl)⟩
        · exact ⟨hl, .inr hx⟩
      · rintro ⟨hl, (rfl | rfl) | hx⟩
        · exact .inl rfl
        · exact absurd hl hneg
        · exact .inr ⟨hl, hx⟩
    · by_cases hneg : p (.neg x)
      · refine ⟨.neg x :: ls, hmem _ (.inr (.inr rfl)), fun l => ?_⟩
        simp only [List.mem_cons, h, hvar]
        constructor
        · rintro (rfl | ⟨hl, hx⟩)
          · exact ⟨hneg, .inl (.inr rfl)⟩
          · exact ⟨hl, .inr hx⟩
        · rintro ⟨hl, (rfl | rfl) | hx⟩
          · exact absurd hl hpos
          · exact .inl rfl
          · exact .inr ⟨hl, hx⟩
      · refine ⟨ls, hmem _ (.inl rfl), fun l => ?_⟩
        simp only [List.mem_cons, h, hvar]
        constructor
        · exact fun ⟨hl, hx⟩ => ⟨hl, .inr hx⟩
        · rintro ⟨hl, (rfl | rfl) | hx⟩
          · exact absurd hl hpos
          · exact absurd hl hneg
          · exact ⟨hl, hx⟩

theorem exists_same_of_not_tautology {c : Clause} {xs : List Char}
    (ht : c.isTautology = false) (hx : ∀ l ∈ c, l.var ∈ xs) :
    ∃ ls ∈ space xs, c.same (.ofList ls) = true := by
  have hp : ∀ l, l ∈ c → ¬ -l ∈ c := by
    intro l hl
    simpa using List.any_eq_false.mp ht l hl
  obtain ⟨ls, hls, h⟩ := exists_mem_space hp xs
  refine ⟨ls, hls, Clause.same_iff.mpr fun l => ?_⟩
  rw [Clause.mem_ofList, h]
  exact ⟨fun hl => ⟨hl, hx l hl⟩, And.left⟩

/-- The places of the space that the clauses of a formula leave free. -/
def room (F : Formula) : Nat := (space F.vars).countP fun ls => !F.contains (.ofList ls)

theorem countP_lt_countP {α : Type} {p q : α → Bool} {xs : List α} (himp : ∀ x, p x → q x)
    {a : α} (ha : a ∈ xs) (hp : p a = false) (hq : q a = true) : xs.countP p < xs.countP q := by
  obtain ⟨ys, zs, rfl⟩ := List.append_of_mem ha
  have hys := List.countP_mono_left (l := ys) fun x _ => himp x
  have hzs := List.countP_mono_left (l := zs) fun x _ => himp x
  simp only [List.countP_append, List.countP_cons, hp, hq]
  simp only [Bool.false_eq_true, if_false, if_true]
  omega

theorem room_insert_lt {F : Formula} {r : Inference} (h : r.Admissible F) :
    room (F.insert r.step.resolvent) < room F := by
  have hvars : (F.insert r.step.resolvent).vars = F.vars :=
    Formula.vars_insert fun _ hl => h.vars_resolvent hl
  obtain ⟨ls, hls, hsame⟩ :=
    exists_same_of_not_tautology h.not_tautology fun _ hl => h.vars_resolvent hl
  unfold room
  rw [hvars]
  refine countP_lt_countP (fun ms hms => ?_) hls ?_ ?_
  · rw [Formula.contains_insert h.not_contains] at hms
    simp_all
  · simp [Formula.contains_insert h.not_contains, hsame]
  · suffices hnot : F.contains (.ofList ls) = false by simp [hnot]
    rw [← Bool.not_eq_true]
    intro hcon
    obtain ⟨d, hd, hds⟩ := Formula.contains_iff.mp hcon
    have : F.contains r.step.resolvent = true :=
      Formula.contains_iff.mpr ⟨d, hd, Clause.same_trans hds (Clause.same_symm hsame)⟩
    simp [h.not_contains] at this

end Clausal.Resolution
