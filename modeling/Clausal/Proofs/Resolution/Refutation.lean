import Clausal.Proofs.Resolution.Passes
import Mathlib.Data.List.Defs

/-!
# Refutations that can be checked

`Derives F c steps` says that the steps derive the clause `c` from the clauses of `F`: each step
is a resolution step whose parents are clauses of `F` or resolvents of earlier steps, the last one
derives `c`, and every other one is used by a later step. `IsRefutation F steps` says this of the
empty clause, with all that a reader of the steps would check.

A derivation that grew out of `F` is justified: given clauses are clauses of `F`, and a derived
clause is the resolvent of the clauses at the places of its parents. The steps that are collected
for a clause unfold it from the bottom up, so they derive it, and the proof that `refute` returns is
a refutation of the formula it was given.
-/

set_option autoImplicit false

namespace Clausal.Resolution

theorem append_eq_append_cons {α : Type} {xs ys pre post : List α} {a : α}
    (h : xs ++ ys = pre ++ a :: post) :
    (∃ mid, xs = pre ++ a :: mid ∧ post = mid ++ ys) ∨
      ∃ mid, pre = xs ++ mid ∧ ys = mid ++ a :: post := by
  rcases List.append_eq_append_iff.mp h with ⟨mid, hpre, hys⟩ | ⟨mid, hxs, hpost⟩
  · exact .inr ⟨mid, hpre, hys⟩
  · cases mid with
    | nil => exact .inr ⟨[], by simpa using hxs.symm, hpost.symm⟩
    | cons b mid =>
      obtain ⟨rfl, rfl⟩ := List.cons.inj hpost
      exact .inl ⟨mid, hxs, rfl⟩

/-- An element of two lists followed by one more element stands in the first, in the second, or is
the last. -/
theorem append_append_singleton_eq {α : Type} {xs ys pre post : List α} {a b : α}
    (h : xs ++ (ys ++ [b]) = pre ++ a :: post) :
    (∃ mid, xs = pre ++ a :: mid ∧ post = mid ++ (ys ++ [b])) ∨
      (∃ mid rest, pre = xs ++ mid ∧ ys = mid ++ a :: rest ∧ post = rest ++ [b]) ∨
      (pre = xs ++ ys ∧ a = b ∧ post = []) := by
  rcases append_eq_append_cons h with hxs | ⟨mid, hpre, htail⟩
  · exact .inl hxs
  rcases append_eq_append_cons htail with ⟨rest, hys, hpost⟩ | ⟨rest, hmid, hlast⟩
  · exact .inr (.inl ⟨mid, rest, hpre, hys, hpost⟩)
  · rcases List.singleton_eq_append_iff.mp hlast with ⟨hrest, hpost⟩ | ⟨_, hpost⟩
    · obtain ⟨rfl, rfl⟩ := List.cons.inj hpost
      subst hrest
      exact .inr (.inr ⟨by simp [hpre, hmid], rfl, rfl⟩)
    · cases hpost

structure Step.Sound (s : Step) : Prop where
  pivot_mem : s.pivot ∈ s.left
  neg_pivot_mem : -s.pivot ∈ s.right
  resolvent_eq : s.resolvent =
    .ofList (s.left.literals.filter (· ≠ s.pivot) ++ s.right.literals.filter (· ≠ -s.pivot))
  not_tautology : s.resolvent.isTautology = false

def Available (F : Formula) (earlier : List Step) (c : Clause) : Prop :=
  c ∈ F.clauses ∨ ∃ s ∈ earlier, s.resolvent = c

def Used (later : List Step) (c : Clause) : Prop := ∃ s ∈ later, s.left = c ∨ s.right = c

structure IsRefutation (F : Formula) (steps : List Step) : Prop where
  ne_nil : steps ≠ []
  sound : ∀ s ∈ steps, s.Sound
  available : ∀ pre s post, steps = pre ++ s :: post →
    Available F pre s.left ∧ Available F pre s.right
  isEmpty_iff : ∀ pre s post, steps = pre ++ s :: post →
    (s.resolvent.isEmpty = true ↔ post = [])
  used : ∀ pre s post, steps = pre ++ s :: post → post ≠ [] → Used post s.resolvent

structure Derives (F : Formula) (c : Clause) (steps : List Step) : Prop where
  available_self : Available F steps c
  sound : ∀ s ∈ steps, s.Sound
  available : ∀ pre s post, steps = pre ++ s :: post →
    Available F pre s.left ∧ Available F pre s.right
  used : ∀ pre s post, steps = pre ++ s :: post →
    (post = [] ∧ s.resolvent = c) ∨ Used post s.resolvent

theorem Step.Sound.not_isEmpty_of_parent {s : Step} {c : Clause} (h : s.Sound)
    (hc : s.left = c ∨ s.right = c) : c.isEmpty = false := by
  rw [← Bool.not_eq_true, Clause.isEmpty_iff]
  intro hempty
  rcases hc with rfl | rfl
  · exact hempty _ h.pivot_mem
  · exact hempty _ h.neg_pivot_mem

theorem Step.Sound.holds_resolvent {s : Step} {v : Assignment} (h : s.Sound)
    (hl : s.left.holds v) (hr : s.right.holds v) : s.resolvent.holds v := by
  rw [h.resolvent_eq]
  exact Clause.holds_resolve hl hr

theorem Inference.Admissible.sound {F : Formula} {r : Inference} (h : r.Admissible F) :
    r.step.Sound :=
  ⟨h.pivot_mem, h.neg_pivot_mem, h.resolvent_eq, h.not_tautology⟩

theorem Available.append {F : Formula} {xs ys : List Step} {c : Clause}
    (h : Available F ys c) : Available F (xs ++ ys) c := by
  rcases h with hc | ⟨s, hs, hc⟩
  · exact .inl hc
  · exact .inr ⟨s, List.mem_append_right xs hs, hc⟩

theorem Available.append_right {F : Formula} {xs ys : List Step} {c : Clause}
    (h : Available F xs c) : Available F (xs ++ ys) c := by
  rcases h with hc | ⟨s, hs, hc⟩
  · exact .inl hc
  · exact .inr ⟨s, List.mem_append_left ys hs, hc⟩

theorem Used.append_right {xs ys : List Step} {c : Clause} (h : Used xs c) :
    Used (xs ++ ys) c := by
  obtain ⟨s, hs, hc⟩ := h
  exact ⟨s, List.mem_append_left ys hs, hc⟩

namespace Derives

variable {F : Formula} {c : Clause} {xs ys : List Step} {s : Step}

theorem of_mem (hc : c ∈ F.clauses) : Derives F c [] where
  available_self := .inl hc
  sound := by simp
  available := by simp
  used := by simp

theorem join (hys : Derives F s.right ys) (hxs : Derives F s.left xs) (hs : s.Sound) :
    Derives F s.resolvent (ys ++ (xs ++ [s])) where
  available_self := .inr ⟨s, by simp, rfl⟩
  sound := by
    intro t ht
    simp only [List.mem_append, List.mem_singleton] at ht
    rcases ht with ht | ht | rfl
    · exact hys.sound t ht
    · exact hxs.sound t ht
    · exact hs
  available := by
    intro pre t post h
    rcases append_append_singleton_eq h with ⟨mid, hmid, _⟩ | ⟨mid, rest, rfl, hmid, _⟩ | hlast
    · exact hys.available pre t mid hmid
    · have ht := hxs.available mid t rest hmid
      exact ⟨ht.1.append, ht.2.append⟩
    · obtain ⟨rfl, rfl, _⟩ := hlast
      exact ⟨hxs.available_self.append, hys.available_self.append_right⟩
  used := by
    intro pre t post h
    rcases append_append_singleton_eq h with ⟨mid, hmid, rfl⟩ | ⟨mid, rest, _, hmid, rfl⟩ | hlast
    · right
      rcases hys.used pre t mid hmid with ⟨_, ht⟩ | hused
      · exact ⟨s, by simp, .inr ht.symm⟩
      · exact hused.append_right
    · right
      rcases hxs.used mid t rest hmid with ⟨_, ht⟩ | hused
      · exact ⟨s, by simp, .inl ht.symm⟩
      · exact hused.append_right
    · obtain ⟨_, rfl, rfl⟩ := hlast
      exact .inl ⟨rfl, rfl⟩

theorem isRefutation (h : Derives F c xs) (hne : xs ≠ []) (hc : c.isEmpty = true) :
    IsRefutation F xs where
  ne_nil := hne
  sound := h.sound
  available := h.available
  isEmpty_iff := by
    intro pre s post hsplit
    rcases h.used pre s post hsplit with ⟨rfl, rfl⟩ | ⟨t, ht, hparent⟩
    · exact ⟨fun _ => rfl, fun _ => hc⟩
    · -- a clause that is used holds the pivot or its negation
      have hsound := h.sound t (by simp [hsplit, ht])
      have hempty := hsound.not_isEmpty_of_parent hparent
      constructor
      · intro hs
        simp [hempty] at hs
      · intro hpost
        simp [hpost] at ht
  used := by
    intro pre s post hsplit hpost
    apply (h.used pre s post hsplit).resolve_left
    intro hlast
    exact hpost hlast.1

end Derives

theorem IsRefutation.not_holds {F : Formula} {steps : List Step} {v : Assignment}
    (h : IsRefutation F steps) : ¬ F.holds v := by
  intro hF
  -- a model makes the resolvents true one after the other
  have hall : ∀ n pre s post, pre.length = n → steps = pre ++ s :: post → s.resolvent.holds v := by
    intro n
    induction n using Nat.strongRecOn with
    | ind n ih =>
      intro pre s post hn hsplit
      have hearlier : ∀ c, Available F pre c → c.holds v := by
        intro c hc
        rcases hc with hc | ⟨t, ht, rfl⟩
        · exact hF c hc
        · obtain ⟨pre', mid, rfl⟩ := List.append_of_mem ht
          have hlt : pre'.length < n := by
            simp only [List.length_append, List.length_cons] at hn
            omega
          exact ih pre'.length hlt pre' t (mid ++ s :: post) rfl (by simp [hsplit])
      have hparents := h.available pre s post hsplit
      have hsound := h.sound s (by simp [hsplit])
      exact hsound.holds_resolvent (hearlier _ hparents.1) (hearlier _ hparents.2)
  obtain ⟨steps', s, hsplit⟩ := List.eq_nil_or_concat steps |>.resolve_left h.ne_nil
  rw [List.concat_eq_append] at hsplit
  have hlast := (h.isEmpty_iff steps' s [] hsplit).mpr rfl
  exact Clause.not_holds_of_isEmpty hlast (hall _ steps' s [] rfl hsplit)

def Origin.step? : Origin → Option Step
  | .given => none
  | .derived _ _ step => some step

namespace Derivation

/-- The steps that derive clause `n`, with those of a shared parent once for each use. -/
def history (D : Derivation) (n : Nat) : List Step :=
  match _h : D.origins[n]? with
  | some (.derived left right step) => D.history right ++ (D.history left ++ [step])
  | _ => []
termination_by n
decreasing_by
  · exact (D.earlier n left right step _h).2
  · exact (D.earlier n left right step _h).1

theorem history_of_not_derived {D : Derivation} {n : Nat}
    (h : ∀ left right s, D.origins[n]? ≠ some (.derived left right s)) : D.history n = [] := by
  rw [history]
  split
  · next left right s h' => exact absurd h' (h left right s)
  · rfl

theorem history_of_given {D : Derivation} {n : Nat} (h : D.origins[n]? = some .given) :
    D.history n = [] :=
  history_of_not_derived (by simp [h])

theorem history_of_derived {D : Derivation} {n left right : Nat} {s : Step}
    (h : D.origins[n]? = some (.derived left right s)) :
    D.history n = D.history right ++ (D.history left ++ [s]) := by
  rw [history]
  split
  · next h' =>
    rw [h] at h'
    cases h'
    rfl
  · next h' => exact absurd h (h' left right s)

theorem collect_eq (D : Derivation) (n : Nat) (steps : List Step) :
    D.collect n steps = D.history n ++ steps := by
  rw [collect]
  split
  · next left right s h =>
    have hleft := (D.earlier n left right s h).1
    have hright := (D.earlier n left right s h).2
    rw [history_of_derived h, collect_eq D left, collect_eq D right]
    simp
  · next h =>
    rw [history_of_not_derived h]
    rfl
termination_by n

theorem proof_eq (D : Derivation) (last : Inference) :
    D.proof last = D.history last.right ++ (D.history last.left ++ [last.step]) := by
  rw [proof, collect_eq, collect_eq]

/-- The steps to the clauses that were derived, in the order of the clauses. -/
def steps (D : Derivation) : List Step := D.origins.filterMap Origin.step?

theorem steps_start (F : Formula) : (start F).steps = [] := by
  simp [steps, start, Origin.step?, List.filterMap_replicate]

theorem steps_add {D : Derivation} {r : Inference} (h : r.Admissible D.formula) :
    (D.add r h).steps = D.steps ++ [r.step] :=
  List.filterMap_append

/-- The parents of a derived clause stand before it, so the induction is on its place. -/
theorem mem_steps_of_mem_history {D : Derivation} {n : Nat} {s : Step} (hs : s ∈ D.history n) :
    s ∈ D.steps := by
  cases ho : D.origins[n]? with
  | none => simp [history_of_not_derived, ho] at hs
  | some o =>
    cases o with
    | given => simp [history_of_not_derived, ho] at hs
    | derived left right t =>
      have hearlier := D.earlier n left right t ho
      rw [history_of_derived ho] at hs
      simp only [List.mem_append, List.mem_singleton] at hs
      rcases hs with hs | hs | rfl
      · exact mem_steps_of_mem_history hs
      · exact mem_steps_of_mem_history hs
      · exact List.mem_filterMap.mpr ⟨_, List.mem_of_getElem? ho, rfl⟩
termination_by n

theorem mem_of_mem_proof {D : Derivation} {last : Inference} {s : Step} (hs : s ∈ D.proof last) :
    s ∈ D.steps ++ [last.step] := by
  rw [proof_eq] at hs
  simp only [List.mem_append, List.mem_singleton] at hs ⊢
  rcases hs with hs | hs | hs
  · exact .inl (mem_steps_of_mem_history hs)
  · exact .inl (mem_steps_of_mem_history hs)
  · exact .inr hs

/-- The places of a derivation that grew out of `F` mean what they should. -/
structure Justified (F : Formula) (D : Derivation) : Prop where
  given : ∀ n : Nat, D.origins[n]? = some .given →
    ∃ c ∈ F.clauses, D.formula.clauses[n]? = some c
  derived : ∀ (n left right : Nat) (s : Step), D.origins[n]? = some (.derived left right s) →
    s.Sound ∧ D.formula.clauses[left]? = some s.left ∧
      D.formula.clauses[right]? = some s.right ∧ D.formula.clauses[n]? = some s.resolvent

theorem justified_start (F : Formula) : (start F).Justified F where
  given := by
    intro n h
    have hn : n < F.clauses.length := by
      simpa [start, List.getElem?_replicate, Formula.size] using h
    exact ⟨F.clauses[n], List.getElem_mem hn, List.getElem?_eq_getElem hn⟩
  derived := by
    intro n left right s h
    simp [start, List.getElem?_replicate] at h

section
variable {F : Formula} {D : Derivation} {r : Inference} (h : r.Admissible D.formula)

theorem clauses_add : (D.add r h).formula.clauses = D.formula.clauses ++ [r.step.resolvent] :=
  Formula.clauses_insert_of_not_contains h.not_contains

theorem getElem?_clauses_add {n : Nat} {c : Clause} (hn : D.formula.clauses[n]? = some c) :
    (D.add r h).formula.clauses[n]? = some c := by
  rw [clauses_add, List.getElem?_append_left (List.getElem?_eq_some_iff.mp hn).1]
  exact hn

theorem getElem?_origins_add {n : Nat} {o : Origin} (hn : (D.add r h).origins[n]? = some o) :
    D.origins[n]? = some o ∨ (n = D.formula.size ∧ o = .derived r.left r.right r.step) := by
  have hn : (D.origins ++ [.derived r.left r.right r.step])[n]? = some o := hn
  rw [List.getElem?_append] at hn
  split at hn
  · exact .inl hn
  · next hge =>
    have hlen := D.length_origins
    rw [List.getElem?_singleton] at hn
    split at hn
    · exact .inr ⟨by omega, (Option.some.inj hn).symm⟩
    · simp at hn

theorem Justified.add (hD : D.Justified F) : (D.add r h).Justified F where
  given := by
    intro n hn
    rcases getElem?_origins_add h hn with hold | ⟨_, hnew⟩
    · obtain ⟨c, hc, hget⟩ := hD.given n hold
      exact ⟨c, hc, getElem?_clauses_add h hget⟩
    · cases hnew
  derived := by
    intro n left right s hn
    rcases getElem?_origins_add h hn with hold | ⟨rfl, hnew⟩
    · obtain ⟨hs, hleft, hright, hget⟩ := hD.derived n left right s hold
      exact ⟨hs, getElem?_clauses_add h hleft, getElem?_clauses_add h hright,
        getElem?_clauses_add h hget⟩
    · cases hnew
      refine ⟨h.sound, getElem?_clauses_add h h.left_eq, getElem?_clauses_add h h.right_eq, ?_⟩
      rw [clauses_add]
      exact List.getElem?_concat_length

end

theorem Justified.of_passes {F : Formula} {D E : Derivation} {n : Nat} (hD : D.Justified F)
    (h : Passes D n E) : E.Justified F := by
  induction h with
  | zero => exact hD
  | succ _ hnext _ ih => exact ih.add (admissible_of_next? hnext)

theorem exists_origin {D : Derivation} {n : Nat} (hn : n < D.formula.size) :
    ∃ o, D.origins[n]? = some o := by
  rw [← D.length_origins] at hn
  exact ⟨_, List.getElem?_eq_getElem hn⟩

theorem Justified.derives_history {F : Formula} {D : Derivation} (hD : D.Justified F) {n : Nat}
    {c : Clause} (hc : D.formula.clauses[n]? = some c) : Derives F c (D.history n) := by
  obtain ⟨o, ho⟩ := exists_origin (List.getElem?_eq_some_iff.mp hc).1
  cases o with
  | given =>
    obtain ⟨d, hd, hget⟩ := hD.given n ho
    obtain rfl : d = c := Option.some.inj (hget.symm.trans hc)
    rw [history_of_given ho]
    exact .of_mem hd
  | derived left right s =>
    obtain ⟨hs, hleft, hright, hget⟩ := hD.derived n left right s ho
    obtain rfl : s.resolvent = c := Option.some.inj (hget.symm.trans hc)
    -- the parents stand before the clause, so the induction is on its place
    have hearlier := D.earlier n left right s ho
    rw [history_of_derived ho]
    exact (hD.derives_history hright).join (hD.derives_history hleft) hs
termination_by n

end Derivation

section
variable {σ : Type} {observe : Event → σ → σ} {stops : Interrupts} {F : Formula} {init : σ}
  {proof : List Step}

/-- The proof that a run returns is a refutation of the formula that the run was given, also if
polls could have stopped it. It has no steps if the formula holds the empty clause. -/
theorem isRefutation_of_refute
    (h : (refute observe stops F init).outcome = .finished (.refuted proof)) :
    (F.isFalse = true → proof = []) ∧ (F.isFalse = false → IsRefutation F proof) := by
  constructor
  · intro hF
    rw [refute_of_isFalse observe stops hF] at h
    cases h
    rfl
  · intro hF
    obtain ⟨n, E, hruns⟩ := exists_runs_refute observe stops hF init
    have hhalts := hruns.halts
    rw [h] at hhalts
    cases hhalts with
    | @refuted r _ hnext hr =>
      have hE : E.Justified F := (Derivation.justified_start F).of_passes hruns.passes
      have hadm := admissible_of_next? hnext
      have hleft := hE.derives_history hadm.left_eq
      have hright := hE.derives_history hadm.right_eq
      rw [E.proof_eq r]
      exact (hright.join hleft hadm.sound).isRefutation (by simp) hr

end

/-- The four clauses over two variables: both parents of the last step have to be derived. -/
def fourCorners : Formula :=
  .ofList [.ofList [.pos 'a', .pos 'b'], .ofList [.neg 'a', .pos 'b'],
    .ofList [.pos 'a', .neg 'b'], .ofList [.neg 'a', .neg 'b']]

theorem refute_fourCorners :
    (refute (fun _ s => s) .never fourCorners ()).outcome = .finished (.refuted
      [⟨.ofList [.pos 'a', .neg 'b'], .ofList [.neg 'a', .neg 'b'], .pos 'a', .ofList [.neg 'b']⟩,
        ⟨.ofList [.pos 'a', .pos 'b'], .ofList [.neg 'a', .pos 'b'], .pos 'a', .ofList [.pos 'b']⟩,
        ⟨.ofList [.pos 'b'], .ofList [.neg 'b'], .pos 'b', .ofList []⟩]) := by
  cbv

theorem isRefutation_fourCorners :
    ∃ proof, (refute (fun _ s => s) .never fourCorners ()).outcome = .finished (.refuted proof) ∧
      IsRefutation fourCorners proof :=
  ⟨_, refute_fourCorners, (isRefutation_of_refute refute_fourCorners).2 (by decide)⟩

end Clausal.Resolution
