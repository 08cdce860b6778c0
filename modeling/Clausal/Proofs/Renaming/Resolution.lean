import Clausal.Proofs.Renaming.Formulas
import Clausal.Proofs.Resolution.Refutation
import Clausal.Proofs.Resolution.Stopping

/-!
# Resolution of renamed formulas

The clauses of a renamed formula stand where those of the formula stand, and the tests that decide
whether an inference is admissible go along with the renaming. So the next inference is the renamed
one, with the same places, and a run on the renamed formula is the run on the formula, seen through
the renaming: with the same polls, and with the grown formula, the proof and the events renamed.
-/

set_option autoImplicit false

namespace Clausal.Resolution

variable {r : Renaming}

def Step.rename (r : Renaming) (s : Step) : Step where
  left := s.left.rename r
  right := s.right.rename r
  pivot := s.pivot.rename r
  resolvent := s.resolvent.rename r

def Inference.rename (r : Renaming) (i : Inference) : Inference where
  left := i.left
  right := i.right
  step := i.step.rename r

def Origin.rename (r : Renaming) : Origin → Origin
  | .given => .given
  | .derived left right step => .derived left right (step.rename r)

def Verdict.rename (r : Renaming) : Verdict → Verdict
  | .refuted proof => .refuted (proof.map (Step.rename r))
  | .saturated => .saturated

theorem Origin.rename_eq_derived {o : Origin} {left right : Nat} {s : Step}
    (h : o.rename r = .derived left right s) :
    ∃ t, o = .derived left right t ∧ t.rename r = s := by
  cases o with
  | given => cases h
  | derived =>
    cases h
    exact ⟨_, rfl, rfl⟩

section
variable (hr : r.Injective)
include hr

theorem infer?_rename (F : Formula) (i : Nat) (c : Clause) (l : Literal) (j : Nat) (d : Clause) :
    infer? (F.rename r) i (c.rename r) (l.rename r) j (d.rename r) =
      (infer? F i c l j d).map (Inference.rename r) := by
  simp only [infer?, ← Literal.rename_neg, Clause.rename_mem hr, ← Clause.rename_resolve hr,
    Clause.isTautology_rename hr, Formula.contains_rename hr]
  split
  · split
    · rfl
    · rfl
  · rfl

theorem next?_rename (F : Formula) :
    next? (F.rename r) = (next? F).map (Inference.rename r) := by
  simp only [next?, Formula.clauses_rename hr, List.zipIdx_map, List.findSome?_map,
    List.map_findSome?, Function.comp_def, Prod.map, id, Clause.literals_rename hr,
    infer?_rename hr]

end

namespace Derivation

theorem ext {D E : Derivation} (hformula : D.formula = E.formula)
    (horigins : D.origins = E.origins) : D = E := by
  cases D
  cases E
  cases hformula
  cases horigins
  rfl

variable (hr : r.Injective)

def rename (D : Derivation) : Derivation where
  formula := D.formula.rename r
  origins := D.origins.map (Origin.rename r)
  length_origins := by rw [List.length_map, D.length_origins, Formula.size_rename hr]
  earlier := by
    intro n left right s h
    rw [List.getElem?_map] at h
    obtain ⟨o, ho, hs⟩ := Option.map_eq_some_iff.mp h
    obtain ⟨t, rfl, _⟩ := Origin.rename_eq_derived hs
    exact D.earlier n left right t ho

theorem start_rename (F : Formula) : start (F.rename r) = (start F).rename hr := by
  apply ext
  · rfl
  · simp [start, rename, Origin.rename, Formula.size_rename hr]

theorem add_rename {D : Derivation} {i : Inference} (h : i.Admissible D.formula)
    (h' : (i.rename r).Admissible (D.rename hr).formula) :
    (D.rename hr).add (i.rename r) h' = (D.add i h).rename hr := by
  apply ext
  · exact (Formula.rename_insert hr D.formula i.step.resolvent).symm
  · simp [add, rename, Origin.rename, Inference.rename]

/-- The parents of a derived clause stand before it, so the induction is on its place. -/
theorem history_rename (D : Derivation) (n : Nat) :
    (D.rename hr).history n = (D.history n).map (Step.rename r) := by
  have horigin : (D.rename hr).origins[n]? = D.origins[n]?.map (Origin.rename r) :=
    List.getElem?_map
  cases ho : D.origins[n]? with
  | none =>
    rw [history_of_not_derived (by simp [horigin, ho]), history_of_not_derived (by simp [ho])]
    rfl
  | some o =>
    rw [ho] at horigin
    cases o with
    | given =>
      rw [history_of_not_derived (by simp [horigin, Origin.rename]),
        history_of_not_derived (by simp [ho])]
      rfl
    | derived left right s =>
      have hearlier := D.earlier n left right s ho
      rw [history_of_derived horigin, history_of_derived ho, history_rename D left,
        history_rename D right]
      simp
termination_by n

theorem proof_rename (D : Derivation) (last : Inference) :
    (D.rename hr).proof (last.rename r) = (D.proof last).map (Step.rename r) := by
  rw [proof_eq, proof_eq, List.map_append, List.map_append, List.map_singleton,
    ← history_rename hr, ← history_rename hr]
  rfl

end Derivation

variable (hr : r.Injective)

def Event.rename : Event → Event
  | .refutedAtOnce => .refutedAtOnce
  | .pass D => .pass (D.rename hr)
  | .resolved s => .resolved (s.rename r)
  | .refuted size proof => .refuted size (proof.map (Step.rename r))
  | .saturated size => .saturated size
  | .aborted size => .aborted size

variable {σ : Type}

def Result.rename (r : Renaming) (s : Result σ) : Result σ where
  outcome := s.outcome.map (Verdict.rename r)
  formula := s.formula.rename r
  polls := s.polls
  seen := s.seen

variable (observe : Event → σ → σ) (stops : Interrupts)

theorem saturate_rename (D : Derivation) (polls : Nat) (seen : σ) :
    saturate observe stops (D.rename hr) polls seen =
      (saturate (fun e => observe (e.rename hr)) stops D polls seen).rename r := by
  have hsize (D : Derivation) : (D.rename hr).formula.size = D.formula.size :=
    Formula.size_rename hr D.formula
  have hnext (D : Derivation) :
      next? (D.rename hr).formula = (next? D.formula).map (Inference.rename r) :=
    next?_rename hr D.formula
  have hempty (i : Inference) : (i.rename r).step.resolvent.isEmpty = i.step.resolvent.isEmpty :=
    Clause.isEmpty_rename hr i.step.resolvent
  fun_induction saturate (fun e => observe (e.rename hr)) stops D polls seen with
  | case1 D polls seen size hstop =>
    rw [saturate_of_stop observe hstop, hsize]
    rfl
  | case2 D polls seen size hgo seen' h =>
    rw [saturate_of_none observe hgo ((hnext D).trans (by rw [h]; rfl)), hsize]
    rfl
  | case3 D polls seen size hgo seen' i h seen'' hi =>
    rw [saturate_of_isEmpty observe hgo ((hnext D).trans (by rw [h]; rfl)) ((hempty i).trans hi),
      hsize, Derivation.proof_rename hr]
    rfl
  | case4 D polls seen hgo seen' i h seen'' hi ih =>
    rw [saturate_of_next observe hgo ((hnext D).trans (by rw [h]; rfl)) (hempty i ▸ hi),
      Derivation.add_rename hr (admissible_of_next? h)]
    exact ih

/-- The run on the renamed formula is that on the formula, seen through the renaming. -/
theorem refute_rename (F : Formula) (init : σ) :
    refute observe stops (F.rename r) init =
      (refute (fun e => observe (e.rename hr)) stops F init).rename r := by
  unfold refute
  rw [Formula.isFalse_rename hr]
  split
  · rfl
  · rw [Derivation.start_rename hr]
    exact saturate_rename hr observe stops (.start F) 0 init

end Clausal.Resolution
