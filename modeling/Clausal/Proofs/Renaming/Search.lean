import Clausal.Proofs.Renaming.Formulas
import Clausal.Proofs.Search.Trail

/-!
# Searches of renamed formulas

The moves of a renamed formula are the renamed moves, and what they leave is the renamed residual.
So the trail of a search, renamed throughout, is a trail of the renamed formula with the same
signal, and the search of the renamed formula is the search of the formula, seen through the
renaming: with the same polls and with the allocations and events renamed.
-/

set_option autoImplicit false

namespace Clausal

variable {r : Renaming}

namespace Allocation

def rename (r : Renaming) (a : Allocation) : Allocation := ⟨a.literals.map (Literal.rename r)⟩

theorem same_rename (hr : r.Injective) (a b : Allocation) :
    (a.rename r).same (b.rename r) = a.same b :=
  ListSet.equal_map (Literal.rename_beq hr) a.literals b.literals

end Allocation

namespace Search

def Move.rename (r : Renaming) (m : Move) : Move := ⟨m.literal.rename r, m.forced⟩

def Task.rename (r : Renaming) : Task → Task
  | .search => .search
  | .row ms => .row (ms.map (Move.rename r))
  | .assign l => .assign (l.rename r)

def Event.rename (r : Renaming) : Event → Event
  | .entered path F => .entered (path.map (Literal.rename r)) (F.rename r)
  | .step depth l F G => .step depth (l.rename r) (F.rename r) (G.rename r)
  | .found depth a => .found depth (a.rename r)
  | .aborted depth => .aborted depth
  | .finished count => .finished count

def Result.rename {σ : Type} (r : Renaming) (s : Result σ) : Result σ where
  outcome := s.outcome.map (List.map (Allocation.rename r))
  polls := s.polls
  seen := s.seen

theorem isPoll_rename (e : Event) : (e.rename r).isPoll = e.isPoll := by
  cases e <;> rfl

theorem allocation?_rename (e : Event) :
    (e.rename r).allocation? = e.allocation?.map (Allocation.rename r) := by
  cases e <;> rfl

theorem pollCount_rename (es : List Event) :
    pollCount (es.map (Event.rename r)) = pollCount es := by
  simp only [pollCount, List.countP_map, Function.comp_def, isPoll_rename]

section
variable (hr : r.Injective)
include hr

theorem unitLiterals_rename (F : Formula) :
    unitLiterals (F.rename r) = (unitLiterals F).map (Literal.rename r) := by
  simp only [unitLiterals, Formula.clauses_rename hr, List.filterMap_map, List.map_filterMap,
    Function.comp_def, Clause.unit?_rename hr]

theorem branchLiteral?_rename (F : Formula) :
    branchLiteral? (F.rename r) = (branchLiteral? F).map (Literal.rename r) := by
  unfold branchLiteral?
  rw [Formula.clauses_rename hr]
  cases F.clauses with
  | nil => rfl
  | cons c cs => exact Clause.first?_rename hr c

theorem moves_rename (F : Formula) : moves (F.rename r) = (moves F).map (Move.rename r) := by
  unfold moves
  rw [unitLiterals_rename hr, branchLiteral?_rename hr, List.map_append, List.map_map, List.map_map]
  congr 1
  cases branchLiteral? F with
  | none => rfl
  | some l => simp [Move.rename]

theorem recorded_rename (es : List Event) :
    recorded (es.map (Event.rename r)) = (recorded es).map (Allocation.rename r) := by
  have hallocations : (es.map (Event.rename r)).filterMap Event.allocation? =
      (es.filterMap Event.allocation?).map (Allocation.rename r) := by
    simp only [List.filterMap_map, List.map_filterMap, Function.comp_def, allocation?_rename]
  rw [recorded, hallocations, ListSet.ofList_map (Allocation.same_rename hr), recorded]

/-- Each rule of a trail applies to the renamed task as it did to the task. -/
theorem Trail.rename {stops : Interrupts} {mode : Mode} {path : List Literal} {F : Formula}
    {task : Task} {n : Nat} {signal : Signal} {es : List Event}
    (h : Trail stops mode path F task n signal es) :
    Trail stops mode (path.map (Literal.rename r)) (F.rename r) (task.rename r) n signal
      (es.map (Event.rename r)) := by
  induction h with
  | @stopped path F n h =>
    have hstopped : Trail stops mode (path.map (Literal.rename r)) (F.rename r) .search n _ _ :=
      .stopped h
    rwa [List.length_map] at hstopped
  | @entered path F n signal es h _ ih =>
    apply Trail.entered h
    rw [moves_rename hr]
    exact ih
  | exhausted => exact .exhausted
  | ended _ h ih => exact .ended ih h
  | @continued _ _ _ m ms _ _ es _ _ h _ ih ih' =>
    rw [List.map_append]
    refine .continued ih h ?_
    rw [pollCount_rename]
    exact ih'
  | @completed path F n l h =>
    rw [← Formula.isTrue_rename hr, Formula.rename_assign hr] at h
    have hcompleted :
        Trail stops mode (path.map (Literal.rename r)) _ (.assign (l.rename r)) n _ _ :=
      .completed h
    rw [List.length_map, ← Formula.rename_assign hr] at hcompleted
    simp only [List.map_cons, List.map_nil, Event.rename, Allocation.rename, List.map_append]
    exact hcompleted
  | @contradicted path F n l h h' =>
    rw [← Formula.isTrue_rename hr, Formula.rename_assign hr] at h
    rw [← Formula.isFalse_rename hr, Formula.rename_assign hr] at h'
    have hcontradicted :
        Trail stops mode (path.map (Literal.rename r)) _ (.assign (l.rename r)) n _ _ :=
      .contradicted h h'
    rw [List.length_map, ← Formula.rename_assign hr] at hcontradicted
    exact hcontradicted
  | @descended path F n l signal es h h' _ ih =>
    rw [← Formula.isTrue_rename hr, Formula.rename_assign hr] at h
    rw [← Formula.isFalse_rename hr, Formula.rename_assign hr] at h'
    rw [List.map_append, List.map_singleton, Formula.rename_assign hr] at ih
    have hdescended := Trail.descended h h' ih
    rw [List.length_map, ← Formula.rename_assign hr] at hdescended
    exact hdescended

theorem outcome_rename (signal : Signal) (es : List Event) :
    signal.outcome (es.map (Event.rename r)) =
      (signal.outcome es).map (List.map (Allocation.rename r)) := by
  cases signal <;> simp [Signal.outcome, Outcome.map, recorded_rename hr]

theorem closing_rename (signal : Signal) (es : List Event) :
    signal.closing (es.map (Event.rename r)) = (signal.closing es).map (Event.rename r) := by
  cases signal <;> simp [Signal.closing, Event.rename, recorded_rename hr]

/-- The search of the renamed formula is that of the formula, seen through the renaming. -/
theorem solve_rename {σ : Type} (observe : Event → σ → σ) (stops : Interrupts) (mode : Mode)
    (F : Formula) (init : σ) :
    solve observe stops mode (F.rename r) init =
      (solve (fun e => observe (e.rename r)) stops mode F init).rename r := by
  have htrue := Formula.isTrue_rename hr F
  have hfalse := Formula.isFalse_rename hr F
  cases hF : F.isTrue with
  | true =>
    rw [hF] at htrue
    simp [solve, hF, htrue, Result.rename, Outcome.map, Progress.record, Allocation.rename,
      Event.rename, ListSet.insert, ListSet.contains]
  | false =>
    rw [hF] at htrue
    cases hF' : F.isFalse with
    | true =>
      rw [hF'] at hfalse
      simp [solve, hF, hF', htrue, hfalse, Result.rename, Outcome.map, Event.rename]
    | false =>
      rw [hF'] at hfalse
      obtain ⟨signal, es, htrail⟩ := exists_trail stops mode F [] 0
      rw [solve_eq_of_trail observe htrue hfalse (htrail.rename hr), pollCount_rename,
        outcome_rename hr, closing_rename hr, ← List.map_append,
        solve_eq_of_trail _ hF hF' htrail]
      simp only [Result.rename, observeAll, List.foldl_map]

end
end Search
end Clausal
