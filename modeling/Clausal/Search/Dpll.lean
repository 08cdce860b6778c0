import Clausal.Flags
import Clausal.Search.Event

/-!
# Searching for allocations

A Davis-Putnam-Logemann-Loveland search. It assigns a literal, simplifies, and searches what is
left. In each formula the literals of the unit clauses are tried first, in the order of the
clauses, and then the first literal of the first clause and its negation.

The contradiction of a unit literal ends the search of its formula, and so does an allocation that
is recorded under it; a unit literal whose subformula was searched through does not, and the
search goes on with the next one. Every assignment removes a variable, so the search ends.

The search polls once for each formula that it enters, and tells an observer of every event. The
observer's state is carried along and never looked at.
-/

set_option autoImplicit false

namespace Clausal.Search

/-- Whether to stop at the first allocation or to collect all that the search runs into. -/
inductive Mode
  | first
  | all
deriving DecidableEq

structure Move where
  literal : Literal
  /-- The literal stands alone in a clause, so its negation need not be tried. -/
  forced : Bool
deriving DecidableEq

def unitLiterals (F : Formula) : List Literal := F.clauses.filterMap Clause.unit?

def branchLiteral? (F : Formula) : Option Literal := F.clauses.head?.bind Clause.first?

def moves (F : Formula) : List Move :=
  (unitLiterals F).map (⟨·, true⟩) ++
    match branchLiteral? F with
    | some l => [⟨l, false⟩, ⟨-l, false⟩]
    | none => []

theorem var_mem_of_unit {F : Formula} {l : Literal} (h : l ∈ unitLiterals F) : l.var ∈ F.vars := by
  obtain ⟨c, hc, hl⟩ := List.mem_filterMap.mp h
  exact Formula.var_mem_vars hc (Clause.unit?_mem hl)

theorem var_mem_of_branch {F : Formula} {l : Literal} (h : branchLiteral? F = some l) :
    l.var ∈ F.vars := by
  obtain ⟨c, hc, hl⟩ := Option.bind_eq_some_iff.mp h
  exact Formula.var_mem_vars (List.mem_of_mem_head? hc) (Clause.first?_mem hl)

theorem var_mem_of_mem_moves {F : Formula} {m : Move} (h : m ∈ moves F) :
    m.literal.var ∈ F.vars := by
  rcases List.mem_append.mp h with h | h
  · obtain ⟨l, hl, rfl⟩ := List.mem_map.mp h
    exact var_mem_of_unit hl
  · split at h
    · next l hl =>
      have hvar := var_mem_of_branch hl
      simp only [List.mem_cons, List.not_mem_nil, or_false] at h
      rcases h with rfl | rfl
      · exact hvar
      · exact hvar
    · simp at h

/-- What has been gathered up to a point of the search. -/
structure Progress (σ : Type) where
  polls : Nat
  found : List Allocation
  seen : σ

/-- What a step, or the search of a formula, says to the search around it. -/
inductive Signal
  /-- The literal led to a contradiction or to an allocation that was recorded. -/
  | closed
  /-- An allocation was found and the search is over. -/
  | satisfied
  /-- All below was searched and the search goes on. -/
  | explored
  | aborted
deriving DecidableEq

namespace Progress

variable {σ : Type}

def note (observe : Event → σ → σ) (s : Progress σ) (e : Event) : Progress σ :=
  { s with seen := observe e s.seen }

/-- An allocation of the same literals is not recorded twice. -/
def record (s : Progress σ) (a : Allocation) : Progress σ :=
  { s with found := ListSet.insert Allocation.same s.found a }

def poll (s : Progress σ) : Progress σ := { s with polls := s.polls + 1 }

end Progress

section
variable {σ : Type} (observe : Event → σ → σ)

/-- Tries the moves in turn until one of them ends the search of the formula. -/
def attempt {α : Type} (forced : α → Bool) (step : α → Progress σ → Signal × Progress σ) :
    List α → Progress σ → Signal × Progress σ
  | [], s => (.explored, s)
  | m :: ms, s =>
    match step m s with
    | (.closed, t) => if forced m then (.explored, t) else attempt forced step ms t
    | (.explored, t) => attempt forced step ms t
    | (.satisfied, t) => (.satisfied, t)
    | (.aborted, t) => (.aborted, t)

theorem attempt_map {α β : Type} (g : α → β) (forced : β → Bool)
    (step : β → Progress σ → Signal × Progress σ) (ms : List α) (s : Progress σ) :
    attempt (fun m => forced (g m)) (fun m => step (g m)) ms s =
      attempt forced step (ms.map g) s := by
  induction ms generalizing s with
  | nil => rfl
  | cons m ms ih =>
    simp only [attempt, List.map_cons]
    split <;> simp [ih]

/-- Assigns `l` in `F` and searches what is left with `descend`, if that is open. -/
def step (mode : Mode) (path : List Literal) (F : Formula) (l : Literal)
    (descend : Progress σ → Signal × Progress σ) (s : Progress σ) : Signal × Progress σ :=
  let depth := path.length
  let G := F.assign l
  let s := s.note observe (.step depth l F G)
  if G.isTrue then
    let a : Allocation := ⟨path ++ [l]⟩
    let s := (s.note observe (.found depth a)).record a
    match mode with
    | .first => (.satisfied, s)
    | .all => (.closed, s)
  else if G.isFalse then (.closed, s)
  else descend s

/-- Searches an open formula under the literals of `path`. -/
def run (stops : Interrupts) (mode : Mode) (path : List Literal) (F : Formula)
    (s : Progress σ) : Signal × Progress σ :=
  if stops s.polls then (.aborted, s.poll.note observe (.aborted path.length))
  else
    attempt (fun m => m.1.forced)
      (fun m => step observe mode path F m.1.literal
        (run stops mode (path ++ [m.1.literal]) (F.assign m.1.literal)))
      (moves F).attach (s.poll.note observe (.entered path F))
termination_by F.vars.length
decreasing_by exact Formula.vars_assign_lt (var_mem_of_mem_moves m.2)

theorem run_eq (stops : Interrupts) (mode : Mode) (path : List Literal) (F : Formula)
    (s : Progress σ) :
    run observe stops mode path F s =
      if stops s.polls then (.aborted, s.poll.note observe (.aborted path.length))
      else
        attempt Move.forced
          (fun m => step observe mode path F m.literal
            (run observe stops mode (path ++ [m.literal]) (F.assign m.literal)))
          (moves F) (s.poll.note observe (.entered path F)) := by
  rw [run]
  split
  · rfl
  · rw [attempt_map Subtype.val Move.forced fun m => step observe mode path F m.literal
      (run observe stops mode (path ++ [m.literal]) (F.assign m.literal)),
      List.attach_map_subtype_val]

structure Result (σ : Type) where
  outcome : Outcome (List Allocation)
  polls : Nat
  seen : σ

/-- The allocations of `F`, in the order in which they are found. A formula that is trivially true
has the empty allocation, one that is trivially false has none, and neither is searched. -/
def solve (stops : Interrupts) (mode : Mode) (F : Formula) (init : σ) : Result σ :=
  let start : Progress σ := ⟨0, [], init⟩
  let (signal, s) :=
    if F.isTrue then (.explored, start.record ⟨[]⟩)
    else if F.isFalse then (.explored, start)
    else run observe stops mode [] F start
  match signal with
  | .aborted => ⟨.aborted, s.polls, s.seen⟩
  | _ => ⟨.finished s.found, s.polls, observe (.finished s.found.length) s.seen⟩

end
end Clausal.Search
