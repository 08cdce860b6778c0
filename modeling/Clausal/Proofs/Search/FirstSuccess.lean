import Clausal.Proofs.Search.Interruption
import Clausal.Proofs.Writing

/-!
# The search for one allocation

Up to the first allocation that it finds, a search for one allocation and a search for all of them
do the same. There the first ends: its success is handed up through every row of moves, and none
of them goes on. The second records the allocation, closes the step and continues.

The main statement: the trace of the search for one allocation is that of the search for all of
them, cut right behind the first line that tells of an allocation, and it is all of that trace if
there is no such line.
-/

set_option autoImplicit false

namespace Clausal.Search

/-- No allocation is found in these events. -/
def Barren (es : List Event) : Prop := ∀ e ∈ es, e.allocation? = none

theorem barren_nil : Barren [] := by simp [Barren]

theorem Barren.cons {e : Event} {es : List Event} (he : e.allocation? = none) (h : Barren es) :
    Barren (e :: es) := List.forall_mem_cons.mpr ⟨he, h⟩

theorem Barren.append {es fs : List Event} (h : Barren es) (h' : Barren fs) :
    Barren (es ++ fs) := List.forall_mem_append.mpr ⟨h, h'⟩

theorem Barren.filterMap_eq {es : List Event} (h : Barren es) :
    es.filterMap Event.allocation? = [] := List.filterMap_eq_nil_iff.mpr h

theorem Barren.recorded_eq {es : List Event} (h : Barren es) : recorded es = [] := by
  rw [recorded, h.filterMap_eq]
  rfl

/-- No line of these events tells of an allocation. -/
theorem Barren.not_tellsFound {es : List Event} (h : Barren es) :
    ∀ line ∈ es.flatMap Event.lines, ¬ TellsFound line := by
  intro line hline
  obtain ⟨e, he, hmem⟩ := List.mem_flatMap.mp hline
  have hnone := h e he
  rw [Event.lines_eq_shown] at hmem
  apply Event.not_tellsFound ?_ hmem
  rintro depth a rfl
  cases hnone

theorem filterMap_found {before : List Event} (h : Barren before) (depth : Nat) (a : Allocation)
    (after : List Event) : (before ++ .found depth a :: after).filterMap Event.allocation? =
      a :: after.filterMap Event.allocation? := by
  rw [List.filterMap_append, h.filterMap_eq, List.nil_append]
  rfl

theorem recorded_found {before : List Event} (h : Barren before) (depth : Nat) (a : Allocation) :
    recorded (before ++ [.found depth a]) = [a] := by
  rw [recorded, filterMap_found h]
  rfl

/-- The allocation that is found first heads the list, whatever is found later. -/
theorem exists_recorded_eq {before : List Event} (h : Barren before) (depth : Nat) (a : Allocation)
    (after : List Event) : ∃ as, recorded (before ++ .found depth a :: after) = a :: as := by
  rw [recorded, filterMap_found h]
  have hprefix : [a] <+: (after.filterMap Event.allocation?).foldl
      (ListSet.insert Allocation.same) [a] := ListSet.prefix_foldl_insert _ _
  obtain ⟨as, has⟩ := hprefix
  exact ⟨as, has.symm⟩

section
variable {stops : Interrupts} {path : List Literal} {F : Formula} {task : Task} {n : Nat}
  {signal : Signal} {es : List Event}

/-- The search for all allocations goes through its events without finding one, and then the search
for one allocation has the same trail, or that search ends at the first that is found. -/
theorem Trail.first_of_all (h : Trail stops .all path F task n signal es) :
    (Barren es ∧ Trail stops .first path F task n signal es) ∨
      ∃ before depth a after, es = before ++ .found depth a :: after ∧ Barren before ∧
        Trail stops .first path F task n .satisfied (before ++ [.found depth a]) := by
  induction h with
  | stopped h => exact .inl ⟨barren_nil.cons rfl, .stopped h⟩
  | entered h _ ih =>
    rcases ih with ⟨hes, hfirst⟩ | ⟨before, depth, a, after, rfl, hbefore, hfirst⟩
    · exact .inl ⟨hes.cons rfl, .entered h hfirst⟩
    · exact .inr ⟨_ :: before, depth, a, after, rfl, hbefore.cons rfl, .entered h hfirst⟩
  | exhausted => exact .inl ⟨barren_nil, .exhausted⟩
  | ended _ h ih =>
    rcases ih with ⟨hes, hfirst⟩ | ⟨before, depth, a, after, rfl, hbefore, hfirst⟩
    · exact .inl ⟨hes, .ended hfirst h⟩
    · exact .inr ⟨before, depth, a, after, rfl, hbefore, .ended hfirst rfl⟩
  | @continued _ _ _ _ _ _ _ es fs _ h _ ih ih' =>
    rcases ih with ⟨hes, hfirst⟩ | ⟨before, depth, a, after, rfl, hbefore, hfirst⟩
    · rcases ih' with ⟨hfs, hrest⟩ | ⟨before, depth, a, after, rfl, hbefore, hrest⟩
      · exact .inl ⟨hes.append hfs, .continued hfirst h hrest⟩
      · refine .inr ⟨es ++ before, depth, a, after, by simp, hes.append hbefore, ?_⟩
        rw [List.append_assoc]
        exact .continued hfirst h hrest
    · -- the success ends the row, though the search for all allocations goes on with it
      exact .inr ⟨before, depth, a, after ++ fs, by simp, hbefore, .ended hfirst rfl⟩
  | completed h =>
    exact .inr ⟨[_], _, _, [], rfl, barren_nil.cons rfl, .completed h⟩
  | contradicted h h' => exact .inl ⟨barren_nil.cons rfl, .contradicted h h'⟩
  | descended h h' _ ih =>
    rcases ih with ⟨hes, hfirst⟩ | ⟨before, depth, a, after, rfl, hbefore, hfirst⟩
    · exact .inl ⟨hes.cons rfl, .descended h h' hfirst⟩
    · exact .inr ⟨_ :: before, depth, a, after, rfl, hbefore.cons rfl, .descended h h' hfirst⟩

end

theorem Signal.barren_closing (signal : Signal) (es : List Event) :
    Barren (signal.closing es) := by
  cases signal <;> simp [closing, Barren, Event.allocation?]

theorem Signal.outcome_eq {signal : Signal} (h : signal ≠ .aborted) (es : List Event) :
    signal.outcome es = .finished (recorded es) := by
  cases signal with
  | aborted => exact absurd rfl h
  | closed => rfl
  | satisfied => rfl
  | explored => rfl

section
variable {σ : Type} (observe : Event → σ → σ) (F : Formula) (init : σ)

/-- Both searches are the same, or they part behind the first allocation. -/
theorem first_eq_all_or_exists_found :
    (Barren (history .never .all F) ∧ history .never .first F = history .never .all F ∧
      ∃ as, as.length ≤ 1 ∧ (solve observe .never .all F init).outcome = .finished as ∧
        (solve observe .never .first F init).outcome = .finished as) ∨
    ∃ before depth a after, Barren before ∧
      history .never .all F = before ++ .found depth a :: after ∧
      history .never .first F = before ++ [.found depth a, .finished 1] ∧
      (∃ as, (solve observe .never .all F init).outcome = .finished (a :: as)) ∧
      (solve observe .never .first F init).outcome = .finished [a] := by
  cases h : F.isTrue || F.isFalse with
  | true =>
    obtain ⟨as, hlen, hsolve⟩ := exists_solve_of_trivial observe h
    obtain ⟨_, _, hkeep⟩ := exists_solve_of_trivial keep h
    rw [history, history, hkeep, hkeep, hsolve, hsolve]
    exact .inl ⟨Barren.cons rfl barren_nil, rfl, as, hlen, rfl, rfl⟩
  | false =>
    obtain ⟨hF, hF'⟩ := Bool.or_eq_false_iff.mp h
    obtain ⟨signal, es, hall⟩ := exists_trail .never .all F [] 0
    have hout := Signal.outcome_eq hall.not_aborted es
    rw [history_eq_of_trail hF hF' hall, solve_eq_of_trail observe hF hF' hall]
    dsimp only
    rcases hall.first_of_all with ⟨hes, hfirst⟩ | ⟨before, depth, a, after, rfl, hbefore, hfirst⟩
    · rw [history_eq_of_trail hF hF' hfirst, solve_eq_of_trail observe hF hF' hfirst]
      refine .inl ⟨hes.append (signal.barren_closing es), rfl, [], Nat.zero_le 1, ?_, ?_⟩
      · rw [hout, hes.recorded_eq]
      · rw [hout, hes.recorded_eq]
    · rw [history_eq_of_trail hF hF' hfirst, solve_eq_of_trail observe hF hF' hfirst, hout]
      obtain ⟨as, has⟩ := exists_recorded_eq hbefore depth a after
      refine .inr ⟨before, depth, a, _, hbefore, List.append_assoc _ _ _, ?_, ⟨as, by rw [has]⟩, ?_⟩
      · simp [Signal.closing, recorded_found hbefore]
      · simp [Signal.outcome, recorded_found hbefore]

theorem flatMap_lines_found (before : List Event) (depth : Nat) (a : Allocation)
    (after : List Event) : (before ++ .found depth a :: after).flatMap Event.lines =
      before.flatMap Event.lines ++ foundLine depth a :: after.flatMap Event.lines := by
  rw [List.flatMap_append, List.flatMap_cons, Event.lines_eq_shown]
  rfl

/-- The search for one allocation is a beginning of the search for all of them: it returns their
first, its trace ends with the first line that tells of an allocation, which is this one, and
without such a line nothing is missing. -/
theorem solve_first_cuts_all :
    ∃ as, (solve observe .never .all F init).outcome = .finished as ∧
      (solve observe .never .first F init).outcome = .finished (as.take 1) ∧
      heardLines .never .first F <+: heardLines .never .all F ∧
      ((∃ before depth a after, as.head? = some a ∧
          heardLines .never .all F = before ++ foundLine depth a :: after ∧
          heardLines .never .first F = before ++ [foundLine depth a] ∧
          (∀ line ∈ before, ¬ TellsFound line) ∧ TellsFound (foundLine depth a)) ∨
        ((∀ line ∈ heardLines .never .all F, ¬ TellsFound line) ∧
          heardLines .never .first F = heardLines .never .all F)) ∧
      (solve observe .never .first F init).polls ≤ (solve observe .never .all F init).polls ∧
      ((∀ v, ¬ F.holds v) →
        (solve observe .never .first F init).polls = (solve observe .never .all F init).polls) := by
  rw [polls_solve, polls_solve, heardLines_eq, heardLines_eq]
  unfold traceLines
  rcases first_eq_all_or_exists_found observe F init with
    ⟨hbarren, hhistory, as, hlen, hall, hfirst⟩ |
    ⟨before, depth, a, after, hbefore, hhistory, hhistory', ⟨as, hall⟩, hfirst⟩
  · rw [hhistory]
    refine ⟨as, hall, ?_, List.prefix_rfl, .inr ⟨hbarren.not_tellsFound, rfl⟩, Nat.le_refl _,
      fun _ => rfl⟩
    rw [hfirst, List.take_of_length_le hlen]
  · have hlines : [Event.finished 1].flatMap Event.lines = [] := rfl
    rw [hhistory, hhistory', flatMap_lines_found, flatMap_lines_found, hlines]
    refine ⟨a :: as, hall, hfirst, ?_, .inl ⟨_, depth, a, _, rfl, rfl, rfl,
      hbefore.not_tellsFound, tellsFound_foundLine depth a⟩, ?_, ?_⟩
    · exact ⟨after.flatMap Event.lines, by simp⟩
    · simp [Event.isPoll]
    · intro hunsat
      obtain ⟨v, hv⟩ := (completes_of_outcome hall List.mem_cons_self).exists_model
      exact absurd hv (hunsat v)

end
end Clausal.Search
