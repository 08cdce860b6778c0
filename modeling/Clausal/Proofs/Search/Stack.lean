import Clausal.Proofs.Families
import Clausal.Proofs.Search.Exploration

/-!
# The stack of a search

The steps of a search are told one after the other, each with its depth and with no mention of the
search that it belongs to. They can be put in their places again: the latest steps at the depths
below `n` are the stack under which a step at depth `n` is taken. It assigns in the formula that
the step below it left, and an allocation that it completes lists the literals of the stack from
the bottom up. A search that has gone back from a formula has left everything below it as it was,
since it steps at greater depths only.

The main statement: the lines of every trace are those of steps and allocations that follow this
discipline, also where the trace is cut short, and a search that finishes returns the allocations of
its trace without those that agree with an earlier one.

This module does NOT say which literals are tried, nor when a search goes back.
-/

set_option autoImplicit false

namespace Clausal

/-- The formula has clauses, and each of them has literals. -/
def Formula.IsOpen (F : Formula) : Prop := F.clauses ≠ [] ∧ ∀ c ∈ F.clauses, c.literals ≠ []

theorem Formula.isOpen_iff {F : Formula} : F.IsOpen ↔ F.isTrue = false ∧ F.isFalse = false := by
  simp [IsOpen, isTrue, isFalse, Clause.isEmpty]

namespace Search

open ListSet (KeepsFirst)

namespace Event

/-- The event is shown in a trace. -/
def isTraced : Event → Bool
  | .step _ _ _ _ => true
  | .found _ _ => true
  | _ => false

/-- The literal of a step at the depth, and the formula that it leaves. -/
def stepAt? (depth : Nat) : Event → Option (Literal × Formula)
  | .step d l _ G => if d = depth then some (l, G) else none
  | _ => none

end Event

/-- The latest of the steps at the depth. -/
def latest? (es : List Event) (depth : Nat) : Option (Literal × Formula) :=
  (es.filterMap (Event.stepAt? depth)).getLast?

/-- After the events, a step at the depth is to assign in `F`. The formula on top of the stack is
open, the one at its bottom is the formula that is searched. -/
def OnTop (root : Formula) (es : List Event) : Nat → Formula → Prop
  | 0, F => F = root
  | depth + 1, F => (∃ l, latest? es depth = some (l, F)) ∧ F.IsOpen

/-- How a step goes with the events before and behind it. -/
structure StepFits (root : Formula) (before : List Event) (depth : Nat) (l : Literal)
    (F G : Formula) (after : List Event) : Prop where
  onTop : OnTop root before depth F
  residual : G = F.assign l
  family : G.family = {s | ∃ t ∈ F.family, l ∉ t ∧ t \ {-l} = s}
  found : G.clauses = [] → ∃ a, [.found depth a] <+: after

/-- How an allocation goes with the events before it. -/
structure FoundFits (before : List Event) (depth : Nat) (a : Allocation) : Prop where
  step : ∃ l F G, [.step depth l F G] <:+ before ∧ G.clauses = []
  size : a.size = depth + 1
  literal : ∀ i ≤ depth, a.literals[i]? = (latest? before i).map Prod.fst

def Fits (root : Formula) (before : List Event) (e : Event) (after : List Event) : Prop :=
  match e with
  | .step depth l F G => StepFits root before depth l F G after
  | .found depth a => FoundFits before depth a
  | _ => True

/-- Every event fits between those before and those behind it. -/
def Disciplined (root : Formula) (es : List Event) : Prop :=
  ∀ before e after, es = before ++ e :: after → Fits root before e after

/-- The events fit where those of `pre` have gone before. -/
def DisciplinedAfter (root : Formula) (pre es : List Event) : Prop :=
  ∀ before e after, es = before ++ e :: after → Fits root (pre ++ before) e after

section
variable {root F G : Formula} {pre es fs : List Event} {e : Event} {path : List Literal}
  {l : Literal}

theorem latest?_append (es fs : List Event) (depth : Nat) :
    latest? (es ++ fs) depth = (latest? fs depth).or (latest? es depth) := by
  rw [latest?, List.filterMap_append, List.getLast?_append]
  rfl

theorem latest?_append_of_eq_none {depth : Nat} (h : latest? fs depth = none) :
    latest? (es ++ fs) depth = latest? es depth := by
  rw [latest?_append, h, Option.none_or]

theorem latest?_step (es : List Event) (depth : Nat) (l : Literal) (F G : Formula) :
    latest? (es ++ [.step depth l F G]) depth = some (l, G) := by
  simp [latest?, Event.stepAt?]

theorem latest?_step_of_ne {depth i : Nat} (h : depth ≠ i) (es : List Event) (l : Literal)
    (F G : Formula) : latest? (es ++ [.step depth l F G]) i = latest? es i := by
  apply latest?_append_of_eq_none
  simp [latest?, Event.stepAt?, h]

theorem latest?_step_cons {depth i : Nat} (h : depth ≠ i) (l : Literal) (F G : Formula)
    (es : List Event) : latest? (.step depth l F G :: es) i = latest? es i := by
  simp [latest?, Event.stepAt?, h]

/-- Only the latest steps at smaller depths matter. -/
theorem OnTop.congr {depth : Nat} (h : OnTop root es depth F)
    (hfs : ∀ i < depth, latest? fs i = latest? es i) : OnTop root fs depth F := by
  cases depth with
  | zero => exact h
  | succ depth =>
    obtain ⟨⟨l, hl⟩, hF⟩ := h
    exact ⟨⟨l, (hfs depth (Nat.lt_succ_self depth)).trans hl⟩, hF⟩

theorem latest?_filter (es : List Event) (depth : Nat) :
    latest? (es.filter Event.isTraced) depth = latest? es depth := by
  have hstep : ∀ e : Event, (if e.isTraced then e.stepAt? depth else none) = e.stepAt? depth := by
    intro e
    cases e <;> rfl
  simp only [latest?, List.filterMap_filter, hstep]

/-- More may happen behind the events. -/
theorem Fits.append {before after : List Event} (h : Fits root before e after)
    (fs : List Event) : Fits root before e (after ++ fs) := by
  cases e with
  | step depth l F G =>
    refine ⟨h.onTop, h.residual, h.family, fun hG => ?_⟩
    obtain ⟨a, ha⟩ := h.found hG
    exact ⟨a, ha.trans (List.prefix_append after fs)⟩
  | found => exact h
  | entered => trivial
  | aborted => trivial
  | finished => trivial

namespace DisciplinedAfter

theorem nil : DisciplinedAfter root pre [] := by
  intro before e after h
  simp at h

theorem cons (he : Fits root pre e es) (h : DisciplinedAfter root (pre ++ [e]) es) :
    DisciplinedAfter root pre (e :: es) := by
  intro before e' after hsplit
  rcases List.cons_eq_append_iff.mp hsplit with ⟨rfl, heq⟩ | ⟨before, rfl, heq⟩
  · obtain ⟨rfl, rfl⟩ := List.cons.inj heq
    rwa [List.append_nil]
  · have hfits := h before e' after heq
    rwa [List.append_assoc] at hfits

theorem head (h : DisciplinedAfter root pre (e :: es)) : Fits root pre e es := by
  have hfits := h [] e es rfl
  rwa [List.append_nil] at hfits

theorem tail (h : DisciplinedAfter root pre (e :: es)) : DisciplinedAfter root (pre ++ [e]) es := by
  intro before e' after hsplit
  have hfits := h (e :: before) e' after (by rw [hsplit, List.cons_append])
  rwa [List.append_cons] at hfits

theorem append (h : DisciplinedAfter root pre es) (h' : DisciplinedAfter root (pre ++ es) fs) :
    DisciplinedAfter root pre (es ++ fs) := by
  induction es generalizing pre with
  | nil => rwa [List.append_nil] at h'
  | cons e es ih =>
    rw [List.append_cons] at h'
    exact cons (h.head.append fs) (ih h.tail h')

end DisciplinedAfter

/-- What is left out is not looked at. -/
theorem Disciplined.filter (h : Disciplined root es) :
    Disciplined root (es.filter Event.isTraced) := by
  intro before e after hsplit
  obtain ⟨es₁, es₂, rfl, rfl, hrest⟩ := List.filter_eq_append_iff.mp hsplit
  obtain ⟨es₃, es₄, rfl, hnone, htraced, rfl⟩ := List.filter_eq_cons_iff.mp hrest
  have hfits := h (es₁ ++ es₃) e es₄ (by rw [List.append_assoc])
  have hbefore : (es₁ ++ es₃).filter Event.isTraced = es₁.filter Event.isTraced := by
    rw [List.filter_append, List.filter_eq_nil_iff.mpr hnone, List.append_nil]
  rw [← hbefore]
  generalize es₁ ++ es₃ = before at hfits
  cases e with
  | step depth l F G =>
    refine ⟨hfits.onTop.congr fun i _ => latest?_filter before i, hfits.residual, hfits.family,
      fun hG => ?_⟩
    obtain ⟨a, ha⟩ := hfits.found hG
    exact ⟨a, ha.filter Event.isTraced⟩
  | found depth a =>
    obtain ⟨l, F, G, hlast, hG⟩ := hfits.step
    refine ⟨⟨l, F, G, hlast.filter Event.isTraced, hG⟩, hfits.size, fun i hi => ?_⟩
    rw [latest?_filter]
    exact hfits.literal i hi
  | entered => trivial
  | aborted => trivial
  | finished => trivial

/-- The literals of the path are those of the stack, and `F` is on top of it. -/
structure Below (root : Formula) (es : List Event) (path : List Literal) (F : Formula) :
    Prop where
  onTop : OnTop root es path.length F
  literal : ∀ i < path.length, path[i]? = (latest? es i).map Prod.fst

namespace Below

theorem nil (root : Formula) : Below root [] [] root where
  onTop := rfl
  literal := by simp

/-- Steps at greater depths leave the stack as it is. -/
theorem append (h : Below root es path F) (hfs : ∀ i < path.length, latest? fs i = none) :
    Below root (es ++ fs) path F where
  onTop := h.onTop.congr fun i hi => latest?_append_of_eq_none (hfs i hi)
  literal := by
    intro i hi
    rw [latest?_append_of_eq_none (hfs i hi)]
    exact h.literal i hi

/-- The literals of the stack are those of the path, also with the literal of one more step. -/
theorem literal_step (h : Below root es path F) (G : Formula) :
    ∀ i ≤ path.length, (path ++ [l])[i]? =
      (latest? (es ++ [.step path.length l F G]) i).map Prod.fst := by
  intro i hi
  rcases Nat.lt_or_eq_of_le hi with hlt | rfl
  · rw [latest?_step_of_ne (Nat.ne_of_gt hlt), List.getElem?_append_left hlt]
    exact h.literal i hlt
  · rw [latest?_step]
    simp

theorem step (h : Below root es path F) (hG : G.IsOpen) :
    Below root (es ++ [.step path.length l F G]) (path ++ [l]) G where
  onTop := by
    rw [List.length_append]
    exact ⟨⟨l, latest?_step es path.length l F G⟩, hG⟩
  literal := by
    intro i hi
    rw [List.length_append] at hi
    exact h.literal_step G i (Nat.le_of_lt_succ hi)

theorem foundFits (h : Below root es path F) (hG : G.clauses = []) :
    FoundFits (es ++ [.step path.length l F G]) path.length ⟨path ++ [l]⟩ where
  step := ⟨l, F, G, List.suffix_append es _, hG⟩
  size := by simp [Allocation.size]
  literal := h.literal_step G

end Below

namespace Trail

variable {stops : Interrupts} {mode : Mode} {task : Task} {n : Nat} {signal : Signal}

/-- A task steps at the depth of its path and at greater ones. -/
theorem latest?_eq_none (h : Trail stops mode path F task n signal es) :
    ∀ i < path.length, latest? es i = none := by
  induction h with
  | stopped => exact fun _ _ => rfl
  | entered _ _ ih => exact ih
  | exhausted => exact fun _ _ => rfl
  | ended _ _ ih => exact ih
  | continued _ _ _ ih ih' =>
    intro i hi
    rw [latest?_append_of_eq_none (ih' i hi)]
    exact ih i hi
  | completed =>
    intro i hi
    rw [latest?_step_cons (Nat.ne_of_gt hi)]
    rfl
  | contradicted =>
    intro i hi
    rw [latest?_step_cons (Nat.ne_of_gt hi)]
    rfl
  | descended _ _ _ ih =>
    intro i hi
    rw [latest?_step_cons (Nat.ne_of_gt hi)]
    apply ih
    rw [List.length_append]
    exact Nat.lt_succ_of_lt hi

/-- The stack under which a task begins is there again before each of its later steps. -/
theorem disciplinedAfter (h : Trail stops mode path F task n signal es)
    (hpre : Below root pre path F) : DisciplinedAfter root pre es := by
  induction h generalizing pre with
  | stopped => exact .cons trivial .nil
  | entered _ _ ih => exact .cons trivial (ih (hpre.append fun _ _ => rfl))
  | exhausted => exact .nil
  | ended _ _ ih => exact ih hpre
  | continued hm _ _ ih ih' => exact (ih hpre).append (ih' (hpre.append hm.latest?_eq_none))
  | completed hG =>
    refine .cons ⟨hpre.onTop, rfl, Formula.family_assign _ _, fun _ => ⟨_, List.prefix_rfl⟩⟩
      (.cons ?_ .nil)
    exact hpre.foundFits (List.isEmpty_iff.mp hG)
  | contradicted hG =>
    refine .cons ⟨hpre.onTop, rfl, Formula.family_assign _ _, fun hG' => ?_⟩ .nil
    simp [Formula.isTrue, hG'] at hG
  | descended hG hG' _ ih =>
    refine .cons ⟨hpre.onTop, rfl, Formula.family_assign _ _, fun hG'' => ?_⟩
      (ih (hpre.step (Formula.isOpen_iff.mpr ⟨hG, hG'⟩)))
    simp [Formula.isTrue, hG''] at hG

end Trail
end

section
variable (stops : Interrupts) (mode : Mode)

/-- The steps and allocations that a trace of the search shows. -/
def tracedEvents (F : Formula) : List Event := (history stops mode F).filter Event.isTraced

theorem traceLines_eq_shown (F : Formula) :
    traceLines stops mode F = (tracedEvents stops mode F).flatMap Event.shown := by
  unfold traceLines tracedEvents
  rw [Event.flatMap_lines]
  induction history stops mode F with
  | nil => rfl
  | cons e es ih =>
    rw [List.flatMap_cons, ih]
    cases e <;> rfl

theorem allocations_tracedEvents (F : Formula) :
    (tracedEvents stops mode F).filterMap Event.allocation? =
      (history stops mode F).filterMap Event.allocation? := by
  have hfound : ∀ e : Event, (if e.isTraced then e.allocation? else none) = e.allocation? := by
    intro e
    cases e <;> rfl
  simp only [tracedEvents, List.filterMap_filter, hfound]

variable {stops mode} {F : Formula} {signal : Signal} {es : List Event}

theorem Signal.disciplinedAfter_closing (root : Formula) (pre : List Event) (signal : Signal)
    (es : List Event) : DisciplinedAfter root pre (signal.closing es) := by
  cases signal with
  | aborted => exact .nil
  | closed => exact .cons trivial .nil
  | satisfied => exact .cons trivial .nil
  | explored => exact .cons trivial .nil

theorem Trail.keepsFirst_recorded (h : Trail stops mode [] F .search 0 signal es)
    (hF : F.isTrue = false) :
    KeepsFirst Allocation.Agree (es.filterMap Event.allocation?) (recorded es) := by
  have hnodup : ∀ a ∈ es.filterMap Event.allocation?, a.literals.Nodup := by
    intro a ha
    obtain ⟨e, he, hea⟩ := List.mem_filterMap.mp ha
    cases e with
    | found depth b =>
      cases hea
      obtain ⟨ls, hls, rfl⟩ := h.exists_completes_of_found hF trivial he
      exact hls.consistent.nodup
    | entered => cases hea
    | step => cases hea
    | aborted => cases hea
    | finished => cases hea
  apply ListSet.keepsFirst_ofList Allocation.equivalence_agree
  exact fun a ha b hb => Allocation.same_iff_agree (hnodup a ha) (hnodup b hb)

theorem disciplined_history (hF : F.isTrue = false) (hF' : F.isFalse = false) :
    Disciplined F (history stops mode F) := by
  obtain ⟨signal, es, htrail⟩ := exists_trail stops mode F [] 0
  have hes : DisciplinedAfter F [] es := htrail.disciplinedAfter (Below.nil F)
  rw [history_eq_of_trail hF hF' htrail]
  exact hes.append (signal.disciplinedAfter_closing F _ es)

theorem keepsFirst_of_outcome (hF : F.isTrue = false) (hF' : F.isFalse = false) {σ : Type}
    {observe : Event → σ → σ} {init : σ} {as : List Allocation}
    (h : (solve observe stops mode F init).outcome = .finished as) :
    KeepsFirst Allocation.Agree ((history stops mode F).filterMap Event.allocation?) as := by
  obtain ⟨signal, es, htrail⟩ := exists_trail stops mode F [] 0
  rw [solve_eq_of_trail observe hF hF' htrail] at h
  have hout : signal.outcome es = .finished as := h
  have hne : signal ≠ .aborted := by
    rintro rfl
    cases hout
  obtain rfl : recorded es = as := by simpa [Signal.outcome_eq hne] using hout
  have hclosing := (signal.barren_closing es).filterMap_eq
  rw [history_eq_of_trail hF hF' htrail, List.filterMap_append, hclosing, List.append_nil]
  exact htrail.keepsFirst_recorded hF

end

/-- The lines of a trace are those of steps, which show the formula with the constants in place of
the literals and the formula that is left, and of allocations. They follow one another as one stack
of literals lets them, wherever the trace is cut short. A search that finishes returns the
allocations of its trace, but none that agrees with an earlier one. -/
theorem trace_follows_stack {F : Formula} (hF : F.IsOpen) (stops : Interrupts) (mode : Mode) :
    heardLines stops mode F = (tracedEvents stops mode F).flatMap Event.shown ∧
    Disciplined F (tracedEvents stops mode F) ∧
    ∀ {σ : Type} (observe : Event → σ → σ) (init : σ) (as : List Allocation),
      (solve observe stops mode F init).outcome = .finished as →
        KeepsFirst Allocation.Agree ((tracedEvents stops mode F).filterMap Event.allocation?)
          as := by
  obtain ⟨htrue, hfalse⟩ := Formula.isOpen_iff.mp hF
  refine ⟨?_, (disciplined_history htrue hfalse).filter, ?_⟩
  · rw [heardLines_eq, traceLines_eq_shown]
  · intro σ observe init as has
    rw [allocations_tracedEvents]
    exact keepsFirst_of_outcome htrue hfalse has

/-- What is found behind the unit literal agrees with what was found under it. -/
theorem trace_follows_stack_unitAndPair :
    Disciplined unitAndPair (tracedEvents (.after 2) .all unitAndPair) ∧
    heardLines .never .first unitAndPair =
      ["F[a/true]: \x7b\x7btrue\x7d, \x7bb, c\x7d\x7d", "  = \x7b\x7bb, c\x7d\x7d",
        "  F[b/true]: \x7b\x7btrue, c\x7d\x7d", "    = \x7b\x7d",
        "    satisfying allocation found: [a, b]"] ∧
    (tracedEvents .never .all unitAndPair).filterMap Event.allocation? =
      [⟨[.pos 'a', .pos 'b']⟩, ⟨[.pos 'a', .neg 'b', .pos 'c']⟩,
        ⟨[.pos 'a', .pos 'b']⟩, ⟨[.pos 'a', .neg 'b', .pos 'c']⟩] ∧
    KeepsFirst Allocation.Agree ((tracedEvents .never .all unitAndPair).filterMap Event.allocation?)
      [⟨[.pos 'a', .pos 'b']⟩, ⟨[.pos 'a', .neg 'b', .pos 'c']⟩] := by
  have hopen : unitAndPair.IsOpen := Formula.isOpen_iff.mpr (by decide)
  have hout : (solve keep .never .all unitAndPair []).outcome =
      .finished [⟨[.pos 'a', .pos 'b']⟩, ⟨[.pos 'a', .neg 'b', .pos 'c']⟩] := by
    cbv
  refine ⟨(trace_follows_stack hopen (.after 2) .all).2.1, ?_, ?_, ?_⟩
  · rw [(trace_follows_stack hopen .never .first).1]
    cbv
  · cbv
  · exact (trace_follows_stack hopen .never .all).2.2 keep [] _ hout

end Search
end Clausal
