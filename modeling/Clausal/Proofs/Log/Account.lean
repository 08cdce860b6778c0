import Clausal.Proofs.Log.Marks
import Clausal.Proofs.Resolution.Stopping
import Clausal.Proofs.Resolution.Refutation

/-!
# The account that a run of resolution gives

A run tells of each clause that it derives, and at its end of how it ended. All that it has told of
by then are the origins of the clauses that it has added, in the order of these clauses, and the
step to the empty clause if it came to that. So the steps of a proof, which is put together only
at the end, have all been told before.

The main statement: `Account` says which records go into the log and which lines into the trace,
and every run gives this account of itself.
-/

set_option autoImplicit false

namespace Clausal.Resolution

open Text (cut behind? Apart Separable)

/-- The event is told of; that a pass begins is not. -/
def Event.isTold : Event → Bool
  | .pass _ => false
  | _ => true

/-- A run that ends at `D` has derived these clauses, and ends with this outcome and event. -/
inductive Closes (D : Derivation) : List Step → Outcome Verdict → Event → Prop
  | aborted : Closes D D.steps .aborted (.aborted D.formula.size)
  | saturated : Closes D D.steps (.finished .saturated) (.saturated D.formula.size)
  | refuted {r : Inference} : Closes D (D.steps ++ [r.step]) (.finished (.refuted (D.proof r)))
      (.refuted D.formula.size (D.proof r))

section
variable (stops : Interrupts)

theorem exists_told_saturate (D : Derivation) (polls : Nat) (events : List Event)
    (hevents : events.filter Event.isTold = D.steps.map .resolved) :
    ∃ E derivation closing,
      (saturate keep stops D polls events).seen.filter Event.isTold =
        derivation.map .resolved ++ [closing] ∧
      (saturate keep stops D polls events).formula = E.formula ∧
      Closes E derivation (saturate keep stops D polls events).outcome closing := by
  fun_induction saturate keep stops D polls events with
  | case1 D polls events size hstop =>
    refine ⟨D, _, _, ?_, rfl, .aborted⟩
    simp [keep, hevents, Event.isTold, size]
  | case2 D polls events size hgo seen hnext =>
    refine ⟨D, _, _, ?_, rfl, .saturated⟩
    simp [keep, hevents, Event.isTold, size, seen]
  | case3 D polls events size hgo seen r hnext seen' hr proof =>
    refine ⟨D, _, _, ?_, rfl, .refuted⟩
    simp [keep, hevents, Event.isTold, size, seen, seen', proof]
  | case4 D polls events hgo seen r hnext seen' hr ih =>
    apply ih
    rw [Derivation.steps_add]
    simp [keep, hevents, Event.isTold, seen, seen']

theorem exists_told_refute {F : Formula} (hF : F.isFalse = false) :
    ∃ E derivation closing,
      (refute keep stops F []).seen.filter Event.isTold = derivation.map .resolved ++ [closing] ∧
      (refute keep stops F []).formula = E.formula ∧
      Closes E derivation (refute keep stops F []).outcome closing := by
  rw [refute, if_neg (by simp [hF])]
  apply exists_told_saturate
  rw [Derivation.steps_start]
  rfl

end

theorem filterMap_record_filter (es : List Event) :
    (es.filter Event.isTold).filterMap Event.record? = es.filterMap Event.record? := by
  have htold : ∀ e : Event, (if e.isTold then e.record? else none) = e.record? := by
    intro e
    cases e <;> rfl
  simp only [List.filterMap_filter, htold]

theorem flatMap_lines_filter_isTold (es : List Event) :
    (es.filter Event.isTold).flatMap Event.lines = es.flatMap Event.lines := by
  induction es with
  | nil => rfl
  | cons e es ih =>
    rw [List.flatMap_cons, ← ih]
    cases e <;> rfl

def Step.record (s : Step) : Record := ⟨.trace, s!"resolved {s.render} on {s.pivot.render}"⟩

/-- The line of the trace that the record of a step stands for. -/
def lineShown? (r : Record) : Option String := do
  let cs ← behind? "resolved ".toList r.message.toList
  let (line, _) ← cut " on ".toList cs
  pure (String.ofList line)

theorem Step.toList_render (s : Step) : s.render.toList =
    s.left.chars ++ " + ".toList ++ s.right.chars ++ " --> ".toList ++ s.resolvent.chars := by
  simp [render, Clause.render, toString]

theorem Step.apart_render (s : Step) : Apart 'o' 'n' s.render.toList := by
  have hab : Separable 'o' 'n' := by
    constructor <;> decide
  have hplus : Apart 'o' 'n' " + ".toList := by simp [Apart]
  have harrow : Apart 'o' 'n' " --> ".toList := by simp [Apart]
  rw [toList_render]
  refine Apart.append' (.append' (.append' (.append' (s.left.apart_chars hab) hplus ?_)
    (s.right.apart_chars hab) ?_) harrow ?_) (s.resolvent.apart_chars hab) ?_
  · decide
  · simp [Clause.chars, Text.braced, Text.enclosed]
  · decide
  · simp [Clause.chars, Text.braced, Text.enclosed]

theorem lineShown?_record (s : Step) : lineShown? s.record = some s.render := by
  have hlast : s.render.toList.getLast? = some '}' := by
    rw [Step.toList_render, List.getLast?_append, Clause.chars, Text.getLast?_braced]
    rfl
  have hcut : cut " on ".toList (s.render.toList ++ (" on ".toList ++ s.pivot.chars)) =
      some (s.render.toList, s.pivot.chars) := by
    apply Text.cut_append_of_absent (by decide)
    · simp [hlast]
    · exact s.apart_render.absent (by decide)
  have hmessage : s.record.message.toList =
      "resolved ".toList ++ (s.render.toList ++ (" on ".toList ++ s.pivot.chars)) := by
    simp [Step.record, Literal.render, toString]
  rw [lineShown?, hmessage, Text.behind?_append, Option.bind_eq_bind, Option.bind_some, hcut]
  simp

/-- What a run that has derived these clauses, ends with this outcome and leaves a formula of `n`
clauses tells the log, and the lines of its trace. -/
inductive Account (n : Nat) (derivation : List Step) :
    Outcome Verdict → List Record → List String → Prop
  | aborted : Account n derivation .aborted
      (derivation.map Step.record ++ [⟨.debug, s!"resolution aborted after {n} clauses"⟩])
      (derivation.map Step.render)
  | saturated : Account n derivation (.finished .saturated)
      (derivation.map Step.record ++ [⟨.debug, s!"saturated with {n} clauses"⟩])
      (derivation.map Step.render ++
        ["No new resolvents can be derived.", s!"Total number of clauses: {n}"])
  | refuted {proof : List Step} (h : ∀ s ∈ proof, s ∈ derivation) :
      Account n derivation (.finished (.refuted proof))
        (derivation.map Step.record ++ [⟨.debug, s!"derived the empty clause with {n} clauses"⟩])
        (derivation.map Step.render ++
          ["Empty clause found!", "", s!"Total number of clauses: {n}"] ++ proof.map Step.render)

theorem filterMap_lineShown?_append {closing : Record} (h : lineShown? closing = none)
    (derivation : List Step) : (derivation.map Step.record ++ [closing]).filterMap lineShown? =
      derivation.map Step.render := by
  have hsteps : (derivation.map Step.record).filterMap lineShown? = derivation.map Step.render := by
    simp [List.filterMap_map, lineShown?_record]
  rw [List.filterMap_append, hsteps, List.filterMap_cons_none h, List.filterMap_nil,
    List.append_nil]

/-- The lines of a derivation are shown by the log, and by nothing but the records of its steps. -/
theorem Account.filterMap_lineShown? {n : Nat} {derivation : List Step} {outcome : Outcome Verdict}
    {records : List Record} {lines : List String} (h : Account n derivation outcome records lines) :
    records.filterMap lineShown? = derivation.map Step.render := by
  cases h with
  | aborted =>
    apply filterMap_lineShown?_append
    simp [lineShown?, behind?, toString]
  | saturated =>
    apply filterMap_lineShown?_append
    simp [lineShown?, behind?, toString]
  | refuted =>
    apply filterMap_lineShown?_append
    simp [lineShown?, behind?, toString]

theorem Closes.account {D : Derivation} {derivation : List Step} {outcome : Outcome Verdict}
    {closing : Event} (h : Closes D derivation outcome closing) :
    Account D.formula.size derivation outcome
      ((derivation.map Event.resolved ++ [closing]).filterMap Event.record?)
      ((derivation.map Event.resolved ++ [closing]).flatMap Event.lines) := by
  have hrecords : (derivation.map Event.resolved).filterMap Event.record? =
      derivation.map Step.record := by
    simp [List.filterMap_map, Function.comp_def, Event.record?, Step.record]
  have hlines : (derivation.map Event.resolved).flatMap Event.lines =
      derivation.map Step.render := by
    rw [List.flatMap_map, List.map_eq_flatMap]
    rfl
  rw [List.filterMap_append, List.flatMap_append, hrecords, hlines]
  cases h with
  | aborted =>
    have hnone : (Event.aborted D.formula.size).lines = [] := rfl
    rw [List.flatMap_singleton, hnone, List.append_nil]
    exact .aborted
  | saturated => exact .saturated
  | refuted =>
    rw [List.flatMap_singleton, Event.lines, ← List.append_assoc]
    exact .refuted fun s hs => D.mem_of_mem_proof hs

theorem exists_account (stops : Interrupts) {F : Formula} (hF : F.isFalse = false) :
    ∃ derivation, Account (refute keep stops F []).formula.size derivation
      (refute keep stops F []).outcome
      ((refute keep stops F []).seen.filterMap Event.record?) (traceLines stops F) := by
  obtain ⟨E, derivation, closing, htold, hformula, hcloses⟩ := exists_told_refute stops hF
  refine ⟨derivation, ?_⟩
  rw [traceLines, ← filterMap_record_filter, ← flatMap_lines_filter_isTold, htold, hformula]
  exact hcloses.account

end Clausal.Resolution
