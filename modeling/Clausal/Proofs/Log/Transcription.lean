import Clausal.Proofs.Log.Marks
import Clausal.Proofs.Search.Trail

/-!
# The trace of a search, read off its log

The record of a step shows the literal, the depth and the formula before and after it is
simplified, and the two lines of the step show nothing else. The record of an allocation shows the
allocation; how far its line is indented is told by the latest step before it. `transcribe` writes
the lines that the records of a log stand for, and goes by the texts of the records alone.

The main statement: what is transcribed from the log of a search is its trace, also where the
search is stopped.
-/

set_option autoImplicit false

namespace Clausal

open Text (cut behind? Apart Separable)

/-- The literal that a text shows. -/
def Literal.ofChars? : List Char → Option Literal
  | [x] => some (.pos x)
  | ['-', x] => some (.neg x)
  | _ => none

theorem Literal.ofChars?_chars (l : Literal) : ofChars? l.chars = some l := by
  obtain ⟨x, positive⟩ := l
  cases positive with
  | true => rfl
  | false => rfl

namespace Search

/-- What the record of a step shows. -/
structure StepShown where
  literal : Literal
  depth : Nat
  assigned : List Char
  residual : List Char

namespace StepShown

def chars (s : StepShown) : List Char :=
  "step ".toList ++ (s.literal.chars ++ (" at depth ".toList ++ (Nat.toDigits 10 s.depth ++
    (": ".toList ++ (s.assigned ++ (" = ".toList ++ s.residual))))))

def ofChars? (cs : List Char) : Option StepShown := do
  let cs ← behind? "step ".toList cs
  let (literal, cs) ← cut " at depth ".toList cs
  let literal ← Literal.ofChars? literal
  let (digits, cs) ← cut ": ".toList cs
  let (assigned, residual) ← cut " = ".toList cs
  pure ⟨literal, Nat.ofDigitChars 10 digits 0, assigned, residual⟩

def lines (s : StepShown) : List String :=
  let value := if s.literal.positive then "true" else "false"
  [s!"{Event.indent s.depth}F[{s.literal.var}/{value}]: {String.ofList s.assigned}",
    s!"{Event.indent (s.depth + 1)}= {String.ofList s.residual}"]

/-- In the mark the first blank is not followed by another one, so the mark cannot begin one
character before its place, whatever that character is. -/
theorem cut_literal (l : Literal) (cs : List Char) :
    cut " at depth ".toList (l.chars ++ (" at depth ".toList ++ cs)) = some (l.chars, cs) := by
  have hshifted (x : Char) : ¬ " at depth ".toList <+: x :: (" at depth ".toList ++ cs) := by
    simp
  have hmark : cut " at depth ".toList (" at depth ".toList ++ cs) = some ([], cs) :=
    Text.cut_mark (by decide) cs
  obtain ⟨x, positive⟩ := l
  cases positive with
  | true =>
    have hx := Text.cut_cons (hshifted x)
    rw [hmark] at hx
    exact hx
  | false =>
    have hminus : ¬ " at depth ".toList <+: '-' :: x :: (" at depth ".toList ++ cs) := by
      simp
    have hx := Text.cut_cons hminus
    rw [Text.cut_cons (hshifted x), hmark] at hx
    exact hx

theorem cut_digits (n : Nat) (cs : List Char) :
    cut ": ".toList (Nat.toDigits 10 n ++ (": ".toList ++ cs)) = some (Nat.toDigits 10 n, cs) := by
  have hdigit : ∀ c ∈ Nat.toDigits 10 n, c ∉ ": ".toList := by
    intro c hc hmark
    have hc' := Nat.isDigit_of_mem_toDigits (by decide) (by decide) hc
    simp only [String.reduceToList, List.mem_cons, List.not_mem_nil, or_false] at hmark
    rcases hmark with rfl | rfl
    · exact absurd hc' (by decide)
    · exact absurd hc' (by decide)
  apply Text.cut_append_of_absent (by decide)
  · intro c hc
    exact hdigit c (List.mem_of_getLast? hc)
  · intro hwithin
    exact hdigit ':' (hwithin.subset (by decide)) (by decide)

theorem ofChars?_chars {s : StepShown} (hlast : s.assigned.getLast? = some '}')
    (hapart : Apart '=' ' ' s.assigned) : ofChars? s.chars = some s := by
  have hassigned : cut " = ".toList (s.assigned ++ (" = ".toList ++ s.residual)) =
      some (s.assigned, s.residual) := by
    apply Text.cut_append_of_absent (by decide)
    · simp [hlast]
    · exact hapart.absent (by decide)
  have hdepth : Nat.ofDigitChars 10 (Nat.toDigits 10 s.depth) 0 = s.depth :=
    Nat.ofDigitChars_toDigits (by decide) (by decide)
  simp only [ofChars?, chars, Text.behind?_append, cut_literal, cut_digits, hassigned,
    Literal.ofChars?_chars, hdepth, Option.bind_eq_bind, Option.bind_some]
  rfl

end StepShown

/-- The lines that the records stand for, where the latest step so far was at the depth. -/
def transcribe (depth : Nat) : List Record → List String
  | [] => []
  | r :: rs =>
    match StepShown.ofChars? r.message.toList with
    | some s => s.lines ++ transcribe s.depth rs
    | none =>
      match behind? "satisfying allocation ".toList r.message.toList with
      | some a =>
        s!"{Event.indent (depth + 1)}satisfying allocation found: {String.ofList a}" ::
          transcribe depth rs
      | none => transcribe depth rs

section
variable (d depth : Nat) (rs : List Record)

theorem apart_assignedChars (F : Formula) (l : Literal) :
    Apart '=' ' ' (F.assignedChars l) := by
  have hab : Separable '=' ' ' := by
    constructor <;> decide
  have htrue : Apart '=' ' ' "true".toList := by
    unfold Apart
    decide
  have hfalse : Apart '=' ' ' "false".toList := by
    unfold Apart
    decide
  apply Text.apart_braced hab
  intro item hitem
  obtain ⟨c, _, rfl⟩ := List.mem_map.mp hitem
  apply Text.apart_braced hab
  intro item hitem
  obtain ⟨m, _, rfl⟩ := List.mem_map.mp hitem
  split
  · exact htrue
  · split
    · exact hfalse
    · exact m.apart_chars hab

theorem transcribe_step (l : Literal) (F G : Formula) :
    transcribe d ((Event.step depth l F G).record?.toList ++ rs) =
      (Event.step depth l F G).lines ++ transcribe depth rs := by
  have hshown : StepShown.ofChars?
      s!"step {l.render} at depth {depth}: {F.renderAssigned l} = {G.render}".toList =
        some ⟨l, depth, F.assignedChars l, G.chars⟩ := by
    rw [← StepShown.ofChars?_chars (s := ⟨l, depth, F.assignedChars l, G.chars⟩)
      (Text.getLast?_braced _) (apart_assignedChars F l)]
    simp [StepShown.chars, Literal.render, Formula.renderAssigned, Formula.render, toString]
  simp only [Event.record?, Option.toList_some, List.singleton_append, transcribe, hshown]
  rfl

theorem transcribe_found (a : Allocation) :
    transcribe d ((Event.found d a).record?.toList ++ rs) =
      (Event.found d a).lines ++ transcribe d rs := by
  have hstep : StepShown.ofChars? s!"satisfying allocation {a.render}".toList = none := by
    simp [StepShown.ofChars?, behind?, toString]
  have hshown : behind? "satisfying allocation ".toList
      s!"satisfying allocation {a.render}".toList = some a.chars := by
    simp [behind?, Allocation.render, toString]
  simp only [Event.record?, Option.toList_some, List.singleton_append, transcribe, hstep, hshown]
  rfl

theorem transcribe_aborted :
    transcribe d ((Event.aborted depth).record?.toList ++ rs) = transcribe d rs := by
  simp [Event.record?, transcribe, StepShown.ofChars?, behind?, toString]

theorem transcribe_finished (count : Nat) :
    transcribe d ((Event.finished count).record?.toList ++ rs) = transcribe d rs := by
  simp [Event.record?, transcribe, StepShown.ofChars?, behind?, toString]

end

section
variable {stops : Interrupts} {mode : Mode}

theorem filterMap_record_cons (e : Event) (es : List Event) (rs : List Record) :
    (e :: es).filterMap Event.record? ++ rs =
      e.record?.toList ++ (es.filterMap Event.record? ++ rs) := by
  rw [← List.append_assoc, List.filterMap_cons]
  cases e.record? <;> rfl

/-- The records of a task are followed by those of what comes after it, which has to go on from
the depth of the task's latest step. -/
theorem Trail.exists_transcribe {path : List Literal} {F : Formula} {task : Task} {n : Nat}
    {signal : Signal} {es : List Event} (h : Trail stops mode path F task n signal es) (d : Nat)
    (rs : List Record) : ∃ d', transcribe d (es.filterMap Event.record? ++ rs) =
      es.flatMap Event.lines ++ transcribe d' rs := by
  induction h generalizing d rs with
  | stopped =>
    refine ⟨d, ?_⟩
    rw [filterMap_record_cons, transcribe_aborted]
    rfl
  | entered _ _ ih => exact ih d rs
  | exhausted => exact ⟨d, rfl⟩
  | ended _ _ ih => exact ih d rs
  | @continued _ _ _ _ _ _ _ _ fs _ _ _ ih ih' =>
    obtain ⟨d', hes⟩ := ih d (fs.filterMap Event.record? ++ rs)
    obtain ⟨d'', hfs⟩ := ih' d' rs
    refine ⟨d'', ?_⟩
    rw [List.filterMap_append, List.append_assoc, hes, hfs, List.flatMap_append,
      List.append_assoc]
  | @completed path F _ l _ =>
    refine ⟨path.length, ?_⟩
    rw [filterMap_record_cons, transcribe_step, filterMap_record_cons, transcribe_found]
    simp
  | @contradicted path F _ l _ _ =>
    refine ⟨path.length, ?_⟩
    rw [filterMap_record_cons, transcribe_step]
    simp
  | @descended path F _ l _ _ _ _ _ ih =>
    obtain ⟨d', hes⟩ := ih path.length rs
    refine ⟨d', ?_⟩
    rw [filterMap_record_cons, transcribe_step, hes, List.flatMap_cons, List.append_assoc]

theorem Signal.transcribe_closing (signal : Signal) (es : List Event) (d : Nat) :
    transcribe d ((signal.closing es).filterMap Event.record?) = [] := by
  have hfinished (count : Nat) :
      transcribe d ([Event.finished count].filterMap Event.record?) = [] :=
    transcribe_finished d [] count
  cases signal with
  | aborted => rfl
  | closed => exact hfinished _
  | satisfied => exact hfinished _
  | explored => exact hfinished _

/-- Nothing is lost of the trace when only the log is kept. -/
theorem transcribe_history (stops : Interrupts) (mode : Mode) (F : Formula) :
    transcribe 0 ((history stops mode F).filterMap Event.record?) = traceLines stops mode F := by
  unfold traceLines
  rcases exists_history_eq stops mode F with ⟨count, hnone⟩ | ⟨signal, es, htrail, hes⟩
  · rw [hnone]
    exact transcribe_finished 0 [] count
  · obtain ⟨d, htranscribe⟩ :=
      htrail.exists_transcribe 0 ((signal.closing es).filterMap Event.record?)
    rw [hes, List.filterMap_append, List.flatMap_append, htranscribe, signal.transcribe_closing,
      signal.flatMap_lines_closing]

end
end Search
end Clausal
