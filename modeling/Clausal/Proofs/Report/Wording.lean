import Clausal.Proofs.Report.Lines

/-!
# The wording of answers

The lines that show an answer can be told by their first words: apart from empty lines, each of
them begins with one of `answerWords`, and no line of a trace does, nor one of the opening. So what
is read as an answer is one.
-/

set_option autoImplicit false

namespace Clausal

namespace Report

def answerWords : List String := ["Formula is", "No satisfying", "formula is", "Satisfying", "["]

def TellsAnswer (line : String) : Prop := ∃ word ∈ answerWords, word.toList <+: line.toList

variable {line : String}

theorem tellsAnswer_of_mem_verdictLines {v : Resolution.Verdict} (h : line ∈ verdictLines v)
    (hne : line ≠ "") : TellsAnswer line := by
  unfold verdictLines at h
  rcases List.mem_cons.mp h with rfl | h
  · exact absurd rfl hne
  · obtain rfl := List.mem_singleton.mp h
    cases v.isRefuted <;> simp [TellsAnswer, answerWords]

theorem tellsAnswer_of_mem_allocationLines {as : List Allocation} (h : line ∈ allocationLines as)
    (hne : line ≠ "") : TellsAnswer line := by
  simp only [allocationLines, List.mem_append, List.mem_map, List.mem_cons, List.not_mem_nil,
    or_false] at h
  rcases h with (h | rfl | rfl) | ⟨a, _, rfl⟩
  · split at h
    · simp only [List.mem_cons, List.not_mem_nil, or_false] at h
      rcases h with rfl | rfl | rfl
      · exact absurd rfl hne
      · simp [TellsAnswer, answerWords]
      · simp [TellsAnswer, answerWords]
    · simp at h
  · exact absurd rfl hne
  · simp [TellsAnswer, answerWords, toString]
  · simp [TellsAnswer, answerWords, Allocation.render, Allocation.chars, Text.bracketed,
      Text.enclosed]

theorem not_tellsAnswer_of_mem_opening {F : Formula} (h : line ∈ opening F) :
    ¬ TellsAnswer line := by
  simp only [opening, List.mem_cons, List.not_mem_nil, or_false] at h
  rcases h with rfl | rfl
  · simp [TellsAnswer, answerWords, toString]
  · simp [TellsAnswer, answerWords]

end Report

open Report

theorem Search.Event.not_tellsAnswer_indent (depth : Nat) (rest : String) :
    ¬ TellsAnswer (indent (depth + 1) ++ rest) := by
  simp [TellsAnswer, answerWords, indent, Nat.mul_succ, List.replicate_succ]

theorem Search.Event.not_tellsAnswer {e : Search.Event} {line : String} (h : line ∈ e.lines) :
    ¬ TellsAnswer line := by
  cases e with
  | step depth l F G =>
    simp only [lines, List.mem_cons, List.not_mem_nil, or_false] at h
    rcases h with rfl | rfl
    · -- At depth zero there is no indentation, but `Formula is` does not begin with `F[`.
      cases depth with
      | zero => simp [TellsAnswer, answerWords, indent, toString]
      | succ depth =>
        simp only [String.append_assoc]
        exact not_tellsAnswer_indent depth _
    · rw [String.append_assoc]
      exact not_tellsAnswer_indent depth _
  | found depth a =>
    obtain rfl := List.mem_singleton.mp h
    rw [String.append_assoc]
    exact not_tellsAnswer_indent depth _
  | entered path F => simp [lines] at h
  | aborted depth => simp [lines] at h
  | finished count => simp [lines] at h

theorem Resolution.Step.not_tellsAnswer_render (s : Step) : ¬ TellsAnswer s.render := by
  simp [TellsAnswer, answerWords, render, Clause.render, Clause.chars, Text.braced, Text.enclosed,
    toString]

theorem Resolution.Event.not_tellsAnswer {e : Resolution.Event} {line : String}
    (h : line ∈ e.lines) : ¬ TellsAnswer line := by
  cases e with
  | resolved s =>
    obtain rfl := List.mem_singleton.mp h
    exact s.not_tellsAnswer_render
  | refuted size proof =>
    simp only [lines, List.mem_append, List.mem_cons, List.not_mem_nil, or_false,
      List.mem_map] at h
    rcases h with (rfl | rfl | rfl) | ⟨s, _, rfl⟩
    · simp [TellsAnswer, answerWords]
    · simp [TellsAnswer, answerWords]
    · simp [TellsAnswer, answerWords, toString]
    · exact s.not_tellsAnswer_render
  | saturated size =>
    simp only [lines, List.mem_cons, List.not_mem_nil, or_false] at h
    rcases h with rfl | rfl
    · simp [TellsAnswer, answerWords]
    · simp [TellsAnswer, answerWords, toString]
  | refutedAtOnce => simp [lines] at h
  | pass D => simp [lines] at h
  | aborted size => simp [lines] at h

theorem Algorithm.not_tellsAnswer_of_mem_trace {stops : Interrupts} {F : Formula}
    {algorithm : Algorithm} {line : String} (h : line ∈ (algorithm.run stops F).trace) :
    ¬ TellsAnswer line := by
  have hsearch : ∀ mode, line ∈ Search.traceLines stops mode F → ¬ TellsAnswer line := by
    intro mode h
    obtain ⟨e, _, he⟩ := List.mem_flatMap.mp h
    exact e.not_tellsAnswer he
  cases algorithm with
  | dpll => exact hsearch .first h
  | dpllAll => exact hsearch .all h
  | resolution =>
    obtain ⟨e, _, he⟩ := List.mem_flatMap.mp h
    exact e.not_tellsAnswer he

end Clausal
