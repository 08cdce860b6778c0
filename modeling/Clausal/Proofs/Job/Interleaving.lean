import Clausal.Proofs.Job.Threads
import Clausal.Proofs.Report.Agreement
import Clausal.Proofs.Report.Wording

/-!
# The interleavings of a job

However its threads take turns, a job ends in one of two ways: it shows what the report shows that
is never stopped, or it is cut short, with a beginning of the trace and without an answer. There
is nothing in between, because all that the flag can do to the report is to stop it at one of its
polls. Once they are over it is too late.

The paces of the worker that `Job.run` leaves open lead to the same results as the interleavings,
neither more nor fewer.
-/

set_option autoImplicit false

namespace Clausal

namespace Job

/-- The job shows the answer, as if its report could not be stopped. -/
structure Completed (j : Job) (r : Result) : Prop where
  finished : ∃ answer, r.outcome = .finished answer ∧
    (j.reportUnder .never).outcome = .finished answer
  lines_eq : r.lines = (j.reportUnder .never).lines j.traced

structure CutShort (j : Job) (r : Result) : Prop where
  aborted : r.outcome = .aborted
  lines_eq : ∃ trace,
    trace <+: (if j.traced then (j.algorithm.run .never j.formula).trace else []) ∧
      r.lines = Report.opening j.formula ++ trace ++ ["", "Aborted!"]
  /-- Apart from empty lines, none is of those that show an answer. -/
  no_answer : ∀ line ∈ r.lines, line ≠ "" →
    (∀ v, line ∉ Report.verdictLines v) ∧ ∀ as, line ∉ Report.allocationLines as

section Result
variable (j : Job) (stops : Interrupts)

theorem lines_resultUnder :
    (j.resultUnder stops).lines =
      (j.reportUnder stops).lines j.traced ++ abortLines (j.reportUnder stops).outcome := by
  have hemit : SinkAction.line? ∘ SinkAction.emit = some := rfl
  simp [resultUnder, Result.lines, List.filterMap_append, List.filterMap_map, hemit,
    SinkAction.line?]

theorem actions_resultUnder :
    (j.resultUnder stops).actions = (j.resultUnder stops).lines.map .emit ++ [.close] := by
  rw [lines_resultUnder]
  rfl

theorem completed_never : j.Completed (j.resultUnder .never) := by
  obtain ⟨answer, hanswer, _⟩ := j.algorithm.exists_outcome_run j.formula
  rw [← (j.shows_reportUnder .never).outcome_eq] at hanswer
  refine ⟨⟨answer, hanswer, hanswer⟩, ?_⟩
  rw [lines_resultUnder, hanswer]
  exact List.append_nil _

variable {j} {k : Nat}

theorem cutShort_after (hk : k < j.polls) : j.CutShort (j.resultUnder (.after k)) := by
  rw [polls_eq] at hk
  have hstopped : (j.algorithm.run .never j.formula).Stopped k
      (j.algorithm.run (.after k) j.formula) := by
    apply Algorithm.run_stopped hk
    · simp [Interrupts.after]
    · intro i hi
      simp [Interrupts.after, hi]
  have hshows := j.shows_reportUnder (.after k)
  have haborted : (j.reportUnder (.after k)).outcome = .aborted :=
    hshows.outcome_eq.trans hstopped.outcome_eq
  have hlines : (j.resultUnder (.after k)).lines = Report.opening j.formula ++
      (if j.traced then (j.algorithm.run (.after k) j.formula).trace else []) ++
        ["", "Aborted!"] := by
    rw [lines_resultUnder, haborted, hshows.lines_eq, hstopped.answer_eq, List.append_nil]
    rfl
  refine ⟨haborted, ⟨_, ?_, hlines⟩, ?_⟩
  · split
    · exact hstopped.trace_prefix
    · exact List.prefix_refl _
  · intro line hline hne
    have hnot : ¬ Report.TellsAnswer line := by
      rw [hlines, List.mem_append, List.mem_append] at hline
      rcases hline with (hopening | htrace) | habort
      · exact Report.not_tellsAnswer_of_mem_opening hopening
      · split at htrace
        · exact Algorithm.not_tellsAnswer_of_mem_trace htrace
        · simp at htrace
      · simp only [List.mem_cons, List.not_mem_nil, or_false] at habort
        rcases habort with rfl | rfl
        · exact absurd rfl hne
        · simp [Report.TellsAnswer, Report.answerWords]
    exact ⟨fun v h => hnot (Report.tellsAnswer_of_mem_verdictLines h hne),
      fun as h => hnot (Report.tellsAnswer_of_mem_allocationLines h hne)⟩

theorem Completed.exitCode_ne {r : Result} (h : j.Completed r) : r.outcome.exitCode ≠ 2 := by
  obtain ⟨answer, hanswer, _⟩ := h.finished
  rw [hanswer]
  cases answer <;> simp [Outcome.exitCode]

theorem CutShort.exitCode_eq {r : Result} (h : j.CutShort r) : r.outcome.exitCode = 2 := by
  rw [h.aborted]
  rfl

end Result

section Paces
variable {j : Job} {raised : Bool} {r : Result}

theorem Delivered.exists_run (h : Delivered j raised r) (htimeout : raised = true → j.timeout ≠ none) :
    ∃ pace, j.run pace = r := by
  cases h with
  | never =>
    refine ⟨fun _ => j.polls, ?_⟩
    rw [run_eq_resultUnder]
    apply resultUnder_eq_of_agree
    intro i hi
    cases j.timeout with
    | none => rfl
    | some t => exact decide_eq_false (Nat.not_le_of_lt hi)
  | @after k hk hraised =>
    refine ⟨fun _ => k, ?_⟩
    obtain ⟨t, ht⟩ := Option.ne_none_iff_exists'.mp (htimeout hraised)
    rw [run_eq_resultUnder, ht]
    rfl

theorem run_eq_never_or_after (pace : Duration → Nat) (j : Job) :
    j.run pace = j.resultUnder .never ∨
      ∃ k < j.polls, j.timeout ≠ none ∧ j.run pace = j.resultUnder (.after k) := by
  rw [run_eq_resultUnder]
  cases ht : j.timeout with
  | none => exact .inl rfl
  | some t =>
    rcases Nat.lt_or_ge (pace t) j.polls with hlt | hge
    · exact .inr ⟨pace t, hlt, by simp, rfl⟩
    · refine .inl (resultUnder_eq_of_agree fun i hi => ?_)
      exact decide_eq_false (Nat.not_le_of_lt (Nat.lt_of_lt_of_le hi hge))

end Paces

section Reached
variable {j : Job}

theorem reaches_polls (main : Main) {k : Nat} (hk : k ≤ j.polls) :
    Reaches j ⟨main, false, .working []⟩ k ⟨main, false, .working (.replicate k false)⟩ := by
  induction k with
  | zero => exact .refl
  | succ k ih =>
    rw [List.replicate_succ']
    exact .step (ih (Nat.le_of_succ_le hk)) (.poll (polls_replicate_iff.mpr hk))

/-- Once the sink is closed, the threads can be joined without more ado. -/
theorem exists_joined_of_closed (j : Job) {main : Main} (raised : Bool) (r : Result)
    (hmain : main = .waiting ∨ main = .joining) :
    ∃ n t, Reaches j ⟨main, raised, .closed r⟩ n t ∧ t.main = .joined r := by
  rcases hmain with rfl | rfl
  · exact ⟨_, _, .step (.step (.step .refl .send) .receive) .join, rfl⟩
  · exact ⟨_, _, .step (.step .refl .send) .join, rfl⟩

theorem exists_joined_never (j : Job) :
    ∃ n t, Reaches j j.start n t ∧ t.main = .joined (j.resultUnder .never) := by
  have hmain : j.start.main = .waiting ∨ j.start.main = .joining := by
    unfold start
    split <;> simp
  have hclose : Step j ⟨j.start.main, false, .working (.replicate j.polls false)⟩
      ⟨j.start.main, false, .closed (j.resultUnder .never)⟩ := by
    rw [← heard_replicate j.polls]
    exact .close fun h => Nat.lt_irrefl _ (polls_replicate_iff.mp h)
  obtain ⟨n, t, hreaches, ht⟩ := exists_joined_of_closed j false (j.resultUnder .never) hmain
  exact ⟨_, t, (Reaches.step (reaches_polls _ (Nat.le_refl _)) hclose).trans hreaches, ht⟩

theorem exists_joined_after {k : Nat} (hk : k < j.polls) (htimeout : j.timeout ≠ none) :
    ∃ n t, Reaches j j.start n t ∧ t.main = .joined (j.resultUnder (.after k)) := by
  have hstart : j.start = ⟨.waiting, false, .working []⟩ := by simp [start, htimeout]
  rw [hstart]
  -- The time runs out after `k` polls, and the next of them sees the flag.
  have hpolls := reaches_polls (j := j) .waiting (Nat.le_of_lt hk)
  have hpoll : Step j ⟨.joining, true, .working (.replicate k false)⟩
      ⟨.joining, true, .working (.replicate k false ++ [true])⟩ :=
    .poll (polls_replicate_iff.mpr hk)
  have hclose : Step j ⟨.joining, true, .working (.replicate k false ++ [true])⟩
      ⟨.joining, true, .closed (j.resultUnder (.after k))⟩ := by
    rw [← resultUnder_heard_up hk]
    exact .close (not_polls_heard_up hk)
  obtain ⟨n, t, hreaches, ht⟩ :=
    exists_joined_of_closed j true (j.resultUnder (.after k)) (.inr rfl)
  exact ⟨_, t, (Reaches.step (.step (.step (.step hpolls .expire) .raise) hpoll) hclose).trans
    hreaches, ht⟩

end Reached

section Late
variable {j : Job} {r : Result} {t u : Threads} {n : Nat}

/-- It is settled that this is the result. -/
def Worker.Owes (j : Job) (r : Result) : Worker → Prop
  | .working answers => ¬ (Worker.working answers).Polls j ∧ j.resultUnder (heard answers) = r
  | .closed r' => r' = r
  | .sent r' => r' = r

theorem Step.owes (h : Step j t u) (ht : t.worker.Owes j r) : u.worker.Owes j r := by
  cases h with
  | poll hpolls => exact absurd hpolls ht.1
  | close => exact ht.2
  | send => exact ht
  | receive => exact ht
  | expire => exact ht
  | raise => exact ht
  | join => exact ht

theorem Reaches.owes (h : Reaches j t n u) (ht : t.worker.Owes j r) : u.worker.Owes j r := by
  induction h with
  | refl => exact ht
  | step _ hstep ih => exact hstep.owes ih

theorem Delivered.eq_never (h : Delivered j false r) : r = j.resultUnder .never := by
  cases h with
  | never => rfl
  | after _ hraised => simp at hraised

theorem Worker.Sound.owes_never {worker : Worker} (h : worker.Sound j false)
    (hpolls : ¬ worker.Polls j) : worker.Owes j (j.resultUnder .never) := by
  cases worker with
  | working answers => exact ⟨hpolls, (Heard.delivered h).eq_never⟩
  | closed r => exact Delivered.eq_never h
  | sent r => exact Delivered.eq_never h

end Late

/-- Every interleaving comes to its end, and then the job is completed or, by a timeout alone, cut
short; the exit code tells which, and the sink is closed after the last line. A flag raised after
the last poll changes nothing. -/
theorem interleavings_complete_or_cut_short (j : Job) :
    (∀ n t, Reaches j j.start n t →
      n ≤ j.polls + 5 ∧ ((∃ r, t.main = .joined r) ∨ ∃ u, Step j t u)) ∧
    (∀ n t r, Reaches j j.start n t → t.main = .joined r →
      (j.Completed r ∨ j.CutShort r ∧ j.timeout ≠ none ∧ t.raised = true) ∧
      (r.outcome.exitCode = 2 ↔ j.CutShort r) ∧
      r.actions = r.lines.map .emit ++ [.close]) ∧
    (∀ n t, Reaches j j.start n t → ¬ t.worker.Polls j → t.raised = false →
      ∀ m u r, Reaches j t m u → u.main = .joined r → r = j.resultUnder .never) ∧
    ∀ r, (∃ n t, Reaches j j.start n t ∧ t.main = .joined r) ↔ ∃ pace, j.run pace = r := by
  have hsound : ∀ {n t}, Reaches j j.start n t → t.Sound j := fun h => h.sound (sound_start j)
  have hdelivered : ∀ {n t r}, Reaches j j.start n t → t.main = .joined r →
      Delivered j t.raised r := by
    intro n t r hreaches hr
    have h := (hsound hreaches).worker
    rwa [(hsound hreaches).joined r hr] at h
  refine ⟨fun n t hreaches => ⟨?_, t.joined_or_exists_step j⟩, fun n t r hreaches hr => ?_,
    fun n t hreaches hpolls hraised m u r hreaches' hr => ?_, fun r => ⟨?_, ?_⟩⟩
  · have hle := hreaches.add_rest_le
    have hstart := rest_start_le j
    omega
  · have htimeout := (hsound hreaches).timeout
    cases hdelivered hreaches hr with
    | never =>
      refine ⟨.inl j.completed_never, ?_, j.actions_resultUnder .never⟩
      exact ⟨fun h => absurd h j.completed_never.exitCode_ne, CutShort.exitCode_eq⟩
    | after hk hraised =>
      have hcut := cutShort_after hk
      exact ⟨.inr ⟨hcut, htimeout (.inr (.inr hraised)), hraised⟩,
        ⟨fun _ => hcut, CutShort.exitCode_eq⟩, j.actions_resultUnder _⟩
  · have hworker := (hsound hreaches).worker
    rw [hraised] at hworker
    have howes := hreaches'.owes (hworker.owes_never hpolls)
    rwa [((hreaches'.sound (hsound hreaches)).joined r hr)] at howes
  · rintro ⟨n, t, hreaches, hr⟩
    exact (hdelivered hreaches hr).exists_run fun h => (hsound hreaches).timeout (.inr (.inr h))
  · rintro ⟨pace, rfl⟩
    rcases run_eq_never_or_after pace j with heq | ⟨k, hk, htimeout, heq⟩
    · rw [heq]
      exact exists_joined_never j
    · rw [heq]
      exact exists_joined_after hk htimeout

end Job
end Clausal
