import Clausal.Job
import Clausal.Proofs.Report.Lines

/-!
# The threads of a job

Two threads do a job. The worker makes the report, in the course of which it polls a flag, puts it
into the sink, closes the sink and sends the message that it is done. If there is a timeout, the
main thread waits for this message; when the time runs out first, it raises the flag. Either way
it then joins the worker, which hands its result over.

`Step` is what one of the threads does next. Which of them it is, and when the time runs out, is
left open, so that `Reaches` follows every interleaving. None of them goes on for ever, and none
gets stuck before the threads are joined.

The worker sees the flag down until it is raised. So its answers are those of a run that is never
stopped, or the last of them is the one that stops it.
-/

set_option autoImplicit false

namespace Clausal

namespace Job

def reportUnder (stops : Interrupts) (j : Job) : Report :=
  .make j.traced stops j.algorithm j.formula

def resultUnder (stops : Interrupts) (j : Job) : Result :=
  let r := j.reportUnder stops
  ⟨r.outcome, (r.lines j.traced ++ abortLines r.outcome).map .emit ++ [.close]⟩

theorem run_eq_resultUnder (pace : Duration → Nat) (j : Job) :
    j.run pace = j.resultUnder (interrupts pace j.timeout) := rfl

/-- The polls of a job whose flag stays down. -/
def polls (j : Job) : Nat := (j.reportUnder .never).polls

/-- The answers that the polls had so far. Those of the later ones do not matter. -/
def heard (answers : List Bool) : Interrupts := fun i => answers.getD i false

inductive Worker
  /-- On the report; these answers its polls had so far. -/
  | working (answers : List Bool)
  /-- The sink is closed. -/
  | closed (result : Result)
  /-- The message is sent. -/
  | sent (result : Result)

/-- The report needs the answer to a further poll. -/
def Worker.Polls (j : Job) : Worker → Prop
  | .working answers => answers.length < (j.reportUnder (heard answers)).polls
  | .closed _ => False
  | .sent _ => False

inductive Main
  /-- For the message, while there is time. -/
  | waiting
  /-- The time has run out. -/
  | expired
  /-- Waiting for the end of the worker. -/
  | joining
  | joined (result : Result)

structure Threads where
  main : Main
  raised : Bool
  worker : Worker

def start (j : Job) : Threads where
  main := if j.timeout = none then .joining else .waiting
  raised := false
  worker := .working []

inductive Step (j : Job) : Threads → Threads → Prop
  | poll {main : Main} {raised : Bool} {answers : List Bool}
      (h : (Worker.working answers).Polls j) :
      Step j ⟨main, raised, .working answers⟩ ⟨main, raised, .working (answers ++ [raised])⟩
  | close {main : Main} {raised : Bool} {answers : List Bool}
      (h : ¬ (Worker.working answers).Polls j) :
      Step j ⟨main, raised, .working answers⟩
        ⟨main, raised, .closed (j.resultUnder (heard answers))⟩
  | send {main : Main} {raised : Bool} {r : Result} :
      Step j ⟨main, raised, .closed r⟩ ⟨main, raised, .sent r⟩
  | receive {raised : Bool} {r : Result} :
      Step j ⟨.waiting, raised, .sent r⟩ ⟨.joining, raised, .sent r⟩
  | expire {raised : Bool} {worker : Worker} :
      Step j ⟨.waiting, raised, worker⟩ ⟨.expired, raised, worker⟩
  | raise {raised : Bool} {worker : Worker} :
      Step j ⟨.expired, raised, worker⟩ ⟨.joining, true, worker⟩
  | join {raised : Bool} {r : Result} :
      Step j ⟨.joining, raised, .sent r⟩ ⟨.joined r, raised, .sent r⟩

/-- The threads get from `s` to `t` in this number of steps. -/
inductive Reaches (j : Job) (s : Threads) : Nat → Threads → Prop
  | refl : Reaches j s 0 s
  | step {n : Nat} {t u : Threads} : Reaches j s n t → Step j t u → Reaches j s (n + 1) u

section Report
variable (j : Job)

theorem shows_reportUnder (stops : Interrupts) :
    Report.Shows j.traced j.formula (j.reportUnder stops) (j.algorithm.run stops j.formula) :=
  Report.make_shows _ _ _ _

theorem polls_eq : j.polls = (j.algorithm.run .never j.formula).polls :=
  (j.shows_reportUnder .never).polls_eq

theorem polls_reportUnder_le (stops : Interrupts) : (j.reportUnder stops).polls ≤ j.polls := by
  rw [polls_eq, (j.shows_reportUnder stops).polls_eq]
  exact Algorithm.polls_run_le _ _ _

variable {j}

/-- Interrupts that give the same answers to the polls lead to the same result. -/
theorem resultUnder_eq_of_agree {stops stops' : Interrupts}
    (hagree : ∀ i < (j.reportUnder stops).polls, stops' i = stops i) :
    j.resultUnder stops' = j.resultUnder stops := by
  rw [(j.shows_reportUnder stops).polls_eq] at hagree
  have hrun := Algorithm.run_eq_of_agree hagree
  unfold resultUnder
  dsimp only
  rw [(j.shows_reportUnder stops').outcome_eq, (j.shows_reportUnder stops').lines_eq, hrun,
    (j.shows_reportUnder stops).outcome_eq, (j.shows_reportUnder stops).lines_eq]

theorem polls_reportUnder_eq_of_stop {stops : Interrupts} {k : Nat} (hk : k < j.polls)
    (hstop : stops k = true) (hgo : ∀ i < k, stops i = false) :
    (j.reportUnder stops).polls = k + 1 := by
  rw [polls_eq] at hk
  rw [(j.shows_reportUnder stops).polls_eq, (Algorithm.run_stopped hk hstop hgo).polls_eq]

end Report

section Heard

theorem heard_replicate (k : Nat) : heard (.replicate k false) = .never := by
  funext i
  simp only [heard, List.getD_eq_getElem?_getD, List.getElem?_replicate, Interrupts.never]
  split <;> rfl

theorem heard_up {k i : Nat} (hi : i ≤ k) :
    heard (.replicate k false ++ [true]) i = Interrupts.after k i := by
  rcases Nat.lt_or_eq_of_le hi with hlt | rfl
  · have hlen : i < (List.replicate k false).length := by simpa using hlt
    simp [heard, List.getElem?_append_left hlen, Interrupts.after, hlt]
  · simp [heard, Interrupts.after]

/-- What the worker hears of the flag: it is down, or it is up at the last poll. -/
inductive Heard (polls : Nat) (raised : Bool) : List Bool → Prop
  | down {k : Nat} : k ≤ polls → Heard polls raised (.replicate k false)
  | up {k : Nat} : k < polls → raised = true → Heard polls raised (.replicate k false ++ [true])

/-- The results that a worker can hand over. -/
inductive Delivered (j : Job) (raised : Bool) : Result → Prop
  | never : Delivered j raised (j.resultUnder .never)
  | after {k : Nat} : k < j.polls → raised = true → Delivered j raised (j.resultUnder (.after k))

variable {j : Job} {raised : Bool} {answers : List Bool} {k : Nat}

theorem polls_heard_up (hk : k < j.polls) :
    (j.reportUnder (heard (.replicate k false ++ [true]))).polls = k + 1 := by
  apply polls_reportUnder_eq_of_stop hk
  · simp [heard_up (Nat.le_refl k), Interrupts.after]
  · intro i hi
    simp [heard_up (Nat.le_of_lt hi), Interrupts.after, hi]

/-- The answer that stops the report is that to its last poll. -/
theorem not_polls_heard_up (hk : k < j.polls) :
    ¬ (Worker.working (.replicate k false ++ [true])).Polls j := by
  simp [Worker.Polls, polls_heard_up hk]

theorem resultUnder_heard_up (hk : k < j.polls) :
    j.resultUnder (heard (.replicate k false ++ [true])) = j.resultUnder (.after k) := by
  symm
  apply resultUnder_eq_of_agree
  rw [polls_heard_up hk]
  intro i hi
  exact (heard_up (Nat.le_of_lt_succ hi)).symm

theorem polls_replicate_iff :
    (Worker.working (.replicate k false)).Polls j ↔ k < j.polls := by
  simp only [Worker.Polls, heard_replicate, List.length_replicate, polls]

theorem Heard.poll (h : Heard j.polls raised answers) (hpolls : (Worker.working answers).Polls j) :
    Heard j.polls raised (answers ++ [raised]) := by
  cases h with
  | @down k hk =>
    have hk' := polls_replicate_iff.mp hpolls
    cases raised with
    | false =>
      rw [← List.replicate_succ']
      exact .down hk'
    | true => exact .up hk' rfl
  | up hk _ => exact absurd hpolls (not_polls_heard_up hk)

theorem Heard.delivered (h : Heard j.polls raised answers) :
    Delivered j raised (j.resultUnder (heard answers)) := by
  cases h with
  | down hk =>
    rw [heard_replicate]
    exact .never
  | @up k hk hraised =>
    rw [resultUnder_heard_up hk]
    exact .after hk hraised

theorem Heard.raise (h : Heard j.polls raised answers) : Heard j.polls true answers := by
  cases h with
  | down hk => exact .down hk
  | up hk _ => exact .up hk rfl

theorem Delivered.raise {r : Result} (h : Delivered j raised r) : Delivered j true r := by
  cases h with
  | never => exact .never
  | after hk _ => exact .after hk rfl

end Heard

section Invariant

def Worker.Sound (j : Job) (raised : Bool) : Worker → Prop
  | .working answers => Heard j.polls raised answers
  | .closed r => Delivered j raised r
  | .sent r => Delivered j raised r

/-- What holds of the threads all the time. -/
structure Threads.Sound (j : Job) (t : Threads) : Prop where
  worker : t.worker.Sound j t.raised
  /-- Only a timeout makes the main thread wait and raise the flag. -/
  timeout : t.main = .waiting ∨ t.main = .expired ∨ t.raised = true → j.timeout ≠ none
  joined : ∀ r, t.main = .joined r → t.worker = .sent r

variable {j : Job} {s t u : Threads} {n m : Nat}

theorem sound_start (j : Job) : j.start.Sound j where
  worker := .down (Nat.zero_le _)
  timeout := by
    unfold start
    split
    · simp
    · next h => exact fun _ => h
  joined := by
    unfold start
    split <;> simp

theorem Step.sound (h : Step j t u) (ht : t.Sound j) : u.Sound j := by
  obtain ⟨hworker, htimeout, hjoined⟩ := ht
  cases h with
  | poll hpolls =>
    exact ⟨Heard.poll hworker hpolls, htimeout, fun r hr => by simpa using hjoined r hr⟩
  | close => exact ⟨Heard.delivered hworker, htimeout, fun r hr => by simpa using hjoined r hr⟩
  | send => exact ⟨hworker, htimeout, fun r hr => by simpa using hjoined r hr⟩
  | receive => exact ⟨hworker, fun _ => htimeout (.inl rfl), fun r hr => by simp at hr⟩
  | expire => exact ⟨hworker, fun _ => htimeout (.inl rfl), fun r hr => by simp at hr⟩
  | @raise raised worker =>
    refine ⟨?_, fun _ => htimeout (.inr (.inl rfl)), fun r hr => by simp at hr⟩
    cases worker with
    | working answers => exact Heard.raise hworker
    | closed r => exact Delivered.raise hworker
    | sent r => exact Delivered.raise hworker
  | join =>
    refine ⟨hworker, fun h => htimeout (.inr (.inr (by simpa using h))), fun r hr => ?_⟩
    cases hr
    rfl

theorem Reaches.sound (h : Reaches j s n t) (hs : s.Sound j) : t.Sound j := by
  induction h with
  | refl => exact hs
  | step _ hstep ih => exact hstep.sound ih

end Invariant

section Ending
variable {j : Job} {s t u : Threads} {n m : Nat}

theorem Reaches.trans (hst : Reaches j s n t) (htu : Reaches j t m u) : Reaches j s (n + m) u := by
  induction htu with
  | refl => exact hst
  | step _ hstep ih => exact .step ih hstep

def Worker.rest (j : Job) : Worker → Nat
  | .working answers => j.polls - answers.length + 2
  | .closed _ => 1
  | .sent _ => 0

def Main.rest : Main → Nat
  | .waiting => 3
  | .expired => 2
  | .joining => 1
  | .joined _ => 0

/-- A bound for the steps that are still to come. -/
def Threads.rest (j : Job) (t : Threads) : Nat := t.main.rest + t.worker.rest j

theorem Step.rest_lt (h : Step j t u) : u.rest j < t.rest j := by
  cases h with
  | @poll main raised answers hpolls =>
    have hle := Nat.lt_of_lt_of_le hpolls (j.polls_reportUnder_le (heard answers))
    simp only [Threads.rest, Worker.rest, List.length_append, List.length_singleton]
    omega
  | close =>
    simp only [Threads.rest, Worker.rest]
    omega
  | send => simp [Threads.rest, Worker.rest]
  | receive => simp [Threads.rest, Main.rest]
  | expire => simp [Threads.rest, Main.rest]
  | raise => simp [Threads.rest, Main.rest]
  | join => simp [Threads.rest, Main.rest]

theorem Reaches.add_rest_le (h : Reaches j s n t) : n + t.rest j ≤ s.rest j := by
  induction h with
  | refl => exact Nat.le_of_eq (Nat.zero_add _)
  | step _ hstep ih =>
    have := hstep.rest_lt
    omega

theorem rest_start_le (j : Job) : j.start.rest j ≤ j.polls + 5 := by
  unfold start
  split
  · simp only [Threads.rest, Main.rest, Worker.rest, List.length_nil]
    omega
  · simp only [Threads.rest, Main.rest, Worker.rest, List.length_nil]
    omega

/-- One of the threads can go on until they are joined. -/
theorem Threads.joined_or_exists_step (j : Job) (t : Threads) :
    (∃ r, t.main = .joined r) ∨ ∃ u, Step j t u := by
  obtain ⟨main, raised, worker⟩ := t
  cases worker with
  | working answers =>
    by_cases h : (Worker.working answers).Polls j
    · exact .inr ⟨_, .poll h⟩
    · exact .inr ⟨_, .close h⟩
  | closed r => exact .inr ⟨_, .send⟩
  | sent r =>
    cases main with
    | waiting => exact .inr ⟨_, .receive⟩
    | expired => exact .inr ⟨_, .raise⟩
    | joining => exact .inr ⟨_, .join⟩
    | joined r => exact .inl ⟨r, rfl⟩

end Ending
end Job
end Clausal
