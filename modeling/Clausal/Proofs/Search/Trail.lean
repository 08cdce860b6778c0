import Clausal.Search.Dpll

/-!
# What happens in a search

All that a search gathers can be read off its events: how often it polled, which allocations it
recorded, and what its observer has seen. `Trail` says which events a search has and with which
signal it ends, by one rule for each way in which a try of a literal, a row of moves or the search
of a formula ends or goes on. It carries no progress along; of what went before only the number of
polls matters, since it says which answer the next poll gets.

The main statements: every search has a trail, and it does what its trail says. So what is heard of
it, traced or not, can be told from its events.

This module does NOT look at what the allocations satisfy.
-/

set_option autoImplicit false

namespace Clausal.Search

namespace Event

/-- The event follows a poll. -/
def isPoll : Event → Bool
  | .entered _ _ => true
  | .aborted _ => true
  | _ => false

/-- The event is a step that leaves a formula to be searched. -/
def opens : Event → Bool
  | .step _ _ _ G => !G.isTrue && !G.isFalse
  | _ => false

def allocation? : Event → Option Allocation
  | .found _ a => some a
  | _ => none

end Event

def pollCount (es : List Event) : Nat := es.countP Event.isPoll

def openCount (es : List Event) : Nat := es.countP Event.opens

@[simp] theorem pollCount_nil : pollCount [] = 0 := rfl

@[simp] theorem pollCount_append (es fs : List Event) :
    pollCount (es ++ fs) = pollCount es + pollCount fs := List.countP_append

@[simp] theorem pollCount_cons (e : Event) (es : List Event) :
    pollCount (e :: es) = pollCount es + if e.isPoll then 1 else 0 := List.countP_cons

@[simp] theorem openCount_nil : openCount [] = 0 := rfl

@[simp] theorem openCount_append (es fs : List Event) :
    openCount (es ++ fs) = openCount es + openCount fs := List.countP_append

@[simp] theorem openCount_cons (e : Event) (es : List Event) :
    openCount (e :: es) = openCount es + if e.opens then 1 else 0 := List.countP_cons

/-- The allocations that are found, without those that repeat an earlier one. -/
def recorded (es : List Event) : List Allocation :=
  ListSet.ofList Allocation.same (es.filterMap Event.allocation?)

section
variable {σ : Type} (observe : Event → σ → σ)

def observeAll (es : List Event) (seen : σ) : σ := es.foldl (fun seen e => observe e seen) seen

/-- The progress after some more events. -/
def Progress.advance (s : Progress σ) (es : List Event) : Progress σ where
  polls := s.polls + pollCount es
  found := (es.filterMap Event.allocation?).foldl (ListSet.insert Allocation.same) s.found
  seen := observeAll observe es s.seen

theorem Progress.advance_append (s : Progress σ) (es fs : List Event) :
    s.advance observe (es ++ fs) = (s.advance observe es).advance observe fs := by
  simp [advance, observeAll, Nat.add_assoc]

theorem Progress.advance_cons (s : Progress σ) (e : Event) (es : List Event) :
    s.advance observe (e :: es) = (s.advance observe [e]).advance observe es :=
  s.advance_append observe [e] es

end

/-- The signal of a step that completes an allocation. -/
def Mode.success : Mode → Signal
  | .first => .satisfied
  | .all => .closed

/-- What a row of moves says if a move with this signal ends it. -/
def Signal.ends (forced : Bool) : Signal → Option Signal
  | .closed => if forced then some .explored else none
  | .explored => none
  | .satisfied => some .satisfied
  | .aborted => some .aborted

/-- What is to be done with a formula: to search it, to try moves in turn, to assign a literal. -/
inductive Task
  | search
  | row (ms : List Move)
  | assign (l : Literal)

/-- The polls of a task that do not belong to the search of a formula below it. -/
def Task.ownPolls : Task → Nat
  | .search => 1
  | .row _ => 0
  | .assign _ => 0

/-- Under the literals of `path` and with `n` polls behind it, the task ends with the signal after
the events. -/
inductive Trail (stops : Interrupts) (mode : Mode) :
    List Literal → Formula → Task → Nat → Signal → List Event → Prop
  | stopped {path : List Literal} {F : Formula} {n : Nat} (h : stops n = true) :
      Trail stops mode path F .search n .aborted [.aborted path.length]
  | entered {path : List Literal} {F : Formula} {n : Nat} {signal : Signal} {es : List Event}
      (h : stops n = false) (hrow : Trail stops mode path F (.row (moves F)) (n + 1) signal es) :
      Trail stops mode path F .search n signal (.entered path F :: es)
  | exhausted {path : List Literal} {F : Formula} {n : Nat} :
      Trail stops mode path F (.row []) n .explored []
  | ended {path : List Literal} {F : Formula} {n : Nat} {m : Move} {ms : List Move}
      {signal signal' : Signal} {es : List Event}
      (hm : Trail stops mode path F (.assign m.literal) n signal es)
      (h : signal.ends m.forced = some signal') :
      Trail stops mode path F (.row (m :: ms)) n signal' es
  | continued {path : List Literal} {F : Formula} {n : Nat} {m : Move} {ms : List Move}
      {signal signal' : Signal} {es fs : List Event}
      (hm : Trail stops mode path F (.assign m.literal) n signal es)
      (h : signal.ends m.forced = none)
      (hms : Trail stops mode path F (.row ms) (n + pollCount es) signal' fs) :
      Trail stops mode path F (.row (m :: ms)) n signal' (es ++ fs)
  | completed {path : List Literal} {F : Formula} {n : Nat} {l : Literal}
      (h : (F.assign l).isTrue = true) :
      Trail stops mode path F (.assign l) n mode.success
        [.step path.length l F (F.assign l), .found path.length ⟨path ++ [l]⟩]
  | contradicted {path : List Literal} {F : Formula} {n : Nat} {l : Literal}
      (h : (F.assign l).isTrue = false) (h' : (F.assign l).isFalse = true) :
      Trail stops mode path F (.assign l) n .closed [.step path.length l F (F.assign l)]
  | descended {path : List Literal} {F : Formula} {n : Nat} {l : Literal} {signal : Signal}
      {es : List Event} (h : (F.assign l).isTrue = false) (h' : (F.assign l).isFalse = false)
      (hG : Trail stops mode (path ++ [l]) (F.assign l) .search n signal es) :
      Trail stops mode path F (.assign l) n signal (.step path.length l F (F.assign l) :: es)

section
variable {stops : Interrupts} {mode : Mode}

/-- The induction follows the row; a move that has a trail ends the row or lets it go on. -/
theorem exists_trail_row {path : List Literal} {F : Formula} {ms : List Move}
    (h : ∀ m ∈ ms, ∀ n, ∃ signal es, Trail stops mode path F (.assign m.literal) n signal es)
    (n : Nat) : ∃ signal es, Trail stops mode path F (.row ms) n signal es := by
  induction ms generalizing n with
  | nil => exact ⟨_, _, .exhausted⟩
  | cons m ms ih =>
    obtain ⟨signal, es, hm⟩ := h m List.mem_cons_self n
    cases hends : signal.ends m.forced with
    | some signal' => exact ⟨_, _, .ended hm hends⟩
    | none =>
      obtain ⟨_, _, hms⟩ := ih (fun k hk => h k (List.mem_cons_of_mem m hk)) (n + pollCount es)
      exact ⟨_, _, .continued hm hends hms⟩

theorem exists_trail_assign {path : List Literal} {F : Formula} {l : Literal}
    (h : ∀ n, ∃ signal es, Trail stops mode (path ++ [l]) (F.assign l) .search n signal es)
    (n : Nat) : ∃ signal es, Trail stops mode path F (.assign l) n signal es := by
  cases hG : (F.assign l).isTrue with
  | true => exact ⟨_, _, .completed hG⟩
  | false =>
    cases hG' : (F.assign l).isFalse with
    | true => exact ⟨_, _, .contradicted hG hG'⟩
    | false =>
      obtain ⟨_, _, hsearch⟩ := h n
      exact ⟨_, _, .descended hG hG' hsearch⟩

variable (stops mode) in
/-- The recursion is that of `run`, on the number of variables. -/
theorem exists_trail (F : Formula) (path : List Literal) (n : Nat) :
    ∃ signal es, Trail stops mode path F .search n signal es := by
  cases hn : stops n with
  | true => exact ⟨_, _, .stopped hn⟩
  | false =>
    have hmoves : ∀ m ∈ moves F, ∀ n, ∃ signal es,
        Trail stops mode path F (.assign m.literal) n signal es := by
      intro m hm
      apply exists_trail_assign
      exact exists_trail (F.assign m.literal) (path ++ [m.literal])
    obtain ⟨_, _, hrow⟩ := exists_trail_row hmoves (n + 1)
    exact ⟨_, _, .entered hn hrow⟩
termination_by F.vars.length
decreasing_by exact Formula.vars_assign_lt (var_mem_of_mem_moves hm)

section
variable {σ : Type} (observe : Event → σ → σ)

theorem attempt_cons {α : Type} (forced : α → Bool) (visit : α → Progress σ → Signal × Progress σ)
    (m : α) (ms : List α) (s : Progress σ) :
    attempt forced visit (m :: ms) s =
      match (visit m s).1.ends (forced m) with
      | some signal => (signal, (visit m s).2)
      | none => attempt forced visit ms (visit m s).2 := by
  rw [attempt]
  rcases visit m s with ⟨signal, t⟩
  cases signal with
  | closed => cases forced m <;> rfl
  | explored => rfl
  | satisfied => rfl
  | aborted => rfl

/-- A task as it is carried out. -/
def perform (stops : Interrupts) (mode : Mode) (path : List Literal) (F : Formula) :
    Task → Progress σ → Signal × Progress σ
  | .search => run observe stops mode path F
  | .row ms => attempt Move.forced
      (fun m => step observe mode path F m.literal
        (run observe stops mode (path ++ [m.literal]) (F.assign m.literal))) ms
  | .assign l => step observe mode path F l
      (run observe stops mode (path ++ [l]) (F.assign l))

namespace Trail

variable {path : List Literal} {F : Formula} {task : Task} {n : Nat} {signal : Signal}
  {es : List Event}

theorem perform_eq (h : Trail stops mode path F task n signal es) {s : Progress σ}
    (hs : s.polls = n) :
    perform observe stops mode path F task s = (signal, s.advance observe es) := by
  induction h generalizing s with
  | stopped h =>
    rw [perform, run_eq, if_pos (hs ▸ h)]
    rfl
  | entered h _ ih =>
    rw [perform, run_eq, if_neg (by simp [hs, h]), Progress.advance_cons]
    exact ih (congrArg (· + 1) hs)
  | exhausted => rfl
  | ended _ h ih =>
    have hm := ih hs
    simp only [perform] at hm ⊢
    rw [attempt_cons, hm, h]
  | continued _ h _ ih ih' =>
    have hm := ih hs
    simp only [perform] at hm ⊢
    rw [attempt_cons, hm, h, Progress.advance_append]
    exact ih' (by rw [Progress.advance, hs])
  | completed h =>
    simp only [perform, step, h, if_true]
    cases mode <;> rfl
  | contradicted h h' =>
    simp only [perform, step, h, h', Bool.false_eq_true, if_false, if_true]
    rfl
  | descended h h' _ ih =>
    simp only [perform, step, h, h', Bool.false_eq_true, if_false]
    rw [Progress.advance_cons]
    exact ih hs

theorem not_aborted (h : Trail .never mode path F task n signal es) : signal ≠ .aborted := by
  induction h with
  | stopped h => cases h
  | entered _ _ ih => exact ih
  | exhausted => simp
  | @ended _ _ _ m _ signal _ _ _ h ih =>
    cases signal with
    | aborted => exact absurd rfl ih
    | closed =>
      cases hforced : m.forced with
      | true =>
        rw [hforced] at h
        cases h
        simp
      | false => simp [Signal.ends, hforced] at h
    | explored => cases h
    | satisfied =>
      cases h
      simp
  | continued _ _ _ _ ih => exact ih
  | completed => cases mode <;> simp [Mode.success]
  | contradicted => simp
  | descended _ _ _ ih => exact ih

/-- Each step to an open formula has its search, which begins with a poll. -/
theorem pollCount_eq (h : Trail stops mode path F task n signal es) :
    pollCount es = openCount es + task.ownPolls := by
  induction h with
  | stopped => rfl
  | entered _ _ ih => simpa [Event.isPoll, Event.opens, Task.ownPolls] using ih
  | exhausted => rfl
  | ended _ _ ih => exact ih
  | continued _ _ _ ih ih' =>
    rw [pollCount_append, openCount_append, ih, ih']
    rfl
  | completed h => simp [Event.isPoll, Event.opens, Task.ownPolls, h]
  | contradicted h h' => simp [Event.isPoll, Event.opens, Task.ownPolls, h, h']
  | descended h h' _ ih => simpa [Event.isPoll, Event.opens, Task.ownPolls, h, h'] using ih

end Trail

/-- What follows the trail of a search that ends with the signal. -/
def Signal.closing : Signal → List Event → List Event
  | .aborted, _ => []
  | _, es => [.finished (recorded es).length]

def Signal.outcome : Signal → List Event → Outcome (List Allocation)
  | .aborted, _ => .aborted
  | _, es => .finished (recorded es)

section
variable {F : Formula}

theorem solve_eq_of_trail {signal : Signal} {es : List Event} (hF : F.isTrue = false)
    (hF' : F.isFalse = false) (h : Trail stops mode [] F .search 0 signal es) (init : σ) :
    solve observe stops mode F init =
      ⟨signal.outcome es, pollCount es, observeAll observe (es ++ signal.closing es) init⟩ := by
  have hrun : run observe stops mode [] F ⟨0, [], init⟩ =
      (signal, Progress.advance observe ⟨0, [], init⟩ es) := h.perform_eq observe rfl
  simp only [solve, hF, hF', Bool.false_eq_true, if_false, hrun]
  cases signal <;>
    simp [Signal.outcome, Signal.closing, Progress.advance, observeAll, recorded, ListSet.ofList]

/-- A trivial formula is not searched, so neither interrupts nor mode matter. -/
theorem exists_solve_of_trivial (h : (F.isTrue || F.isFalse) = true) :
    ∃ as, as.length ≤ 1 ∧ ∀ stops mode init, solve observe stops mode F init =
      ⟨.finished as, 0, observe (.finished as.length) init⟩ := by
  cases hF : F.isTrue with
  | true =>
    refine ⟨[⟨[]⟩], Nat.le_refl 1, fun _ _ _ => ?_⟩
    simp [solve, hF, Progress.record, ListSet.insert, ListSet.contains]
  | false =>
    rw [hF, Bool.false_or] at h
    exact ⟨[], Nat.zero_le 1, fun _ _ _ => by simp [solve, hF, h]⟩

end
end

theorem observeAll_keep (es fs : List Event) : observeAll keep es fs = fs ++ es := by
  induction es generalizing fs with
  | nil => simp [observeAll]
  | cons e es ih => simpa [observeAll, keep] using ih (fs ++ [e])

def history (stops : Interrupts) (mode : Mode) (F : Formula) : List Event :=
  (solve keep stops mode F []).seen

def traceLines (stops : Interrupts) (mode : Mode) (F : Formula) : List String :=
  (history stops mode F).flatMap Event.lines

theorem history_eq_of_trail {F : Formula} {signal : Signal} {es : List Event}
    (hF : F.isTrue = false) (hF' : F.isFalse = false)
    (h : Trail stops mode [] F .search 0 signal es) :
    history stops mode F = es ++ signal.closing es := by
  rw [history, solve_eq_of_trail keep hF hF' h, observeAll_keep, List.nil_append]

/-- Either there was nothing to search, and only the end is told of, or the search has a trail. -/
theorem exists_history_eq (stops : Interrupts) (mode : Mode) (F : Formula) :
    (∃ count, history stops mode F = [.finished count]) ∨
      ∃ signal es, Trail stops mode [] F .search 0 signal es ∧
        history stops mode F = es ++ signal.closing es := by
  cases h : F.isTrue || F.isFalse with
  | true =>
    obtain ⟨as, _, hkeep⟩ := exists_solve_of_trivial keep h
    exact .inl ⟨as.length, by rw [history, hkeep, keep, List.nil_append]⟩
  | false =>
    rw [Bool.or_eq_false_iff] at h
    obtain ⟨signal, es, htrail⟩ := exists_trail stops mode F [] 0
    exact .inr ⟨signal, es, htrail, history_eq_of_trail h.1 h.2 htrail⟩

theorem Signal.eq_finished_of_mem_closing (signal : Signal) {es : List Event} {e : Event}
    (he : e ∈ signal.closing es) : e = .finished (recorded es).length := by
  cases signal with
  | aborted => simp [closing] at he
  | closed => simpa [closing] using he
  | satisfied => simpa [closing] using he
  | explored => simpa [closing] using he

theorem Signal.flatMap_lines_closing (signal : Signal) (es : List Event) :
    (signal.closing es).flatMap Event.lines = [] := by
  cases signal <;> rfl

theorem Signal.pollCount_closing (signal : Signal) (es : List Event) :
    pollCount (signal.closing es) = 0 := by
  cases signal <;> rfl

theorem Signal.openCount_closing (signal : Signal) (es : List Event) :
    openCount (signal.closing es) = 0 := by
  cases signal <;> rfl

theorem traceLines_eq_of_trail {F : Formula} {signal : Signal} {es : List Event}
    (hF : F.isTrue = false) (hF' : F.isFalse = false)
    (h : Trail stops mode [] F .search 0 signal es) :
    traceLines stops mode F = es.flatMap Event.lines := by
  rw [traceLines, history_eq_of_trail hF hF' h, List.flatMap_append,
    signal.flatMap_lines_closing, List.append_nil]

/-- Whoever observes the search, its polls are the ones that its events show. -/
theorem polls_solve {σ : Type} (observe : Event → σ → σ) (F : Formula) (init : σ) :
    (solve observe stops mode F init).polls = pollCount (history stops mode F) := by
  cases h : F.isTrue || F.isFalse with
  | true =>
    obtain ⟨_, _, hsolve⟩ := exists_solve_of_trivial observe h
    obtain ⟨_, _, hkeep⟩ := exists_solve_of_trivial keep h
    rw [history, hsolve, hkeep]
    rfl
  | false =>
    rw [Bool.or_eq_false_iff] at h
    obtain ⟨signal, es, htrail⟩ := exists_trail stops mode F [] 0
    rw [solve_eq_of_trail observe h.1 h.2 htrail, history_eq_of_trail h.1 h.2 htrail,
      pollCount_append, signal.pollCount_closing, Nat.add_zero]

/-- Nothing but what the observer has seen depends on the observer, and that can be told from the
events. -/
theorem solve_eq_keep {σ : Type} (observe : Event → σ → σ) (F : Formula) (init : σ) :
    solve observe stops mode F init =
      ⟨(solve keep stops mode F []).outcome, (solve keep stops mode F []).polls,
        observeAll observe (history stops mode F) init⟩ := by
  unfold history
  cases hF : F.isTrue with
  | true => simp [solve, hF, keep, observeAll, Progress.record]
  | false =>
    cases hF' : F.isFalse with
    | true => simp [solve, hF, hF', keep, observeAll]
    | false =>
      obtain ⟨signal, es, htrail⟩ := exists_trail stops mode F [] 0
      rw [solve_eq_of_trail observe hF hF' htrail, solve_eq_of_trail keep hF hF' htrail,
        observeAll_keep, List.nil_append]

/-- A search polls once when it begins, and once for each step to an open formula. -/
theorem pollCount_history (F : Formula) :
    pollCount (history stops mode F) =
      if F.isTrue || F.isFalse then 0 else 1 + openCount (history stops mode F) := by
  split
  · next h =>
    obtain ⟨_, _, hkeep⟩ := exists_solve_of_trivial keep h
    rw [history, hkeep]
    rfl
  · next h =>
    rw [Bool.not_eq_true, Bool.or_eq_false_iff] at h
    obtain ⟨signal, es, htrail⟩ := exists_trail stops mode F [] 0
    rw [history_eq_of_trail h.1 h.2 htrail, pollCount_append, openCount_append,
      signal.pollCount_closing, signal.openCount_closing, Nat.add_zero, Nat.add_zero, Nat.add_comm]
    exact htrail.pollCount_eq

end

section
variable (traced : Bool) (stops : Interrupts) (mode : Mode) (F : Formula)

/-- A search, and what is heard of it if it is traced or not. -/
def heard : Result (List Notice) := solve (Notice.hear (Event.notices traced)) stops mode F []

theorem seen_heard : (heard traced stops mode F).seen =
    (history stops mode F).flatMap (Event.notices traced) := by
  rw [heard, solve_eq_keep, List.flatMap_eq_foldl]
  rfl

theorem records_heard : Notice.records (heard traced stops mode F).seen =
    (history stops mode F).filterMap Event.record? := by
  rw [seen_heard]
  exact Notice.records_flatMap_tell traced Event.record? Event.lines _

theorem lines_heard : Notice.lines (heard traced stops mode F).seen =
    if traced then traceLines stops mode F else [] := by
  rw [seen_heard]
  exact Notice.lines_flatMap_tell traced Event.record? Event.lines _

/-- The lines that are heard of the search if it is traced. -/
def heardLines : List String := Notice.lines (heard true stops mode F).seen

theorem heardLines_eq : heardLines stops mode F = traceLines stops mode F :=
  (lines_heard true stops mode F).trans (if_pos rfl)

theorem solve_eq_heard {σ : Type} (observe : Event → σ → σ) (init : σ) :
    (solve observe stops mode F init).outcome = (heard traced stops mode F).outcome ∧
      (solve observe stops mode F init).polls = (heard traced stops mode F).polls := by
  rw [heard, solve_eq_keep observe, solve_eq_keep (Notice.hear (Event.notices traced))]
  exact ⟨rfl, rfl⟩

end
end Clausal.Search
