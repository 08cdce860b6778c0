import Clausal.Proofs.Search.Trail

/-!
# Stopped searches

A search looks at its interrupts when it polls and nowhere else. Before the first poll that stops
it, it does what a search does that is never stopped, and then nothing more: its events are a
beginning of the other one's. In that one every poll lets the search enter a formula, so the event
of entering shows where it was.

The main statement: the answers to the polls of the search that is never stopped decide whether
any other interrupts leave it as it is, or at which of its polls they end it.
-/

set_option autoImplicit false

namespace Clausal.Search

section
variable {stops : Interrupts} {mode : Mode}

theorem going_or_exists_stop (stops : Interrupts) (n : Nat) :
    (∀ i < n, stops i = false) ∨ ∃ i < n, stops i = true ∧ ∀ j < i, stops j = false := by
  induction n with
  | zero => exact .inl fun i hi => absurd hi (Nat.not_lt_zero i)
  | succ n ih =>
    rcases ih with hgo | ⟨i, hi, hstop, hgo⟩
    · cases hn : stops n with
      | true => exact .inr ⟨n, Nat.lt_succ_self n, hn, hgo⟩
      | false =>
        refine .inl fun i hi => ?_
        rcases Nat.lt_succ_iff_lt_or_eq.mp hi with hlt | rfl
        · exact hgo i hlt
        · exact hn
    · exact .inr ⟨i, Nat.lt_succ_of_lt hi, hstop, hgo⟩

namespace Trail

variable {path : List Literal} {F : Formula} {task : Task} {n : Nat} {signal : Signal}
  {es : List Event}

/-- Of its interrupts a task looks at the answers to its own polls only. -/
theorem of_agree {stops' : Interrupts} (h : Trail stops mode path F task n signal es)
    (hagree : ∀ i < pollCount es, stops' (n + i) = stops (n + i)) :
    Trail stops' mode path F task n signal es := by
  induction h with
  | @stopped _ _ n h => exact .stopped ((hagree 0 (by simp [Event.isPoll])).trans h)
  | entered h _ ih =>
    refine .entered ((hagree 0 (by simp [Event.isPoll])).trans h) (ih fun i hi => ?_)
    rw [Nat.add_right_comm]
    exact hagree (i + 1) (by simpa [Event.isPoll] using hi)
  | exhausted => exact .exhausted
  | ended _ h ih => exact .ended (ih hagree) h
  | @continued _ _ _ _ _ _ _ es fs _ h _ ih ih' =>
    rw [pollCount_append] at hagree
    refine .continued (ih fun i hi => hagree i (by omega)) h (ih' fun i hi => ?_)
    rw [Nat.add_assoc]
    exact hagree (pollCount es + i) (by omega)
  | completed h => exact .completed h
  | contradicted h h' => exact .contradicted h h'
  | descended h h' _ ih =>
    exact .descended h h' (ih fun i hi => hagree i (by simpa [Event.isPoll] using hi))

theorem of_going (h : Trail .never mode path F task n signal es)
    (hgo : ∀ i < pollCount es, stops (n + i) = false) :
    Trail stops mode path F task n signal es := h.of_agree hgo

/-- The first poll that stops the search splits the events of the one that is never stopped. -/
theorem exists_stopped (h : Trail .never mode path F task n signal es) {i : Nat}
    (hi : i < pollCount es) (hstop : stops (n + i) = true)
    (hgo : ∀ j < i, stops (n + j) = false) :
    ∃ before path' G after, es = before ++ .entered path' G :: after ∧ pollCount before = i ∧
      Trail stops mode path F task n .aborted (before ++ [.aborted path'.length]) := by
  induction h generalizing i with
  | stopped h => cases h
  | @entered path F n _ es _ _ ih =>
    cases i with
    | zero => exact ⟨[], path, F, es, rfl, rfl, .stopped hstop⟩
    | succ i =>
      have hi' : i < pollCount es := by simpa [Event.isPoll] using hi
      obtain ⟨before, path', G, after, rfl, rfl, hbefore⟩ := ih hi'
        (by rwa [Nat.add_right_comm]) fun j hj => by
          rw [Nat.add_right_comm]
          exact hgo (j + 1) (Nat.succ_lt_succ hj)
      refine ⟨.entered path F :: before, path', G, after, rfl, by simp [Event.isPoll], ?_⟩
      exact .entered (hgo 0 (Nat.succ_pos _)) hbefore
  | exhausted => simp at hi
  | ended _ _ ih =>
    obtain ⟨before, path', G, after, rfl, hcount, hbefore⟩ := ih hi hstop hgo
    exact ⟨before, path', G, after, rfl, hcount, .ended hbefore rfl⟩
  | @continued _ _ n _ _ _ _ es fs hm h _ ih ih' =>
    rcases Nat.lt_or_ge i (pollCount es) with hlt | hge
    · obtain ⟨before, path', G, after, rfl, hcount, hbefore⟩ := ih hlt hstop hgo
      exact ⟨before, path', G, after ++ fs, by simp, hcount, .ended hbefore rfl⟩
    · -- the first move of the row is not stopped, so the poll belongs to a later one
      obtain ⟨k, rfl⟩ := Nat.exists_eq_add_of_le hge
      have hpassed := hm.of_going fun j hj => hgo j (by omega)
      obtain ⟨before, path', G, after, rfl, rfl, hbefore⟩ := ih' (i := k)
        (by simpa using hi) (by rwa [Nat.add_assoc]) fun j hj => by
          rw [Nat.add_assoc]
          exact hgo _ (Nat.add_lt_add_left hj _)
      refine ⟨es ++ before, path', G, after, by simp, by simp, ?_⟩
      rw [List.append_assoc]
      exact .continued hpassed h hbefore
  | completed => simp [Event.isPoll] at hi
  | contradicted => simp [Event.isPoll] at hi
  | descended h h' _ ih =>
    obtain ⟨before, path', G, after, rfl, rfl, hbefore⟩ :=
      ih (by simpa [Event.isPoll] using hi) hstop hgo
    exact ⟨_ :: before, path', G, after, rfl, by simp [Event.isPoll], .descended h h' hbefore⟩

end Trail

section
variable {σ : Type} {observe : Event → σ → σ} {F : Formula} {init : σ}

theorem solve_eq_of_agree {stops' : Interrupts}
    (hagree : ∀ i < (solve observe stops mode F init).polls, stops' i = stops i) :
    solve observe stops' mode F init = solve observe stops mode F init := by
  cases h : F.isTrue || F.isFalse with
  | true =>
    obtain ⟨_, _, hsolve⟩ := exists_solve_of_trivial observe h
    rw [hsolve, hsolve]
  | false =>
    rw [Bool.or_eq_false_iff] at h
    obtain ⟨signal, es, htrail⟩ := exists_trail stops mode F [] 0
    rw [solve_eq_of_trail observe h.1 h.2 htrail] at hagree ⊢
    exact solve_eq_of_trail observe h.1 h.2 (htrail.of_agree (by simpa using hagree)) init

theorem solve_eq_of_going
    (hgo : ∀ i < (solve observe .never mode F init).polls, stops i = false) :
    solve observe stops mode F init = solve observe .never mode F init :=
  solve_eq_of_agree hgo

theorem exists_solve_stopped {i : Nat} (hi : i < (solve observe .never mode F init).polls)
    (hstop : stops i = true) (hgo : ∀ j < i, stops j = false) :
    (solve observe stops mode F init).outcome = .aborted ∧
      (solve observe stops mode F init).polls = i + 1 ∧
      ∃ before path G after, history .never mode F = before ++ .entered path G :: after ∧
        pollCount before = i ∧ traceLines stops mode F = before.flatMap Event.lines := by
  cases h : F.isTrue || F.isFalse with
  | true =>
    obtain ⟨_, _, hsolve⟩ := exists_solve_of_trivial observe h
    rw [hsolve] at hi
    cases hi
  | false =>
    rw [Bool.or_eq_false_iff] at h
    obtain ⟨signal, es, htrail⟩ := exists_trail .never mode F [] 0
    rw [solve_eq_of_trail observe h.1 h.2 htrail] at hi
    have hstop' : stops (0 + i) = true := by rwa [Nat.zero_add]
    obtain ⟨before, path, G, after, rfl, rfl, hbefore⟩ :=
      htrail.exists_stopped hi hstop' (by simpa using hgo)
    rw [solve_eq_of_trail observe h.1 h.2 hbefore, traceLines_eq_of_trail h.1 h.2 hbefore,
      history_eq_of_trail h.1 h.2 htrail]
    refine ⟨rfl, by simp [Event.isPoll], before, path, G, _, List.append_assoc _ _ _, rfl, ?_⟩
    simp [Event.lines]

end

/-- The answers to the polls of the search that is never stopped decide how the search ends: none
of them stops it, or it is aborted at the first that does, with the lines before that poll. -/
theorem solve_stopped {σ : Type} (observe : Event → σ → σ) (stops : Interrupts) (mode : Mode)
    (F : Formula) (init : σ) :
    (solve observe .never mode F init).polls = pollCount (history .never mode F) ∧
    (pollCount (history .never mode F) =
      if F.isTrue || F.isFalse then 0 else 1 + openCount (history .never mode F)) ∧
    ((∀ i < (solve observe .never mode F init).polls, stops i = false) →
      solve observe stops mode F init = solve observe .never mode F init ∧
        traceLines stops mode F = traceLines .never mode F) ∧
    ∀ i < (solve observe .never mode F init).polls, stops i = true →
      (∀ j < i, stops j = false) →
      (solve observe stops mode F init).outcome = .aborted ∧
        (solve observe stops mode F init).polls = i + 1 ∧
        ∃ before path G after, history .never mode F = before ++ .entered path G :: after ∧
          pollCount before = i ∧ traceLines stops mode F = before.flatMap Event.lines := by
  refine ⟨polls_solve observe F init, pollCount_history F, ?_, ?_⟩
  · intro hgo
    refine ⟨solve_eq_of_going hgo, ?_⟩
    rw [polls_solve, ← polls_solve keep F []] at hgo
    rw [traceLines, traceLines, history, history, solve_eq_of_going hgo]
  · intro i hi hstop hgo
    exact exists_solve_stopped hi hstop hgo

end
end Clausal.Search
