import Clausal.Proofs.Resolution.Growth

/-!
# Interrupted resolution

The next inference depends on the clauses of the formula alone. So there is one sequence of
clauses that resolution inserts into a formula, every run inserts a beginning of it, and a run
that is stopped can be taken up again by a call on the formula that it left: `resume` makes such
calls until one of them finishes. All of them together insert what one run inserts that is never
stopped, and settle on the same verdict.

This module does NOT say that the proofs are the same. A call that takes up another sees all of
its clauses as given, so its refutation starts from them.
-/

set_option autoImplicit false

namespace Clausal.Resolution

namespace Inserts

variable {F G H : Formula} {cs ds : List Clause}

theorem trans (h : Inserts F cs G) (h' : Inserts G ds H) : Inserts F (cs ++ ds) H := by
  induction h' with
  | nil => simpa using h
  | snoc _ hnext hr ih =>
    rw [← List.append_assoc]
    exact .snoc ih hnext hr

theorem unique (h : Inserts F cs G) (h' : Inserts F ds H) (hlen : cs.length = ds.length) :
    cs = ds ∧ G = H := by
  induction h generalizing ds H with
  | nil =>
    cases h' with
    | nil => exact ⟨rfl, rfl⟩
    | snoc => simp at hlen
  | snoc _ hnext _ ih =>
    cases h' with
    | nil => simp at hlen
    | snoc h' hnext' _ =>
      obtain ⟨rfl, rfl⟩ := ih h' (by simpa using hlen)
      rw [hnext] at hnext'
      cases hnext'
      exact ⟨rfl, rfl⟩

/-- What a shorter run inserts is a beginning of what a longer one inserts. -/
theorem exists_append_of_le (h : Inserts F cs G) (h' : Inserts F ds H)
    (hle : cs.length ≤ ds.length) : ∃ es, ds = cs ++ es ∧ Inserts G es H := by
  induction h' with
  | nil =>
    have hnil : cs.length = ([] : List Clause).length := Nat.le_zero.mp hle
    obtain ⟨rfl, rfl⟩ := h.unique .nil hnil
    exact ⟨[], rfl, .nil⟩
  | @snoc ds H r h' hnext hr ih =>
    rcases Nat.lt_or_ge ds.length cs.length with hlt | hge
    · have hlen : cs.length = (ds ++ [r.step.resolvent]).length :=
        Nat.le_antisymm hle (by simpa using Nat.succ_le_of_lt hlt)
      obtain ⟨rfl, rfl⟩ := h.unique (.snoc h' hnext hr) hlen
      exact ⟨[], by simp, .nil⟩
    · obtain ⟨es, rfl, hes⟩ := ih hge
      exact ⟨es ++ [r.step.resolvent], by simp, .snoc hes hnext hr⟩

theorem eq_of_settled {refuted : Bool} (h : Inserts F cs G) (hF : Settled F refuted) :
    cs = [] ∧ G = F := by
  induction h with
  | nil => exact ⟨rfl, rfl⟩
  | snoc _ hnext hr ih =>
    obtain ⟨rfl, rfl⟩ := ih
    cases hF with
    | saturated hnone => simp [hnone] at hnext
    | refuted hnext' hr' =>
      rw [hnext] at hnext'
      cases hnext'
      simp [hr] at hr'

/-- Every run is on the way to the settled formula. -/
theorem exists_append_of_settled {refuted : Bool} (h : Inserts F cs G) (h' : Inserts F ds H)
    (hH : Settled H refuted) : ∃ es, ds = cs ++ es ∧ Inserts G es H := by
  rcases Nat.le_total cs.length ds.length with hle | hle
  · exact h.exists_append_of_le h' hle
  · obtain ⟨es, rfl, hes⟩ := h'.exists_append_of_le h hle
    obtain ⟨rfl, rfl⟩ := hes.eq_of_settled hH
    exact ⟨[], by simp, .nil⟩

end Inserts

theorem Settled.unique {F : Formula} {b c : Bool} (h : Settled F b) (h' : Settled F c) : b = c := by
  cases h with
  | saturated hnone =>
    cases h' with
    | saturated => rfl
    | refuted hnext => simp [hnone] at hnext
  | refuted hnext =>
    cases h' with
    | saturated hnone => simp [hnone] at hnext
    | refuted => rfl

/-- There is one settled formula that resolution arrives at. -/
theorem Inserts.settled_unique {F G H : Formula} {cs ds : List Clause} {b c : Bool}
    (h : Inserts F cs G) (hG : Settled G b) (h' : Inserts F ds H) (hH : Settled H c) :
    cs = ds ∧ G = H ∧ b = c := by
  obtain ⟨es, rfl, hes⟩ := h.exists_append_of_settled h' hH
  obtain ⟨rfl, rfl⟩ := hes.eq_of_settled hG
  exact ⟨by simp, rfl, hG.unique hH⟩

theorem Settles.unique {σ τ : Type} {F : Formula} {cs ds : List Clause} {v w : Verdict}
    {r : Result σ} {t : Result τ} (h : Settles F cs v r) (h' : Settles F ds w t) :
    cs = ds ∧ r.formula = t.formula ∧ v.isRefuted = w.isRefuted :=
  h.inserts.settled_unique h.settled h'.inserts h'.settled

/-- A budget that runs out has been used up. -/
theorem Course.length_eq_of_aborted {σ : Type} {F : Formula} {cs : List Clause} {r : Result σ}
    {k : Nat} (h : Course (.after k) F cs r)
    (hr : r.outcome = .aborted) : cs.length = k := by
  rcases h.aborted_or_settled with ⟨_, hstop⟩ | ⟨_, hfinished, _⟩
  · have hle : k ≤ cs.length := by simpa [Interrupts.after] using hstop
    apply Nat.le_antisymm _ hle
    apply Nat.le_of_not_lt
    intro hlt
    have hgo := h.going k hlt
    simp [Interrupts.after] at hgo
  · simp [hfinished] at hr

section
variable {σ : Type} (observe : Event → σ → σ)

/-- One call after the other on the same formula, each with its interrupts, until a call finishes;
if none does, a last one that is never stopped. -/
def resume : List Interrupts → Formula → σ → Result σ
  | [], F, seen => refute observe .never F seen
  | stops :: rest, F, seen =>
    let r := refute observe stops F seen
    match r.outcome with
    | .finished _ => r
    | .aborted => resume rest r.formula r.seen

theorem resume_of_isFalse {F : Formula} (hF : F.isFalse = true) (calls : List Interrupts)
    (seen : σ) : resume observe calls F seen = refute observe .never F seen := by
  cases calls with
  | nil => rfl
  | cons stops rest => simp [resume, refute_of_isFalse observe _ hF]

/-- The induction is on the calls; a call that is aborted leaves a formula between the first one
and the settled one. -/
theorem exists_settles_resume (calls : List Interrupts) {F : Formula} (hF : F.isFalse = false)
    (seen : σ) : ∃ cs verdict, Settles F cs verdict (resume observe calls F seen) := by
  induction calls generalizing F seen with
  | nil => exact exists_settles_never observe seen hF
  | cons stops rest ih =>
    obtain ⟨cs, h⟩ := exists_course observe stops seen hF
    rw [resume]
    split
    · next verdict hfinished => exact ⟨cs, verdict, h.settles hfinished⟩
    · obtain ⟨ds, verdict, hrest⟩ :=
        ih (h.inserts.isFalse_eq.trans hF) (refute observe stops F seen).seen
      exact ⟨cs ++ ds, verdict, h.inserts.trans hrest.inserts, hrest.outcome_eq, hrest.settled⟩

end

section
variable (stops : Interrupts)

def traceLines (F : Formula) : List String := (refute keep stops F []).seen.flatMap Event.lines

theorem lines_prefix_saturate (D : Derivation) (polls : Nat) (events : List Event) :
    events.flatMap Event.lines <+:
      (saturate keep stops D polls events).seen.flatMap Event.lines := by
  fun_induction saturate keep stops D polls events with
  | case1 => simp [keep]
  | case2 D polls events size hgo seen hnext => simp [keep, seen]
  | case3 D polls events size hgo seen r hnext seen' hr => simp [keep, seen, seen']
  | case4 D polls events hgo seen r hnext seen' hr ih =>
    refine List.IsPrefix.trans ?_ ih
    simp [keep, seen, seen']

theorem saturate_lines_prefix_never (D : Derivation) (polls : Nat) (events : List Event) :
    (saturate keep stops D polls events).seen.flatMap Event.lines <+:
      (saturate keep .never D polls events).seen.flatMap Event.lines := by
  have hnever : ∀ i, ¬ Interrupts.never i = true := by simp [Interrupts.never]
  fun_induction saturate keep stops D polls events with
  | case1 D polls events size hstop =>
    have h := lines_prefix_saturate .never D polls events
    simpa [keep, Event.lines] using h
  | case2 D polls events size hgo seen hnext =>
    simpa only [saturate_of_none keep (hnever polls) hnext] using List.prefix_rfl
  | case3 D polls events size hgo seen r hnext seen' hr =>
    simpa only [saturate_of_isEmpty keep (hnever polls) hnext hr] using List.prefix_rfl
  | case4 D polls events hgo seen r hnext seen' hr ih =>
    rw [saturate_of_next keep (hnever polls) hnext hr]
    exact ih

theorem traceLines_prefix_never (F : Formula) : traceLines stops F <+: traceLines .never F := by
  unfold traceLines refute
  split
  · exact List.prefix_rfl
  · exact saturate_lines_prefix_never stops (.start F) 0 []

end

section
variable {σ : Type} (observe : Event → σ → σ) (F : Formula) (init : σ)

theorem exists_verdict_resume (calls : List Interrupts) :
    ∃ v w, (resume observe calls F init).outcome = .finished v ∧
      (refute observe .never F init).outcome = .finished w ∧ v.isRefuted = w.isRefuted ∧
      (resume observe calls F init).formula = (refute observe .never F init).formula := by
  cases hF : F.isFalse with
  | true =>
    rw [resume_of_isFalse observe hF, refute_of_isFalse observe .never hF]
    exact ⟨_, _, rfl, rfl, rfl, rfl⟩
  | false =>
    obtain ⟨cs, v, h⟩ := exists_settles_resume observe calls hF init
    obtain ⟨ds, w, h'⟩ := exists_settles_never observe init hF
    obtain ⟨_, hformula, hverdict⟩ := h.unique h'
    exact ⟨v, w, h.outcome_eq, h'.outcome_eq, hverdict, hformula⟩

variable {F}

theorem aborted_of_after {k : Nat} (h : (refute observe (.after k) F init).outcome = .aborted) :
    (refute observe (.after k) F init).polls = k + 1 ∧
      ∃ added, (refute observe .never F init).formula.clauses = F.clauses ++ added ∧
        k ≤ added.length ∧
        (refute observe (.after k) F init).formula.clauses = F.clauses ++ added.take k := by
  have hF : F.isFalse = false := by
    rw [← Bool.not_eq_true]
    intro hF
    simp [refute_of_isFalse observe _ hF] at h
  obtain ⟨cs, hcourse⟩ := exists_course observe (.after k) init hF
  obtain ⟨ds, _, hsettles⟩ := exists_settles_never observe init hF
  have hlen := hcourse.length_eq_of_aborted h
  obtain ⟨es, rfl, _⟩ := hcourse.inserts.exists_append_of_settled hsettles.inserts hsettles.settled
  refine ⟨by rw [hcourse.polls_eq, hlen], cs ++ es, hsettles.inserts.clauses_eq, by simp [hlen], ?_⟩
  rw [hcourse.inserts.clauses_eq, ← hlen, List.take_left]

theorem refute_of_settled {refuted : Bool} (hF : F.isFalse = false) (h : Settled F refuted) :
    ∃ verdict, (refute observe .never F init).outcome = .finished verdict ∧
      verdict.isRefuted = refuted ∧ (refute observe .never F init).polls = 1 ∧
      (refute observe .never F init).formula = F := by
  obtain ⟨cs, hcourse⟩ := exists_course observe .never init hF
  obtain ⟨verdict, hsettles⟩ := hcourse.exists_settles
  obtain ⟨rfl, hformula⟩ := hcourse.inserts.eq_of_settled h
  have hsettled := hsettles.settled
  rw [hformula] at hsettled
  exact ⟨verdict, hsettles.outcome_eq, hsettled.unique h, hcourse.polls_eq, hformula⟩

theorem refute_of_finished {stops : Interrupts} {v : Verdict}
    (h : (refute observe stops F init).outcome = .finished v) {G : Formula}
    (hG : (refute observe stops F init).formula = G) :
    ∃ w, (refute observe .never G init).outcome = .finished w ∧ w.isRefuted = v.isRefuted ∧
      (refute observe .never G init).polls ≤ 1 ∧ (refute observe .never G init).formula = G := by
  cases hF : F.isFalse with
  | true =>
    rw [refute_of_isFalse observe stops hF] at h hG
    cases h
    subst hG
    rw [refute_of_isFalse observe .never hF]
    exact ⟨_, rfl, rfl, Nat.zero_le 1, rfl⟩
  | false =>
    obtain ⟨cs, hcourse⟩ := exists_course observe stops init hF
    have hsettles := hcourse.settles h
    subst hG
    obtain ⟨w, hout, hverdict, hpolls, hformula⟩ := refute_of_settled observe init
      (hcourse.inserts.isFalse_eq.trans hF) hsettles.settled
    exact ⟨w, hout, hverdict, Nat.le_of_eq hpolls, hformula⟩

end

/-- Interruptions do no harm. Calls with whatever budgets that take up one another arrive where one
call arrives; an aborted call has used up its budget and left a beginning of what is to come; and
a finished call leaves nothing to do. -/
theorem refute_interrupted {σ : Type} (observe : Event → σ → σ) (F : Formula) (init : σ) :
    (∀ budgets : List Nat, ∃ v w,
      (resume observe (budgets.map Interrupts.after) F init).outcome = .finished v ∧
      (refute observe .never F init).outcome = .finished w ∧ v.isRefuted = w.isRefuted ∧
      (resume observe (budgets.map Interrupts.after) F init).formula =
        (refute observe .never F init).formula) ∧
    (∀ k, (refute observe (.after k) F init).outcome = .aborted →
      (refute observe (.after k) F init).polls = k + 1 ∧
      (∃ added, (refute observe .never F init).formula.clauses = F.clauses ++ added ∧
        k ≤ added.length ∧
        (refute observe (.after k) F init).formula.clauses = F.clauses ++ added.take k) ∧
      traceLines (.after k) F <+: traceLines .never F) ∧
    ∀ stops v G, (refute observe stops F init).outcome = .finished v →
      (refute observe stops F init).formula = G →
      ∃ w, (refute observe .never G init).outcome = .finished w ∧ w.isRefuted = v.isRefuted ∧
        (refute observe .never G init).polls ≤ 1 ∧
        (refute observe .never G init).formula = G := by
  refine ⟨?_, ?_, ?_⟩
  · intro budgets
    exact exists_verdict_resume observe F init (budgets.map Interrupts.after)
  · intro k haborted
    obtain ⟨hpolls, hadded⟩ := aborted_of_after observe init haborted
    exact ⟨hpolls, hadded, traceLines_prefix_never (.after k) F⟩
  · intro stops v G hfinished hG
    exact refute_of_finished observe init hfinished hG

end Clausal.Resolution
