import Clausal.Proofs.Search.FirstSuccess

/-!
# Unit literals whose subformula was explored

A search goes on after a unit literal whose subformula was searched through: with the unit literals
that come after it, and then with both signs of the branch literal. It has nothing to gain from
that. The unit literal is true in every model of the formula, so the models were all accounted for
when its try ended, and what is found from then on stands for models only.

`Entered` says which formulas a search comes to search, with the literals and the progress it has
then, and `Remaining` which moves are left at some point in the search of one of them.

The main statement: behind such a unit literal, a search for one allocation finds none and goes
back, and a search for all finds allocations only for assignments that are covered already.
-/

set_option autoImplicit false

namespace Clausal.Search

/-- The literals of a task are over variables of the formula. -/
def Task.Over (F : Formula) : Task → Prop
  | .search => True
  | .row ms => ∀ m ∈ ms, m.literal.var ∈ F.vars
  | .assign l => l.var ∈ F.vars

/-- What is found, at whatever depth, completes the literals of the path. -/
theorem Trail.exists_completes_of_found {stops : Interrupts} {mode : Mode} {path : List Literal}
    {F : Formula} {task : Task} {n : Nat} {signal : Signal} {es : List Event}
    (h : Trail stops mode path F task n signal es) (hF : F.isTrue = false) (htask : task.Over F)
    {depth : Nat} {a : Allocation} (ha : .found depth a ∈ es) :
    ∃ ls, Completes F ls ∧ a = ⟨path ++ ls⟩ := by
  induction h with
  | stopped => simp at ha
  | entered _ _ ih =>
    apply ih hF
    · intro m hm
      exact var_mem_of_mem_moves hm
    · simpa using ha
  | exhausted => simp at ha
  | ended _ _ ih => exact ih hF (htask _ List.mem_cons_self) ha
  | continued _ _ _ ih ih' =>
    rcases List.mem_append.mp ha with ha | ha
    · exact ih hF (htask _ List.mem_cons_self) ha
    · exact ih' hF (fun m hm => htask m (List.mem_cons_of_mem _ hm)) ha
  | @completed _ _ _ l hG =>
    obtain ⟨_, rfl⟩ : depth = _ ∧ a = _ := by simpa using ha
    exact ⟨[l], .assign hF htask (.done hG), rfl⟩
  | contradicted => simp at ha
  | @descended _ _ _ l _ _ hG _ _ ih =>
    obtain ⟨ls, hls, rfl⟩ := ih hG trivial (by simpa using ha)
    exact ⟨l :: ls, .assign hF htask hls, by simp⟩

/-- A row of moves never says that it is closed, only that it was explored. -/
theorem attempt_ne_closed {σ : Type} (forced : Move → Bool)
    (visit : Move → Progress σ → Signal × Progress σ) (ms : List Move) (s : Progress σ) :
    (attempt forced visit ms s).1 ≠ .closed := by
  induction ms generalizing s with
  | nil => simp [attempt]
  | cons m ms ih =>
    rw [attempt_cons]
    split
    · next signal hends =>
      rintro rfl
      cases hm : (visit m s).1 <;> simp [hm, Signal.ends] at hends
    · exact ih _

section
variable {σ : Type} (observe : Event → σ → σ) (mode : Mode)

/-- A move in the search of a formula. -/
def visit (path : List Literal) (F : Formula) (m : Move) : Progress σ → Signal × Progress σ :=
  step observe mode path F m.literal
    (run observe .never mode (path ++ [m.literal]) (F.assign m.literal))

/-- The search of `F` that began with the progress `s₀` comes to a point where the moves `ms` are
left and the progress is `s`. -/
inductive Remaining (path : List Literal) (F : Formula) (s₀ : Progress σ) :
    List Move → Progress σ → Prop
  | start : Remaining path F s₀ (moves F) (s₀.poll.note observe (.entered path F))
  | next {m : Move} {ms : List Move} {s : Progress σ} (h : Remaining path F s₀ (m :: ms) s)
      (hgo : (visit observe mode path F m s).1.ends m.forced = none) :
      Remaining path F s₀ ms (visit observe mode path F m s).2

/-- The search for allocations of `F` comes to search a formula under the literals of a path. -/
inductive Entered (F : Formula) (init : σ) : List Literal → Formula → Progress σ → Prop
  | top (h : F.isTrue = false) (h' : F.isFalse = false) : Entered F init [] F ⟨0, [], init⟩
  | descend {path : List Literal} {G : Formula} {s₀ s : Progress σ} {m : Move} {ms : List Move}
      (h : Entered F init path G s₀) (hm : Remaining observe mode path G s₀ (m :: ms) s)
      (hG : (G.assign m.literal).isTrue = false) (hG' : (G.assign m.literal).isFalse = false) :
      Entered F init (path ++ [m.literal]) (G.assign m.literal)
        (s.note observe (.step path.length m.literal G (G.assign m.literal)))

variable {observe mode} {path : List Literal} {F G : Formula} {init : σ} {s₀ s : Progress σ}
  {m : Move} {ms : List Move}

variable (observe mode path) in
theorem accounts_visit (hF : F.isTrue = false) (hm : m ∈ moves F) (s : Progress σ) :
    Accounts mode path F (fun v => Models path F v ∧ m.literal.holds v) s.found
      (visit observe mode path F m s).1 (visit observe mode path F m s).2.found := by
  apply accounts_step observe hF (var_mem_of_mem_moves hm)
  intro hG hG'
  exact accounts_run observe (F.assign m.literal) hG hG' (path ++ [m.literal])

theorem models_of_completes {v : Assignment} {ls : List Literal} (hls : Completes F ls)
    (hv : Allocation.holds v ⟨path ++ ls⟩) : Models path F v := by
  constructor
  · exact fun l hl => hv l (List.mem_append_left ls hl)
  · apply Allocation.holds_of_satisfies hls.satisfies
    exact fun l hl => hv l (List.mem_append_right path hl)

namespace Remaining

theorem suffix_moves (h : Remaining observe mode path F s₀ ms s) : ms <:+ moves F := by
  induction h with
  | start => exact List.suffix_rfl
  | next _ _ ih => exact (List.suffix_cons _ _).trans ih

theorem mem_moves (h : Remaining observe mode path F s₀ (m :: ms) s) : m ∈ moves F :=
  h.suffix_moves.subset List.mem_cons_self

/-- The moves that are left decide how the search ends. -/
theorem run_eq (h : Remaining observe mode path F s₀ ms s) :
    run observe .never mode path F s₀ = attempt Move.forced (visit observe mode path F) ms s := by
  induction h with
  | start =>
    rw [Search.run_eq, if_neg (by simp [Interrupts.never])]
    rfl
  | next _ hgo ih => rw [ih, attempt_cons, hgo]

theorem next_of_explored (h : Remaining observe mode path F s₀ (m :: ms) s)
    (hexplored : (visit observe mode path F m s).1 = .explored) :
    Remaining observe mode path F s₀ ms (visit observe mode path F m s).2 := by
  apply h.next
  rw [hexplored]
  rfl

/-- What happens from that point on, and which allocations are found then. -/
theorem exists_later (h : Remaining observe mode path F s₀ ms s) (hF : F.isTrue = false) :
    ∃ later, (run observe .never mode path F s₀).2 = s.advance observe later ∧
      ∀ depth a, .found depth a ∈ later → ∃ ls, Completes F ls ∧ a = ⟨path ++ ls⟩ := by
  have hmoves : ∀ m ∈ ms, ∀ n, ∃ signal es,
      Trail .never mode path F (.assign m.literal) n signal es := by
    intro m _
    apply exists_trail_assign
    exact exists_trail .never mode (F.assign m.literal) (path ++ [m.literal])
  obtain ⟨signal, later, htrail⟩ := exists_trail_row hmoves s.polls
  refine ⟨later, ?_, ?_⟩
  · have hrow := htrail.perform_eq observe (s := s) rfl
    rw [h.run_eq]
    exact congrArg Prod.snd hrow
  · intro depth a ha
    apply htrail.exists_completes_of_found hF _ ha
    intro m hm
    exact var_mem_of_mem_moves (h.suffix_moves.subset hm)

/-- When a unit literal's subformula has been explored, all models of the formula are covered. -/
theorem covered_of_explored (h : Remaining observe mode path F s₀ (m :: ms) s)
    (hF : F.isTrue = false) (hforced : m.forced = true)
    (hexplored : (visit observe mode path F m s).1 = .explored) {v : Assignment}
    (hv : Models path F v) : Covered (visit observe mode path F m s).2.found v := by
  have haccounts := accounts_visit observe mode path hF h.mem_moves s
  rw [hexplored] at haccounts
  generalize (visit observe mode path F m s).2.found = bs at haccounts
  cases haccounts with
  | searched _ _ hcover => exact hcover v ⟨hv, holds_of_forced h.mem_moves hforced hv.2⟩

/-- A search for one allocation goes on only as long as it has found none. -/
theorem found_eq (h : Remaining observe .first path F s₀ ms s) (hF : F.isTrue = false) :
    s.found = s₀.found := by
  induction h with
  | start => rfl
  | @next m ms s h hgo ih =>
    rw [← ih]
    have haccounts := accounts_visit observe .first path hF h.mem_moves s
    generalize visit observe .first path F m s = r at hgo haccounts
    obtain ⟨signal, t⟩ := r
    dsimp only at hgo haccounts ⊢
    generalize t.found = bs at haccounts
    cases haccounts with
    | found => simp [Signal.ends] at hgo
    | searched _ hgrows _ => exact hgrows.eq_of_first

end Remaining

namespace Entered

theorem isOpen (h : Entered observe mode F init path G s) :
    G.isTrue = false ∧ G.isFalse = false := by
  cases h with
  | top h h' => exact ⟨h, h'⟩
  | descend _ _ hG hG' => exact ⟨hG, hG'⟩

/-- Whatever completes the formula, the literals of the path go together with it. -/
theorem nodup_vars (h : Entered observe mode F init path G s) {ls : List Literal}
    (hls : Completes G ls) : ((path ++ ls).map Literal.var).Nodup := by
  induction h generalizing ls with
  | top => exact hls.nodup_vars
  | descend h hm _ _ ih =>
    rw [List.append_assoc]
    exact ih (.assign h.isOpen.1 (var_mem_of_mem_moves hm.mem_moves) hls)

theorem exists_models (h : Entered observe mode F init path G s) {ls : List Literal}
    (hls : Completes G ls) : ∃ v, Models path G v := by
  obtain ⟨v, hv⟩ := (consistent_of_nodup_vars (h.nodup_vars hls)).exists_holds
  exact ⟨v, models_of_completes hls hv⟩

theorem found_eq_nil (h : Entered observe .first F init path G s) : s.found = [] := by
  induction h with
  | top => rfl
  | descend h hm _ _ ih => exact (hm.found_eq h.isOpen.1).trans ih

/-- Without a model there is nothing to find, and the search goes back. -/
theorem signal_eq_explored (h : Entered observe .first F init path G s)
    (hnone : ¬ ∃ v, Models path G v) :
    (run observe .never .first path G s).1 = .explored := by
  have hne : (run observe .never .first path G s).1 ≠ .closed := by
    rw [Remaining.run_eq .start]
    exact attempt_ne_closed _ _ _ _
  have haccounts : Accounts .first path G (Models path G) s.found
      (run observe .never .first path G s).1 (run observe .never .first path G s).2.found :=
    accounts_run observe G h.isOpen.1 h.isOpen.2 path s
  generalize run observe .never .first path G s = r at haccounts hne
  obtain ⟨signal, t⟩ := r
  dsimp only at haccounts hne ⊢
  generalize t.found = bs at haccounts
  cases haccounts with
  | found _ hls => exact absurd (h.exists_models hls) hnone
  | searched hsignal => exact hsignal.resolve_left hne

end Entered

/-- Nothing new is found in the search of a formula once a unit literal's subformula has been
explored. -/
theorem nothing_new_after_explored (hcall : Entered observe mode F init path G s₀)
    (hturn : Remaining observe mode path G s₀ (m :: ms) s) (hforced : m.forced = true)
    (hexplored : (visit observe mode path G m s).1 = .explored) :
    ∃ later, (run observe .never mode path G s₀).2 =
        (visit observe mode path G m s).2.advance observe later ∧
      (mode = .first → Barren later ∧ (run observe .never mode path G s₀).1 = .explored) ∧
      (mode = .all → ∀ depth a, .found depth a ∈ later → ∀ v, a.holds v →
        Covered (visit observe mode path G m s).2.found v) := by
  have hG := hcall.isOpen.1
  have hrest := hturn.next_of_explored hexplored
  obtain ⟨later, hlater, hfound⟩ := hrest.exists_later hG
  refine ⟨later, hlater, ?_, ?_⟩
  · rintro rfl
    have hnone : ¬ ∃ v, Models path G v := by
      intro hmodels
      obtain ⟨v, hv⟩ := hmodels
      obtain ⟨a, ha, _⟩ := hturn.covered_of_explored hG hforced hexplored hv
      rw [hrest.found_eq hG, hcall.found_eq_nil] at ha
      simp at ha
    refine ⟨?_, hcall.signal_eq_explored hnone⟩
    intro e he
    cases e with
    | found depth a =>
      obtain ⟨ls, hls, _⟩ := hfound depth a he
      exact absurd (hcall.exists_models hls) hnone
    | entered => rfl
    | step => rfl
    | aborted => rfl
    | finished => rfl
  · rintro rfl depth a ha v hv
    obtain ⟨ls, hls, rfl⟩ := hfound depth a ha
    exact hturn.covered_of_explored hG hforced hexplored (models_of_completes hls hv)

end

/-- Both allocations are found again behind the unit literal. -/
def unitAndPair : Formula := .ofList [.ofList [.pos 'a'], .ofList [.pos 'b', .pos 'c']]

theorem nothing_new_after_explored_unitAndPair :
    let start : Progress (List Event) := ⟨0, [], []⟩
    let turn := start.poll.note keep (.entered [] unitAndPair)
    let back := visit keep .all [] unitAndPair ⟨.pos 'a', true⟩ turn
    back.1 = .explored ∧
      ∃ later, (run keep .never .all [] unitAndPair start).2 = back.2.advance keep later ∧
        ∀ depth a, .found depth a ∈ later → ∀ v, a.holds v → Covered back.2.found v := by
  have hcall : Entered keep .all unitAndPair [] [] unitAndPair ⟨0, [], []⟩ :=
    .top (by decide) (by decide)
  have hexplored : (visit keep .all [] unitAndPair ⟨.pos 'a', true⟩
      (Progress.note keep ⟨1, [], []⟩ (.entered [] unitAndPair))).1 = .explored := by
    cbv
  obtain ⟨later, hlater, _, hcovered⟩ := nothing_new_after_explored hcall .start rfl hexplored
  exact ⟨hexplored, later, hlater, hcovered rfl⟩

end Clausal.Search
