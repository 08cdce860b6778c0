import Clausal.Proofs.Search.Residual
import Clausal.Proofs.Search.Stack

/-!
# How deep a search descends

A search calls itself for what a step leaves of a formula, and only if some clause is left and none
of them is empty; so there is a literal to branch on. The literal of the step is over a variable of
the formula that the step is taken in, and what it leaves is over the other variables of this
formula. So every call uses up a variable: the literals that are assigned at any time are over
different variables, and there are no more calls within one another than variables.

`Called` says where in its events a search calls itself, and `Searching` which call goes on there,
both told by the stack of the steps alone. A call polls at once, so the polls of a search are its
calls, also the one that is stopped.

The main statement: these hold at every event of every search.
-/

set_option autoImplicit false

namespace Clausal.Search

section
variable {ε : Type} (P : List ε → ε → Prop)

/-- Each of the events goes with those before it, the first ones of which are given. -/
inductive AfterEach : List ε → List ε → Prop
  | nil {pre : List ε} : AfterEach pre []
  | cons {pre : List ε} {e : ε} {es : List ε} (he : P pre e) (h : AfterEach (pre ++ [e]) es) :
      AfterEach pre (e :: es)

namespace AfterEach

variable {P} {pre es fs : List ε}

theorem append (h : AfterEach P pre es) (h' : AfterEach P (pre ++ es) fs) :
    AfterEach P pre (es ++ fs) := by
  induction h with
  | nil => rwa [List.append_nil] at h'
  | cons he _ ih =>
    rw [List.append_cons] at h'
    exact .cons he (ih h')

theorem of_split (h : AfterEach P pre es) {before after : List ε} {e : ε}
    (hes : es = before ++ e :: after) : P (pre ++ before) e := by
  induction h generalizing before with
  | nil => simp at hes
  | cons he _ ih =>
    rcases List.cons_eq_append_iff.mp hes with ⟨rfl, heq⟩ | ⟨before, rfl, heq⟩
    · obtain ⟨rfl, _⟩ := List.cons.inj heq
      rwa [List.append_nil]
    · have hrest := ih heq
      rwa [List.append_assoc] at hrest

end AfterEach
end

/-- After the events, the search of `F` under the literals of the path goes on: they are the
literals of the stack, and the search has been entered. -/
structure Searching (root : Formula) (es : List Event) (path : List Literal) (F : Formula) :
    Prop where
  below : Below root es path F
  entered : .entered path F ∈ es

/-- After the events, the search of `root` calls itself for a formula: at its begin, or directly
behind a step. -/
inductive Called (root : Formula) : List Event → List Literal → Formula → Prop
  | top : Called root [] [] root
  | nested {es : List Event} {path : List Literal} {F G : Formula} {l : Literal}
      (h : Searching root es path F) (hl : l.var ∈ F.vars)
      (hG : ∀ x ∈ G.vars, x ∈ F.vars ∧ x ≠ l.var) :
      Called root (es ++ [.step path.length l F G]) (path ++ [l]) G

/-- The formula may be searched under the literals of the path. -/
structure Entry (root : Formula) (path : List Literal) (F : Formula) : Prop where
  leaves : Leaves root path F
  assigned : ∀ l ∈ path, l.var ∈ root.vars
  not_isTrue : F.isTrue = false
  not_isFalse : F.isFalse = false

section
variable {root F G : Formula} {es pre : List Event} {path : List Literal} {l : Literal}

theorem Searching.append (h : Searching root es path F) {fs : List Event}
    (hfs : ∀ i < path.length, latest? fs i = none) : Searching root (es ++ fs) path F where
  below := h.below.append hfs
  entered := List.mem_append_left fs h.entered

namespace Entry

theorem top (hF : root.isTrue = false) (hF' : root.isFalse = false) : Entry root [] root :=
  ⟨⟨List.nodup_nil, rfl⟩, by simp, hF, hF'⟩

theorem var_mem (h : Entry root path F) (hl : l.var ∈ F.vars) : l.var ∈ root.vars :=
  (Formula.mem_vars_residual (h.leaves.residual_eq ▸ hl)).1

theorem assign (h : Entry root path F) (hl : l.var ∈ F.vars) (hG : (F.assign l).isTrue = false)
    (hG' : (F.assign l).isFalse = false) : Entry root (path ++ [l]) (F.assign l) where
  leaves := h.leaves.assign hl
  assigned := by
    intro m hm
    rcases List.mem_append.mp hm with hm | hm
    · exact h.assigned m hm
    · rw [List.mem_singleton.mp hm]
      exact h.var_mem hl
  not_isTrue := hG
  not_isFalse := hG'

theorem clauses_ne_nil (h : Entry root path F) : F.clauses ≠ [] := by
  intro hnil
  have htrue := h.not_isTrue
  simp [Formula.isTrue, hnil] at htrue

theorem literals_ne_nil (h : Entry root path F) {c : Clause} (hc : c ∈ F.clauses) :
    c.literals ≠ [] := by
  intro hnil
  have hempty := List.any_eq_false.mp h.not_isFalse c hc
  simp [Clause.isEmpty, hnil] at hempty

/-- The variables that are assigned and those that are left are different variables of the formula
that is searched. -/
theorem length_add_le (h : Entry root path F) :
    path.length + F.vars.length ≤ root.vars.length := by
  have hleft : ∀ x ∈ F.vars, x ∈ root.vars ∧ x ∉ path.map Literal.var := by
    intro x hx
    exact Formula.mem_vars_residual (h.leaves.residual_eq ▸ hx)
  have hnodup : (path.map Literal.var ++ F.vars).Nodup := by
    apply List.nodup_append.mpr
    refine ⟨h.leaves.nodup_vars, F.nodup_vars, ?_⟩
    rintro x hx y hy rfl
    exact (hleft x hy).2 hx
  have hsub : path.map Literal.var ++ F.vars ⊆ root.vars := by
    intro x hx
    rcases List.mem_append.mp hx with hx | hx
    · obtain ⟨l, hl, rfl⟩ := List.mem_map.mp hx
      exact h.assigned l hl
    · exact (hleft x hx).1
  have hle := hnodup.length_le_of_subset hsub
  rwa [List.length_append, List.length_map] at hle

end Entry

theorem Called.below (h : Called root pre path F) (hF : Entry root path F) :
    Below root pre path F := by
  cases h with
  | top => exact Below.nil root
  | nested h =>
    exact h.below.step (Formula.isOpen_iff.mpr ⟨hF.not_isTrue, hF.not_isFalse⟩)

/-- How an event goes with the events before it. -/
inductive Event.Descends (root : Formula) (before : List Event) : Event → Prop
  | entered {path : List Literal} {F : Formula} (h : Called root before path F)
      (hF : Entry root path F) : Descends root before (.entered path F)
  | aborted {path : List Literal} {F : Formula} (h : Called root before path F)
      (hF : Entry root path F) : Descends root before (.aborted path.length)
  | step {path : List Literal} {F : Formula} {l : Literal} (h : Searching root before path F)
      (hF : Entry root path F) (hl : l.var ∈ F.vars) :
      Descends root before (.step path.length l F (F.assign l))
  | found (depth : Nat) (a : Allocation) : Descends root before (.found depth a)
  | finished (count : Nat) : Descends root before (.finished count)

theorem Event.Descends.exists_called {before : List Event} {e : Event}
    (h : e.Descends root before) (hpoll : e.isPoll = true) :
    ∃ path F, Called root before path F ∧ Entry root path F ∧
      (e = .entered path F ∨ e = .aborted path.length) := by
  cases h with
  | entered hcalled hF => exact ⟨_, _, hcalled, hF, .inl rfl⟩
  | aborted hcalled hF => exact ⟨_, _, hcalled, hF, .inr rfl⟩
  | step => cases hpoll
  | found => cases hpoll
  | finished => cases hpoll

/-- What has to be the case, after the events, for a task to begin. -/
def Task.Ready (root : Formula) (pre : List Event) (path : List Literal) (F : Formula) :
    Task → Prop
  | .search => Called root pre path F
  | .row _ => Searching root pre path F
  | .assign _ => Searching root pre path F

section
variable {stops : Interrupts} {mode : Mode} {task : Task} {n : Nat} {signal : Signal}

/-- A task is in the same call again whenever one of its calls has ended. -/
theorem Trail.afterEach_descends (h : Trail stops mode path F task n signal es)
    (hF : Entry root path F) (hover : task.Over F) (hready : task.Ready root pre path F) :
    AfterEach (Event.Descends root) pre es := by
  induction h generalizing pre with
  | stopped => exact .cons (.aborted hready hF) .nil
  | entered _ _ ih =>
    refine .cons (.entered hready hF) (ih hF (fun m hm => var_mem_of_mem_moves hm) ?_)
    exact ⟨(hready.below hF).append fun _ _ => rfl, by simp⟩
  | exhausted => exact .nil
  | ended _ _ ih => exact ih hF (hover _ List.mem_cons_self) hready
  | continued hm _ _ ih ih' =>
    apply (ih hF (hover _ List.mem_cons_self) hready).append
    exact ih' hF (fun m hm => hover m (List.mem_cons_of_mem _ hm))
      (hready.append hm.latest?_eq_none)
  | completed => exact .cons (.step hready hF hover) (.cons (.found _ _) .nil)
  | contradicted => exact .cons (.step hready hF hover) .nil
  | descended hG hG' _ ih =>
    refine .cons (.step hready hF hover) (ih (hF.assign hover hG hG') trivial ?_)
    exact .nested hready hover fun _ => Formula.mem_vars_assign

theorem afterEach_descends_history (stops : Interrupts) (mode : Mode) (F : Formula) :
    AfterEach (Event.Descends F) [] (history stops mode F) := by
  cases h : F.isTrue || F.isFalse with
  | true =>
    obtain ⟨as, _, hkeep⟩ := exists_solve_of_trivial keep h
    rw [history, hkeep]
    exact .cons (.finished _) .nil
  | false =>
    rw [Bool.or_eq_false_iff] at h
    obtain ⟨signal, es, htrail⟩ := exists_trail stops mode F [] 0
    rw [history_eq_of_trail h.1 h.2 htrail]
    apply (htrail.afterEach_descends (.top h.1 h.2) trivial .top).append
    cases signal with
    | aborted => exact .nil
    | closed => exact .cons (.finished _) .nil
    | satisfied => exact .cons (.finished _) .nil
    | explored => exact .cons (.finished _) .nil

end
end

/-- Wherever a search calls itself, the formula has a clause and no empty one, so there is a literal
to branch on; it is the formula that is searched, or what a step has left, over variables of the
formula around it other than that of the step. So the variables that are left and the depth are
together at most the variables of the formula that is searched, and wherever a step is taken, its
literal and those that are assigned already are over different variables. -/
theorem search_descends (stops : Interrupts) (mode : Mode) (F : Formula) (before after : List Event)
    (e : Event) (hsplit : history stops mode F = before ++ e :: after) :
    (e.isPoll = true → ∃ path G, Called F before path G ∧
      (e = .entered path G ∨ e = .aborted path.length) ∧
      G.clauses ≠ [] ∧ (∀ c ∈ G.clauses, c.literals ≠ []) ∧ (∃ l, branchLiteral? G = some l) ∧
      path.length + G.vars.length ≤ F.vars.length) ∧
    ∀ depth l G H, e = .step depth l G H → ∃ path, Searching F before path G ∧
      depth = path.length ∧ depth < F.vars.length ∧ l.var ∈ G.vars ∧
      (∀ x ∈ H.vars, x ∈ G.vars ∧ x ≠ l.var) ∧ ((path ++ [l]).map Literal.var).Nodup := by
  have hdescends : e.Descends F before :=
    (afterEach_descends_history stops mode F).of_split hsplit
  constructor
  · intro hpoll
    obtain ⟨path, G, hcalled, hG, he⟩ := hdescends.exists_called hpoll
    exact ⟨path, G, hcalled, he, hG.clauses_ne_nil, fun c => hG.literals_ne_nil,
      exists_branchLiteral hG.not_isTrue hG.not_isFalse, hG.length_add_le⟩
  · rintro depth l G H rfl
    cases hdescends with
    | @step path _ _ hsearching hG hl =>
      have hpos : 0 < G.vars.length := List.length_pos_of_mem hl
      have hle := hG.length_add_le
      exact ⟨path, hsearching, rfl, by omega, hl, fun _ => Formula.mem_vars_assign,
        (hG.leaves.assign hl).nodup_vars⟩

/-- The search is stopped when it calls itself for what the unit literal leaves. -/
theorem search_descends_unitAndPair :
    let G := unitAndPair.assign (.pos 'a')
    let before : List Event := [.entered [] unitAndPair, .step 0 (.pos 'a') unitAndPair G]
    history (.after 1) .all unitAndPair = before ++ [.aborted 1] ∧
    ∃ path H, Called unitAndPair before path H ∧
      (Event.aborted 1 = .entered path H ∨ Event.aborted 1 = .aborted path.length) ∧
      (∃ l, branchLiteral? H = some l) ∧ path.length + H.vars.length ≤ unitAndPair.vars.length := by
  have h : history (.after 1) .all unitAndPair =
      [.entered [] unitAndPair, .step 0 (.pos 'a') unitAndPair (unitAndPair.assign (.pos 'a'))] ++
        [.aborted 1] := by
    cbv
  obtain ⟨path, H, hcalled, he, _, _, hbranch, hle⟩ := (search_descends _ _ _ _ _ _ h).1 rfl
  exact ⟨h, path, H, hcalled, he, hbranch, hle⟩

end Clausal.Search
