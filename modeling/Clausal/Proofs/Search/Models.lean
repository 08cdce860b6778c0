import Clausal.Proofs.Search.Completion
import Clausal.Search.Dpll

/-!
# The models that a search accounts for

A search that is not stopped accounts for every model of its formula: it covers each by an
allocation that it records, or it ends at its first allocation. The account is kept for one try
of a literal, for a row of moves and for the search of a formula, in this order. The invariant of
a row of moves is that a model which no recorded allocation covers makes one of the moves to come
true; a forced move can end the row because it is true in every model.

The main statements are those about `solve`: the first allocation decides the formula, and all
allocations together describe exactly its models.

This module does NOT look at polls that stop the search.
-/

set_option autoImplicit false

namespace Clausal

variable {v : Assignment}

namespace Allocation

theorem mem_of_same {a b : Allocation} (h : a.same b = true) {l : Literal}
    (hl : l ∈ a.literals) : l ∈ b.literals := by
  have hall := (Bool.and_eq_true_iff.mp h).2
  exact ListSet.contains_beq_iff.mp (List.all_eq_true.mp hall l hl)

end Allocation

namespace Search

/-- The models of `F` that make the literals of `path` true. -/
def Models (path : List Literal) (F : Formula) (v : Assignment) : Prop :=
  (∀ l ∈ path, l.holds v) ∧ F.holds v

def Covered (as : List Allocation) (v : Assignment) : Prop := ∃ a ∈ as, a.holds v

theorem models_assign {path : List Literal} {F : Formula} {l : Literal} :
    Models (path ++ [l]) (F.assign l) v ↔ Models path F v ∧ l.holds v := by
  unfold Models
  constructor
  · intro h
    obtain ⟨hpath, hF⟩ := h
    have hl : l.holds v := hpath l (by simp)
    exact ⟨⟨fun m hm => hpath m (by simp [hm]), (Formula.holds_assign hl).mp hF⟩, hl⟩
  · intro h
    obtain ⟨⟨hpath, hF⟩, hl⟩ := h
    refine ⟨?_, (Formula.holds_assign hl).mpr hF⟩
    intro m hm
    rcases List.mem_append.mp hm with hm | hm
    · exact hpath m hm
    · exact List.mem_singleton.mp hm ▸ hl

theorem covered_insert {as : List Allocation} {a : Allocation} :
    Covered (ListSet.insert Allocation.same as a) v ↔ Covered as v ∨ a.holds v := by
  have hsame : ∀ b c : Allocation, b.same c = true → ¬ b.holds v → ¬ c.holds v :=
    fun _ _ hbc hb hc => hb fun l hl => hc l (Allocation.mem_of_same hbc hl)
  have hnone : (∀ b ∈ ListSet.insert Allocation.same as a, ¬ b.holds v) ↔
      (∀ b ∈ as, ¬ b.holds v) ∧ ¬ a.holds v := ListSet.forall_mem_insert_iff hsame
  unfold Covered
  rw [← not_iff_not]
  simpa using hnone

/-- How the list of recorded allocations grows below the literals of `path` with `F` left. -/
inductive Grows (mode : Mode) (path : List Literal) (F : Formula) (as : List Allocation) :
    List Allocation → Prop
  | refl : Grows mode path F as as
  | record {bs : List Allocation} {ls : List Literal} (hmode : mode = .all)
      (hbs : Grows mode path F as bs) (hls : Completes F ls) :
      Grows mode path F as (ListSet.insert Allocation.same bs ⟨path ++ ls⟩)

namespace Grows

variable {mode : Mode} {path : List Literal} {F : Formula} {as bs cs : List Allocation}

theorem trans (hab : Grows mode path F as bs) (hbc : Grows mode path F bs cs) :
    Grows mode path F as cs := by
  induction hbc with
  | refl => exact hab
  | record hmode _ hls ih => exact .record hmode ih hls

theorem of_assign {l : Literal} (hF : F.isTrue = false) (hl : l.var ∈ F.vars)
    (h : Grows mode (path ++ [l]) (F.assign l) as bs) : Grows mode path F as bs := by
  induction h with
  | refl => exact .refl
  | record hmode _ hls ih =>
    rw [List.append_assoc]
    exact .record hmode ih (.assign hF hl hls)

theorem covered (h : Grows mode path F as bs) (has : Covered as v) : Covered bs v := by
  induction h with
  | refl => exact has
  | record _ _ _ ih => exact covered_insert.mpr (.inl ih)

theorem distinct (h : Grows mode path F as bs) (has : ListSet.Distinct Allocation.same as) :
    ListSet.Distinct Allocation.same bs := by
  induction h with
  | refl => exact has
  | record _ _ _ ih => exact ListSet.distinct_insert ih _

theorem exists_completes (h : Grows mode path F as bs) {a : Allocation} (ha : a ∈ bs) :
    a ∈ as ∨ ∃ ls, Completes F ls ∧ a = ⟨path ++ ls⟩ := by
  induction h with
  | refl => exact .inl ha
  | record _ _ hls ih =>
    rcases ListSet.mem_of_mem_insert ha with ha | rfl
    · exact ih ha
    · exact .inr ⟨_, hls, rfl⟩

theorem eq_of_first (h : Grows .first path F as bs) : bs = as := by
  cases h with
  | refl => rfl
  | record hmode => cases hmode

end Grows

/-- The account of a search below `path` with `F` left, which began with `as` recorded and was to
look for the assignments `S`: it ended at one more allocation, or all of `S` is covered. -/
inductive Accounts (mode : Mode) (path : List Literal) (F : Formula) (S : Assignment → Prop)
    (as : List Allocation) : Signal → List Allocation → Prop
  | found {ls : List Literal} (hmode : mode = .first) (hls : Completes F ls) :
      Accounts mode path F S as .satisfied (ListSet.insert Allocation.same as ⟨path ++ ls⟩)
  | searched {signal : Signal} {bs : List Allocation}
      (hsignal : signal = .closed ∨ signal = .explored) (hgrows : Grows mode path F as bs)
      (hcover : ∀ v, S v → Covered bs v) : Accounts mode path F S as signal bs

namespace Accounts

variable {mode : Mode} {path : List Literal} {F : Formula} {S T : Assignment → Prop}
  {as bs : List Allocation} {signal : Signal}

theorem mono (hST : ∀ v, T v → S v) (h : Accounts mode path F S as signal bs) :
    Accounts mode path F T as signal bs := by
  cases h with
  | found hmode hls => exact .found hmode hls
  | searched hsignal hgrows hcover =>
    exact .searched hsignal hgrows fun v hv => hcover v (hST v hv)

theorem of_assign {l : Literal} (hF : F.isTrue = false) (hl : l.var ∈ F.vars)
    (h : Accounts mode (path ++ [l]) (F.assign l) S as signal bs) :
    Accounts mode path F S as signal bs := by
  cases h with
  | found hmode hls =>
    rw [List.append_assoc]
    exact .found hmode (.assign hF hl hls)
  | searched hsignal hgrows hcover => exact .searched hsignal (hgrows.of_assign hF hl) hcover

theorem not_aborted (h : Accounts mode path F S as signal bs) : signal ≠ .aborted := by
  cases h with
  | found => simp
  | searched hsignal =>
    rcases hsignal with rfl | rfl
    · simp
    · simp

theorem of_first (h : Accounts .first path F S as signal bs) :
    (∃ ls, Completes F ls ∧ bs = ListSet.insert Allocation.same as ⟨path ++ ls⟩) ∨
      (bs = as ∧ ∀ v, S v → Covered bs v) := by
  cases h with
  | found _ hls => exact .inl ⟨_, hls, rfl⟩
  | searched _ hgrows hcover => exact .inr ⟨hgrows.eq_of_first, hcover⟩

theorem of_all (h : Accounts .all path F S as signal bs) :
    Grows .all path F as bs ∧ ∀ v, S v → Covered bs v := by
  cases h with
  | found hmode => cases hmode
  | searched _ hgrows hcover => exact ⟨hgrows, hcover⟩

end Accounts

section
variable {σ : Type} (observe : Event → σ → σ) {mode : Mode} {path : List Literal} {F : Formula}

theorem accounts_step {l : Literal} {descend : Progress σ → Signal × Progress σ}
    (hF : F.isTrue = false) (hl : l.var ∈ F.vars)
    (hdescend : (F.assign l).isTrue = false → (F.assign l).isFalse = false → ∀ s,
      Accounts mode (path ++ [l]) (F.assign l) (Models (path ++ [l]) (F.assign l)) s.found
        (descend s).1 (descend s).2.found) (s : Progress σ) :
    Accounts mode path F (fun v => Models path F v ∧ l.holds v) s.found
      (step observe mode path F l descend s).1 (step observe mode path F l descend s).2.found := by
  unfold step
  dsimp only
  split
  · next hG =>
    have hls : Completes F [l] := .assign hF hl (.done hG)
    cases mode with
    | first => exact .found rfl hls
    | all =>
      apply Accounts.searched (.inl rfl) (.record rfl .refl hls)
      intro v hv
      exact covered_insert.mpr (.inr (models_assign.mpr hv).1)
  · next hG =>
    have hG : (F.assign l).isTrue = false := by simpa using hG
    split
    · next hfalse =>
      apply Accounts.searched (.inl rfl) .refl
      intro v hv
      exact absurd (models_assign.mpr hv).2 (Formula.not_holds_of_isFalse hfalse)
    · next hfalse =>
      have h := hdescend hG (by simpa using hfalse)
        (s.note observe (.step path.length l F (F.assign l)))
      exact (h.mono fun _ => models_assign.mpr).of_assign hF hl

/-- A row of moves. The models still to be accounted for make one of the moves to come true. -/
theorem accounts_attempt {as : List Allocation} {visit : Move → Progress σ → Signal × Progress σ}
    {ms : List Move}
    (hvisit : ∀ m ∈ ms, ∀ s, Accounts mode path F (fun v => Models path F v ∧ m.literal.holds v)
      s.found (visit m s).1 (visit m s).2.found)
    (hforced : ∀ m ∈ ms, m.forced = true → ∀ v, Models path F v → m.literal.holds v)
    {s : Progress σ} (hgrows : Grows mode path F as s.found)
    (hcover : ∀ v, Models path F v → Covered s.found v ∨ ∃ m ∈ ms, m.literal.holds v) :
    Accounts mode path F (Models path F) as
      (attempt Move.forced visit ms s).1 (attempt Move.forced visit ms s).2.found := by
  induction ms generalizing s with
  | nil =>
    apply Accounts.searched (.inr rfl) hgrows
    intro v hv
    rcases hcover v hv with hs | ⟨m, hm, _⟩
    · exact hs
    · simp at hm
  | cons m ms ih =>
    have hm := hvisit m List.mem_cons_self s
    have hnext : ∀ t : Progress σ, Grows mode path F s.found t.found →
        (∀ v, Models path F v ∧ m.literal.holds v → Covered t.found v) →
        Accounts mode path F (Models path F) as
          (attempt Move.forced visit ms t).1 (attempt Move.forced visit ms t).2.found := by
      intro t hst ht
      apply ih (fun k hk => hvisit k (List.mem_cons_of_mem m hk))
        (fun k hk => hforced k (List.mem_cons_of_mem m hk)) (hgrows.trans hst)
      intro v hv
      rcases hcover v hv with hs | ⟨k, hk, hkv⟩
      · exact .inl (hst.covered hs)
      · rcases List.mem_cons.mp hk with rfl | hk
        · exact .inl (ht v ⟨hv, hkv⟩)
        · exact .inr ⟨k, hk, hkv⟩
    unfold attempt
    generalize visit m s = r at hm
    obtain ⟨signal, t⟩ := r
    dsimp only at hm
    generalize hbs : t.found = bs at hm
    cases hm with
    | found hmode hls =>
      subst hmode
      rw [hgrows.eq_of_first] at hbs
      dsimp only
      rw [hbs]
      exact .found rfl hls
    | searched hsignal hst ht =>
      subst hbs
      rcases hsignal with rfl | rfl
      · dsimp only
        split
        · next hf =>
          -- every model makes a forced literal true, so the moves to come have nothing to add
          apply Accounts.searched (.inr rfl) (hgrows.trans hst)
          intro v hv
          exact ht v ⟨hv, hforced m List.mem_cons_self hf v hv⟩
        · exact hnext t hst ht
      · exact hnext t hst ht

theorem holds_of_forced {m : Move} (hm : m ∈ moves F) (hforced : m.forced = true)
    (hF : F.holds v) : m.literal.holds v := by
  rcases List.mem_append.mp hm with hm | hm
  · obtain ⟨l, hl, rfl⟩ := List.mem_map.mp hm
    obtain ⟨c, hc, hunit⟩ := List.mem_filterMap.mp hl
    exact Clause.holds_of_unit? hunit (hF c hc)
  · split at hm
    · simp only [List.mem_cons, List.not_mem_nil, or_false] at hm
      rcases hm with rfl | rfl
      · simp at hforced
      · simp at hforced
    · simp at hm

theorem exists_branchLiteral (hF : F.isTrue = false) (hF' : F.isFalse = false) :
    ∃ l, branchLiteral? F = some l := by
  obtain ⟨c, cs, hc⟩ := List.exists_cons_of_ne_nil fun h : F.clauses = [] => by
    simp [Formula.isTrue, h] at hF
  have hempty : c.isEmpty = false := by
    rw [← Bool.not_eq_true]
    exact List.any_eq_false.mp hF' c (by simp [hc])
  obtain ⟨l, ls, hl⟩ := List.exists_cons_of_ne_nil fun h : c.literals = [] => by
    simp [Clause.isEmpty, h] at hempty
  exact ⟨l, by simp [branchLiteral?, hc, Clause.first?, hl]⟩

theorem exists_move_holds (hF : F.isTrue = false) (hF' : F.isFalse = false) (v : Assignment) :
    ∃ m ∈ moves F, m.literal.holds v := by
  obtain ⟨l, hl⟩ := exists_branchLiteral hF hF'
  have hpos : (⟨l, false⟩ : Move) ∈ moves F := by simp [moves, hl]
  have hneg : (⟨-l, false⟩ : Move) ∈ moves F := by simp [moves, hl]
  by_cases h : l.holds v
  · exact ⟨_, hpos, h⟩
  · exact ⟨_, hneg, Literal.holds_neg.mpr h⟩

/-- The recursion is that of `run`, on the number of variables. -/
theorem accounts_run (F : Formula) (hF : F.isTrue = false) (hF' : F.isFalse = false)
    (path : List Literal) (s : Progress σ) :
    Accounts mode path F (Models path F) s.found
      (run observe .never mode path F s).1 (run observe .never mode path F s).2.found := by
  rw [run_eq]
  simp only [Interrupts.never, Bool.false_eq_true, if_false]
  apply accounts_attempt
  · intro m hm t
    apply accounts_step observe hF (var_mem_of_mem_moves hm)
    intro hG hG'
    exact accounts_run (F.assign m.literal) hG hG' (path ++ [m.literal])
  · intro m hm hforced v hv
    exact holds_of_forced hm hforced hv.2
  · exact .refl
  · intro v _
    exact .inr (exists_move_holds hF hF' v)
termination_by F.vars.length
decreasing_by exact Formula.vars_assign_lt (var_mem_of_mem_moves hm)

section
variable {stops : Interrupts} {init : σ}

theorem outcome_solve_of_isTrue (hF : F.isTrue = true) :
    (solve observe stops mode F init).outcome = .finished [⟨[]⟩] := by
  simp [solve, hF, Progress.record, ListSet.insert, ListSet.contains]

theorem outcome_solve_of_isFalse (hF : F.isTrue = false) (hF' : F.isFalse = true) :
    (solve observe stops mode F init).outcome = .finished [] := by
  simp [solve, hF, hF']

theorem outcome_solve_of_run {signal : Signal} {s : Progress σ} (hF : F.isTrue = false)
    (hF' : F.isFalse = false) (hrun : run observe stops mode [] F ⟨0, [], init⟩ = (signal, s)) :
    (solve observe stops mode F init).outcome =
      if signal = .aborted then .aborted else .finished s.found := by
  simp only [solve, hF, hF', Bool.false_eq_true, if_false, hrun]
  cases signal <;> rfl

end

theorem accounts_solve (mode : Mode) (F : Formula) (init : σ) :
    ∃ signal as, (solve observe .never mode F init).outcome = .finished as ∧
      Accounts mode [] F (fun v => F.holds v) [] signal as := by
  cases hF : F.isTrue with
  | true =>
    have hls : Completes F [] := .done hF
    cases mode with
    | first => exact ⟨.satisfied, _, outcome_solve_of_isTrue observe hF, .found rfl hls⟩
    | all =>
      have hcover : ∀ v, F.holds v → Covered [⟨[]⟩] v := by
        intro v _
        exact ⟨⟨[]⟩, List.mem_singleton.mpr rfl, fun l hl => by simp at hl⟩
      refine ⟨.explored, _, outcome_solve_of_isTrue observe hF, ?_⟩
      exact .searched (.inr rfl) (.record rfl .refl hls) hcover
  | false =>
    cases hF' : F.isFalse with
    | true =>
      refine ⟨.explored, _, outcome_solve_of_isFalse observe hF hF', .searched (.inr rfl) .refl ?_⟩
      intro v hv
      exact absurd hv (Formula.not_holds_of_isFalse hF')
    | false =>
      have h : Accounts mode [] F (Models [] F) _ _ _ :=
        accounts_run observe F hF hF' [] ⟨0, [], init⟩
      have hmodels : ∀ v, F.holds v → Models [] F v := fun v hv => ⟨by simp, hv⟩
      refine ⟨_, _, ?_, h.mono hmodels⟩
      rw [outcome_solve_of_run observe hF hF' rfl, if_neg h.not_aborted]

/-- The first allocation decides the formula: it is found exactly when there is a model. -/
theorem solve_first_decides (F : Formula) (init : σ) :
    ∃ as, (solve observe .never .first F init).outcome = .finished as ∧ as.length ≤ 1 ∧
      (as.length = 1 ↔ ∃ v, F.holds v) ∧ ∀ a ∈ as, a.Consistent ∧ a.satisfies F = true := by
  obtain ⟨signal, as, hout, h⟩ := accounts_solve observe .first F init
  refine ⟨as, hout, ?_⟩
  rcases h.of_first with ⟨ls, hls, rfl⟩ | ⟨rfl, hnone⟩
  · have hone : ListSet.insert Allocation.same [] ⟨[] ++ ls⟩ = [⟨ls⟩] := rfl
    rw [hone]
    refine ⟨Nat.le_refl 1, ⟨fun _ => hls.exists_model, fun _ => rfl⟩, ?_⟩
    intro a ha
    rw [List.mem_singleton.mp ha]
    exact ⟨hls.consistent, hls.satisfies⟩
  · refine ⟨Nat.zero_le 1, ⟨fun h => by simp at h, ?_⟩, by simp⟩
    intro hmodel
    obtain ⟨v, hv⟩ := hmodel
    obtain ⟨a, ha, _⟩ := hnone v hv
    simp at ha

/-- All allocations together describe the models: an assignment is one exactly when some allocation
stands for it. No two of them are the same set of literals. -/
theorem solve_all_describes_models (F : Formula) (init : σ) :
    ∃ as, (solve observe .never .all F init).outcome = .finished as ∧
      (∀ v, F.holds v ↔ ∃ a ∈ as, a.holds v) ∧
      as.Pairwise fun a b => ¬ ∀ l, l ∈ a.literals ↔ l ∈ b.literals := by
  obtain ⟨signal, as, hout, h⟩ := accounts_solve observe .all F init
  obtain ⟨hgrows, hcover⟩ := h.of_all
  have hfound : ∀ a ∈ as, Completes F a.literals := by
    intro a ha
    rcases hgrows.exists_completes ha with ha | ⟨ls, hls, rfl⟩
    · simp at ha
    · exact hls
  refine ⟨as, hout, fun v => ⟨hcover v, ?_⟩, ?_⟩
  · intro hcovered
    obtain ⟨a, ha, hv⟩ := hcovered
    exact Allocation.holds_of_satisfies (hfound a ha).satisfies hv
  · have hdistinct := hgrows.distinct ListSet.distinct_nil
    apply hdistinct.imp_of_mem
    intro a b ha hb hab heq
    have hsame := Allocation.same_iff_agree (hfound _ ha).consistent.nodup
      (hfound _ hb).consistent.nodup
    simp [hsame.mpr heq] at hab

end
end Search
end Clausal
