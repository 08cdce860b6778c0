import Clausal.Proofs.Search.Exploration
import Mathlib.Data.List.Induction

/-!
# Residual formulas

What a search has left of its formula under some literals. Assigning two literals that are not each
other's negation can be done in either order: a clause comes to the same either way, and the
clauses that are merged in between, because they have become equal, would be merged in the end. So
the literals under which a search is, as a set, say what formula is left, clause by clause and
literal by literal.

The main statement: whatever its interrupts and its mode, a search shows the residuals of its path,
and two searches that come to the same literals in different orders go on with one formula.
-/

set_option autoImplicit false

namespace Clausal

namespace ListSet

variable {α : Type} {same : α → α → Bool}

theorem ofList_concat (xs : List α) (x : α) :
    ofList same (xs ++ [x]) = insert same (ofList same xs) x := by
  simp only [ofList, List.foldl_append, List.foldl_cons, List.foldl_nil]

section Merging
variable (hsame : Equivalence fun x y => same x y = true)
include hsame

theorem contains_ofList (xs : List α) (x : α) :
    contains same (ofList same xs) x = contains same xs x := by
  have hiff : (∀ y ∈ ofList same xs, ¬ same y x = true) ↔ ∀ y ∈ xs, ¬ same y x = true :=
    forall_mem_ofList_iff fun y z hyz hy hz => hy (hsame.trans hyz hz)
  rw [Bool.eq_iff_iff, ← not_iff_not]
  simpa [contains] using hiff

/-- An element that repeats an earlier one can be left out before equivalent elements are mapped to
equivalent ones. What has become equivalent only by that is left out afterwards. -/
theorem ofList_filterMap_ofList {g : α → Option α}
    (hg : ∀ x y, same x y = true → Option.Rel (fun z w => same z w = true) (g x) (g y))
    (xs : List α) : ofList same ((ofList same xs).filterMap g) = ofList same (xs.filterMap g) := by
  induction xs using List.reverseRecOn with
  | nil => rfl
  | append_singleton xs x ih =>
    rw [ofList_concat, insert, List.filterMap_append]
    split
    · next hx =>
      obtain ⟨y, hy, hyx⟩ := List.any_eq_true.mp hx
      have hrel := hg y x hyx
      cases hgx : g x with
      | none => simpa [hgx] using ih
      | some z =>
        -- the element that `y` is mapped to stands for `z`
        rw [hgx] at hrel
        generalize hgy : g y = w? at hrel
        cases hrel with
        | @some w _ hwz =>
          have hw : w ∈ xs.filterMap g := List.mem_filterMap.mpr ⟨y, mem_of_mem_ofList hy, hgy⟩
          have hz : contains same (ofList same (xs.filterMap g)) z = true := by
            rw [contains_ofList hsame]
            exact List.any_eq_true.mpr ⟨w, hw, hwz⟩
          simp only [List.filterMap_cons, hgx, List.filterMap_nil]
          rw [ofList_concat, insert, if_pos hz, ih]
    · rw [List.filterMap_append]
      cases hgx : g x with
      | none => simpa [hgx] using ih
      | some z =>
        simp only [List.filterMap_cons, hgx, List.filterMap_nil]
        rw [ofList_concat, ofList_concat, ih]

end Merging

end ListSet

namespace Clause

/-- What the clause comes to when `l` is taken for true, unless it is satisfied. -/
def assign? (l : Literal) (c : Clause) : Option Clause :=
  if l ∉ c then some (c.erase (-l)) else none

theorem equivalence_same : Equivalence fun c d : Clause => c.same d = true :=
  ⟨same_refl, same_symm, same_trans⟩

theorem erase_comm (c : Clause) (l m : Literal) : (c.erase l).erase m = (c.erase m).erase l := by
  apply ext
  simp only [erase, List.filter_filter]
  congr 1
  funext k
  exact Bool.and_comm _ _

theorem assign?_comm {l m : Literal} (h : m ≠ -l) (c : Clause) :
    (c.assign? l).bind (assign? m) = (c.assign? m).bind (assign? l) := by
  have h' : l ≠ -m := by
    rintro rfl
    simp at h
  unfold assign?
  by_cases hl : l ∈ c
  · by_cases hm : m ∈ c
    · simp [hl, hm]
    · simp [hl, hm, h']
  · by_cases hm : m ∈ c
    · simp [hl, hm, h]
    · simp [hl, hm, erase_comm]

theorem assign?_of_same {l : Literal} (c d : Clause) (h : c.same d = true) :
    Option.Rel (fun c d => c.same d = true) (c.assign? l) (d.assign? l) := by
  have hmem := same_iff.mp h
  unfold assign?
  by_cases hl : l ∈ c
  · rw [if_neg (not_not_intro hl), if_neg (not_not_intro ((hmem l).mp hl))]
    exact .none
  · rw [if_pos hl, if_pos (mt (hmem l).mpr hl)]
    exact .some (same_iff.mpr fun m => by rw [mem_erase, mem_erase, hmem])

end Clause

namespace Formula

variable {F : Formula} {l m : Literal} {p q : List Literal}

theorem assign_eq (F : Formula) (l : Literal) :
    F.assign l = ofList (F.clauses.filterMap (Clause.assign? l)) := by
  unfold assign
  rw [← List.filterMap_eq_map, List.filterMap_filter]
  simp only [decide_eq_true_eq]
  rfl

/-- Clauses that are merged by the first literal need not be looked at by the second. -/
theorem assign_assign (F : Formula) (l m : Literal) :
    (F.assign l).assign m =
      ofList (F.clauses.filterMap fun c => (c.assign? l).bind (Clause.assign? m)) := by
  rw [assign_eq, assign_eq, ← List.filterMap_filterMap]
  exact ext (ListSet.ofList_filterMap_ofList Clause.equivalence_same Clause.assign?_of_same _)

theorem assign_comm (h : m ≠ -l) : (F.assign l).assign m = (F.assign m).assign l := by
  simp only [assign_assign, Clause.assign?_comm h]

/-- What the literals of the path leave, taken for true one after the other. -/
def residual (F : Formula) (path : List Literal) : Formula := path.foldl assign F

theorem residual_concat (F : Formula) (path : List Literal) (l : Literal) :
    F.residual (path ++ [l]) = (F.residual path).assign l := by
  simp [residual]

theorem mem_vars_residual {path : List Literal} {x : Char} (h : x ∈ (F.residual path).vars) :
    x ∈ F.vars ∧ x ∉ path.map Literal.var := by
  induction path generalizing F with
  | nil => exact ⟨h, by simp⟩
  | cons l path ih =>
    obtain ⟨hx, hpath⟩ := ih (F := F.assign l) h
    obtain ⟨hF, hne⟩ := mem_vars_assign hx
    exact ⟨hF, by simp [hne, hpath]⟩

theorem residual_eq_of_mem_iff (hp : (p.map Literal.var).Nodup) (hq : (q.map Literal.var).Nodup)
    (h : ∀ l, l ∈ p ↔ l ∈ q) : F.residual p = F.residual q := by
  have hconsistent := Search.consistent_of_nodup_vars hp
  have hperm : p.Perm q := (List.perm_ext_iff_of_nodup (.of_map _ hp) (.of_map _ hq)).mpr h
  apply hperm.foldl_eq'
  intro l hl m hm G
  apply assign_comm
  rintro rfl
  exact hconsistent.neg_not_mem l hl hm

end Formula

namespace Search

/-- The literals of the path are over different variables and leave `F` of the formula `root`. -/
structure Leaves (root : Formula) (path : List Literal) (F : Formula) : Prop where
  nodup_vars : (path.map Literal.var).Nodup
  residual_eq : root.residual path = F

namespace Leaves

variable {root F G : Formula} {path p q : List Literal} {l : Literal}

theorem assign (h : Leaves root path F) (hl : l.var ∈ F.vars) :
    Leaves root (path ++ [l]) (F.assign l) where
  nodup_vars := by
    have hnot := (Formula.mem_vars_residual (h.residual_eq ▸ hl)).2
    rw [List.map_append, List.map_singleton]
    exact List.nodup_append.mpr ⟨h.nodup_vars, List.nodup_singleton _, by simpa using hnot⟩
  residual_eq := by rw [Formula.residual_concat, h.residual_eq]

theorem unique (hp : Leaves root p F) (hq : Leaves root q G) (h : ∀ l, l ∈ p ↔ l ∈ q) : F = G := by
  rw [← hp.residual_eq, ← hq.residual_eq]
  exact Formula.residual_eq_of_mem_iff hp.nodup_vars hq.nodup_vars h

end Leaves

/-- The formulas of the event are left by the literals that the search is under, which for an event
inside the search of a formula are those under which it was entered. -/
inductive Event.Shows (root : Formula) : Event → Prop
  | entered {path : List Literal} {F : Formula} (h : Leaves root path F) :
      Shows root (.entered path F)
  | step {path : List Literal} {l : Literal} {F G : Formula} (h : Leaves root path F)
      (h' : Leaves root (path ++ [l]) G) : Shows root (.step path.length l F G)
  | found {depth : Nat} {path : List Literal} {F : Formula} (h : Leaves root path F)
      (hF : F.isTrue = true) : Shows root (.found depth ⟨path⟩)
  | aborted (depth : Nat) : Shows root (.aborted depth)
  | finished (count : Nat) : Shows root (.finished count)

section
variable {stops : Interrupts} {mode : Mode} {root F : Formula} {path : List Literal} {task : Task}
  {n : Nat} {signal : Signal} {es : List Event} {e : Event}

theorem Trail.shows (h : Trail stops mode path F task n signal es) (hF : Leaves root path F)
    (htask : task.Over F) : ∀ e ∈ es, e.Shows root := by
  induction h with
  | stopped => simpa using .aborted _
  | entered _ _ ih =>
    exact List.forall_mem_cons.mpr ⟨.entered hF, ih hF fun m hm => var_mem_of_mem_moves hm⟩
  | exhausted => simp
  | ended _ _ ih => exact ih hF (htask _ List.mem_cons_self)
  | continued _ _ _ ih ih' =>
    intro e he
    rcases List.mem_append.mp he with he | he
    · exact ih hF (htask _ List.mem_cons_self) e he
    · exact ih' hF (fun m hm => htask m (List.mem_cons_of_mem _ hm)) e he
  | completed hG =>
    have hG' := hF.assign htask
    simpa using ⟨.step hF hG', .found hG' hG⟩
  | contradicted => simpa using .step hF (hF.assign htask)
  | descended _ _ _ ih =>
    have hG := hF.assign htask
    exact List.forall_mem_cons.mpr ⟨.step hF hG, ih hG trivial⟩

theorem shows_of_mem_history (he : e ∈ history stops mode F) : e.Shows F := by
  rcases exists_history_eq stops mode F with ⟨count, hnone⟩ | ⟨signal, es, htrail, hes⟩
  · rw [hnone, List.mem_singleton] at he
    exact he ▸ .finished count
  · rw [hes, List.mem_append] at he
    rcases he with he | he
    · exact htrail.shows ⟨List.nodup_nil, rfl⟩ trivial e he
    · rw [signal.eq_finished_of_mem_closing he]
      exact .finished _

theorem leaves_of_entered {G : Formula} (h : .entered path G ∈ history stops mode F) :
    Leaves F path G := by
  cases shows_of_mem_history h with
  | entered h => exact h

end

/-- Literals over different variables can be assigned in any order, to the same formula with the
same order of its clauses and of their literals. So all that a search shows depends on the set of
literals that it is under, and two searches of a formula that have the same literals behind them
are left with the same. What is left does not mention the variables that were assigned, and has
those models of the formula that make the literals true. -/
theorem residual_of_literals :
    (∀ (F : Formula) (l m : Literal), l.var ≠ m.var →
      (F.assign l).assign m = (F.assign m).assign l) ∧
    (∀ (F : Formula) (p q : List Literal), (p.map Literal.var).Nodup → (q.map Literal.var).Nodup →
      (∀ l, l ∈ p ↔ l ∈ q) → F.residual p = F.residual q) ∧
    (∀ stops mode F, ∀ e ∈ history stops mode F, e.Shows F) ∧
    (∀ stops mode stops' mode' F p q G H, .entered p G ∈ history stops mode F →
      .entered q H ∈ history stops' mode' F → (∀ l, l ∈ p ↔ l ∈ q) → G = H) ∧
    (∀ (F : Formula) (l : Literal), l.var ∉ (F.assign l).vars) ∧
    ∀ (F : Formula) (l : Literal) (v : Assignment), l.holds v →
      (F.holds v ↔ (F.assign l).holds v) := by
  refine ⟨?_, ?_, ?_, ?_, ?_, ?_⟩
  · intro F l m hvar
    apply Formula.assign_comm
    rintro rfl
    exact hvar (Literal.var_neg l).symm
  · intro F p q hp hq hpq
    exact Formula.residual_eq_of_mem_iff hp hq hpq
  · intro stops mode F e he
    exact shows_of_mem_history he
  · intro stops mode stops' mode' F p q G H hG hH hpq
    exact (leaves_of_entered hG).unique (leaves_of_entered hH) hpq
  · intro F l hl
    exact (Formula.mem_vars_assign hl).2 rfl
  · intro F l v hl
    exact (Formula.holds_assign hl).symm

/-- One order merges the clauses after both steps, the other one after the first. -/
example :
    let F : Formula := .ofList [.ofList [.pos 'a', .pos 'x', .pos 'y'],
      .ofList [.pos 'y', .pos 'b', .pos 'x'], .ofList [.pos 'y', .pos 'x']]
    ((F.assign (.neg 'a')).assign (.neg 'b')).clauses = [.ofList [.pos 'x', .pos 'y']] ∧
    ((F.assign (.neg 'b')).assign (.neg 'a')).clauses = [.ofList [.pos 'x', .pos 'y']] := by
  decide

end Search
end Clausal
