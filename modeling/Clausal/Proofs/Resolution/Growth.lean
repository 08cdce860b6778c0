import Clausal.Proofs.Resolution.Passes
import Clausal.Proofs.Search.Interruption
import Clausal.Report

/-!
# What resolution adds to a formula

`Inserts F cs G` says that resolution, one inference after the other, adds the clauses `cs` to `F`
and so arrives at `G`. It forgets the origins of the clauses, which the choice of the next
inference does not look at. Whatever its interrupts are, a run inserts some clauses, polls once
more than that, and is aborted or finds the formula settled.

The clauses that are added are new, not empty and no tautologies. A consistent allocation that has
a literal in both parents has one in the resolvent, so the grown formula is satisfied by the same
allocations, also by those that leave variables free.
-/

set_option autoImplicit false

namespace Clausal

/-- The pivot and its negation cannot both be taken for true, so one of the two literals is left. -/
theorem Clause.exists_mem_resolve {c d : Clause} {pivot : Literal} {ls : List Literal}
    (hls : ∀ l ∈ ls, -l ∉ ls) (hc : ∃ l ∈ c, l ∈ ls) (hd : ∃ l ∈ d, l ∈ ls) :
    ∃ l ∈ c.resolve d pivot, l ∈ ls := by
  obtain ⟨l, hl, hlls⟩ := hc
  obtain ⟨m, hm, hmls⟩ := hd
  by_cases hpivot : l = pivot
  · have hne : m ≠ -pivot := by
      intro heq
      rw [hpivot] at hlls
      exact hls pivot hlls (heq ▸ hmls)
    exact ⟨m, Clause.mem_resolve.mpr (.inr ⟨hm, hne⟩), hmls⟩
  · exact ⟨l, Clause.mem_resolve.mpr (.inl ⟨hl, hpivot⟩), hlls⟩

theorem Clause.not_forall_iff_of_not_same {c d : Clause} (h : c.same d = false) :
    ¬ ∀ l, l ∈ c ↔ l ∈ d := by
  intro heq
  simp [Clause.same_iff.mpr heq] at h

theorem Formula.isFalse_append {F G : Formula} {cs : List Clause}
    (h : G.clauses = F.clauses ++ cs) (hcs : ∀ c ∈ cs, c.isEmpty = false) :
    G.isFalse = F.isFalse := by
  have hnone : cs.any Clause.isEmpty = false := by
    rw [List.any_eq_false]
    intro c hc
    simp [hcs c hc]
  simp [Formula.isFalse, h, hnone]

namespace Resolution

inductive Inserts (F : Formula) : List Clause → Formula → Prop
  | nil : Inserts F [] F
  | snoc {cs : List Clause} {G : Formula} {r : Inference} (h : Inserts F cs G)
      (hnext : next? G = some r) (hr : r.step.resolvent.isEmpty = false) :
      Inserts F (cs ++ [r.step.resolvent]) (G.insert r.step.resolvent)

/-- No further clause is inserted, and whether this is because the formula is refuted. -/
inductive Settled (F : Formula) : Bool → Prop
  | saturated (hnext : next? F = none) : Settled F false
  | refuted {r : Inference} (hnext : next? F = some r) (hr : r.step.resolvent.isEmpty = true) :
      Settled F true

/-- What the clauses `added` behind those of `F` are like in the formula `G` that `F` grew to. -/
structure Extension (F : Formula) (added : List Clause) (G : Formula) : Prop where
  clauses_eq : G.clauses = F.clauses ++ added
  not_empty : ∀ c ∈ added, c.isEmpty = false
  not_tautology : ∀ c ∈ added, c.isTautology = false
  var_mem : ∀ c ∈ added, ∀ l ∈ c, l.var ∈ F.vars
  new : ∀ c ∈ F.clauses, ∀ d ∈ added, ¬ ∀ l, l ∈ c ↔ l ∈ d
  different : added.Pairwise fun c d => ¬ ∀ l, l ∈ c ↔ l ∈ d

namespace Inserts

variable {F G : Formula} {cs : List Clause}

theorem clauses_eq (h : Inserts F cs G) : G.clauses = F.clauses ++ cs := by
  induction h with
  | nil => simp
  | snoc _ hnext _ ih =>
    have hclauses := Formula.clauses_insert_of_not_contains (admissible_of_next? hnext).not_contains
    rw [hclauses, ih, List.append_assoc]

theorem vars_eq (h : Inserts F cs G) : G.vars = F.vars := by
  induction h with
  | nil => rfl
  | snoc _ hnext _ ih =>
    rw [← ih]
    exact Formula.vars_insert fun _ hl => (admissible_of_next? hnext).vars_resolvent hl

/-- What each resolvent has that is not empty, each clause that is added has. -/
theorem forall_mem {P : Clause → Prop} (h : Inserts F cs G)
    (hP : ∀ (H : Formula) (r : Inference), H.vars = F.vars → r.Admissible H →
      r.step.resolvent.isEmpty = false → P r.step.resolvent) : ∀ c ∈ cs, P c := by
  induction h with
  | nil => simp
  | @snoc cs G r hG hnext hr ih =>
    intro c hc
    rcases List.mem_append.mp hc with hc | hc
    · exact ih c hc
    · rw [List.mem_singleton.mp hc]
      exact hP G r hG.vars_eq (admissible_of_next? hnext) hr

theorem not_empty (h : Inserts F cs G) : ∀ c ∈ cs, c.isEmpty = false :=
  h.forall_mem fun _ _ _ _ hr => hr

theorem isFalse_eq (h : Inserts F cs G) : G.isFalse = F.isFalse :=
  Formula.isFalse_append h.clauses_eq h.not_empty

theorem extension (h : Inserts F cs G) : Extension F cs G := by
  have hdistinct := G.distinct
  rw [h.clauses_eq] at hdistinct
  obtain ⟨_, hadded, hnew⟩ := List.pairwise_append.mp hdistinct
  exact {
    clauses_eq := h.clauses_eq
    not_empty := h.not_empty
    not_tautology := h.forall_mem fun _ _ _ hr _ => hr.not_tautology
    var_mem := h.forall_mem fun _ _ hvars hr _ _ hl => hvars ▸ hr.vars_resolvent hl
    new := fun c hc d hd => Clause.not_forall_iff_of_not_same (hnew c hc d hd)
    different := hadded.imp Clause.not_forall_iff_of_not_same }

theorem holds_iff (h : Inserts F cs G) {v : Assignment} : G.holds v ↔ F.holds v := by
  induction h with
  | nil => rfl
  | snoc _ hnext _ ih =>
    rw [← ih, Formula.holds_insert]
    constructor
    · exact And.left
    · intro hG
      exact ⟨hG, (admissible_of_next? hnext).holds_resolvent hG⟩

theorem satisfies_iff (h : Inserts F cs G) {a : Allocation}
    (ha : ∀ l ∈ a.literals, -l ∉ a.literals) : a.satisfies G = true ↔ a.satisfies F = true := by
  induction h with
  | nil => rfl
  | @snoc cs G r _ hnext _ ih =>
    have hadm := admissible_of_next? hnext
    rw [← ih, Allocation.satisfies_iff, Allocation.satisfies_iff,
      Formula.clauses_insert_of_not_contains hadm.not_contains]
    constructor
    · intro hG c hc
      exact hG c (List.mem_append_left _ hc)
    · intro hG c hc
      rcases List.mem_append.mp hc with hc | hc
      · exact hG c hc
      · rw [List.mem_singleton.mp hc, hadm.resolvent_eq]
        exact Clause.exists_mem_resolve ha (hG _ (List.mem_of_getElem? hadm.left_eq))
          (hG _ (List.mem_of_getElem? hadm.right_eq))

end Inserts

theorem Passes.inserts {D E : Derivation} {n : Nat} (h : Passes D n E) :
    ∃ cs, cs.length = n ∧ Inserts D.formula cs E.formula := by
  induction h with
  | zero => exact ⟨[], rfl, .nil⟩
  | succ _ hnext hr ih =>
    obtain ⟨cs, hlen, hcs⟩ := ih
    exact ⟨_, by simp [hlen], .snoc hcs hnext hr⟩

/-- A run on `F` inserts the clauses `cs`, polls once more, and is aborted or has settled. -/
structure Course {σ : Type} (stops : Interrupts) (F : Formula) (cs : List Clause)
    (r : Result σ) : Prop where
  inserts : Inserts F cs r.formula
  going : ∀ i < cs.length, stops i = false
  polls_eq : r.polls = cs.length + 1
  aborted_or_settled : (r.outcome = .aborted ∧ stops cs.length = true) ∨
    ∃ verdict, r.outcome = .finished verdict ∧ stops cs.length = false ∧
      Settled r.formula verdict.isRefuted

/-- A run on `F` has settled after it inserted the clauses `cs`. -/
structure Settles {σ : Type} (F : Formula) (cs : List Clause) (verdict : Verdict)
    (r : Result σ) : Prop where
  inserts : Inserts F cs r.formula
  outcome_eq : r.outcome = .finished verdict
  settled : Settled r.formula verdict.isRefuted

namespace Course

variable {σ : Type} {stops : Interrupts} {F : Formula} {cs : List Clause} {r : Result σ}

theorem settles (h : Course stops F cs r) {verdict : Verdict}
    (hr : r.outcome = .finished verdict) : Settles F cs verdict r := by
  rcases h.aborted_or_settled with ⟨haborted, _⟩ | ⟨v, hfinished, _, hsettled⟩
  · simp [haborted] at hr
  · obtain rfl : v = verdict := by simpa [hfinished] using hr
    exact ⟨h.inserts, hfinished, hsettled⟩

theorem exists_settles (h : Course .never F cs r) : ∃ verdict, Settles F cs verdict r := by
  rcases h.aborted_or_settled with ⟨_, hstop⟩ | ⟨verdict, hfinished, _, _⟩
  · simp [Interrupts.never] at hstop
  · exact ⟨verdict, h.settles hfinished⟩

end Course

section
variable {σ : Type} (observe : Event → σ → σ) (stops : Interrupts) {F : Formula} (init : σ)

theorem exists_course (hF : F.isFalse = false) :
    ∃ cs, Course stops F cs (refute observe stops F init) := by
  obtain ⟨n, E, h⟩ := exists_runs_refute observe stops hF init
  obtain ⟨cs, hlen, hcs⟩ := h.passes.inserts
  have hhalts := h.halts
  rw [Nat.zero_add, ← hlen] at hhalts
  refine ⟨cs, h.formula_eq ▸ hcs, ?_, ?_, ?_⟩
  · intro i hi
    simpa using h.going i (hlen ▸ hi)
  · rw [h.polls_eq, hlen, Nat.zero_add]
  · rw [h.formula_eq]
    generalize (refute observe stops F init).outcome = outcome at hhalts
    cases hhalts with
    | aborted hstop => exact .inl ⟨rfl, hstop⟩
    | saturated hgo hnext => exact .inr ⟨_, rfl, hgo, .saturated hnext⟩
    | refuted hgo hnext hr => exact .inr ⟨_, rfl, hgo, .refuted hnext hr⟩

theorem exists_settles_never (hF : F.isFalse = false) :
    ∃ cs verdict, Settles F cs verdict (refute observe .never F init) := by
  obtain ⟨cs, h⟩ := exists_course observe .never init hF
  exact ⟨cs, h.exists_settles⟩

theorem exists_inserts_refute (F : Formula) :
    ∃ cs, Inserts F cs (refute observe stops F init).formula := by
  cases hF : F.isFalse with
  | true =>
    rw [refute_of_isFalse observe stops hF init]
    exact ⟨[], .nil⟩
  | false =>
    obtain ⟨cs, h⟩ := exists_course observe stops init hF
    exact ⟨cs, h.inserts⟩

end

section
open Search (Mode solve)

variable {σ : Type} {watch : Search.Event → σ → σ} {s t : Interrupts} {mode : Mode}
  {F G : Formula} {init : σ} {as bs : List Allocation}
  (hFG : ∀ a : Allocation, a.Consistent → (a.satisfies F = true ↔ a.satisfies G = true))
  (has : (solve watch s mode F init).outcome = .finished as)
  (hbs : (solve watch t mode G init).outcome = .finished bs)
include hFG has

theorem satisfies_of_solve : ∀ a ∈ as, a.Consistent ∧ a.satisfies G = true := by
  intro a ha
  have hcompletes := Search.completes_of_outcome has ha
  exact ⟨hcompletes.consistent, (hFG a hcompletes.consistent).mp hcompletes.satisfies⟩

include hbs

theorem ne_nil_of_solve (hne : as ≠ []) : bs ≠ [] := by
  obtain ⟨a, ha⟩ := List.exists_mem_of_ne_nil as hne
  obtain ⟨hconsistent, hsatisfies⟩ := satisfies_of_solve hFG has a ha
  obtain ⟨v, hv⟩ := hconsistent.exists_holds
  exact Search.ne_nil_of_outcome hbs (Allocation.holds_of_satisfies hsatisfies hv)

theorem answer_eq_of_solve : Answer.ofAllocations as = Answer.ofAllocations bs := by
  have hGF := fun a ha => (hFG a ha).symm
  have hnil : as.isEmpty = bs.isEmpty := by
    rw [Bool.eq_iff_iff, List.isEmpty_iff, List.isEmpty_iff, ← not_iff_not]
    exact ⟨ne_nil_of_solve hFG has hbs, ne_nil_of_solve hGF hbs has⟩
  rw [Answer.ofAllocations, Answer.ofAllocations, hnil]

end

section
open Search (solve)

/-- Wherever a run ends, it has put new clauses behind those of the formula and has kept the
allocations that satisfy it. So searches before and after it agree on whether there are any, and
all that they find satisfy both formulas. -/
theorem refute_keeps_allocations {σ τ : Type} (observe : Event → σ → σ) (stops : Interrupts)
    (F : Formula) (init : σ) (watch : Search.Event → τ → τ) (start : τ) :
    ∃ added G, (refute observe stops F init).formula = G ∧ Extension F added G ∧
      (∀ a : Allocation, a.Consistent → (a.satisfies F = true ↔ a.satisfies G = true)) ∧
      ∀ mode,
        (∃ as, (solve watch .never mode F start).outcome = .finished as) ∧
        (∃ bs, (solve watch .never mode G start).outcome = .finished bs) ∧
        ∀ s t as bs, (solve watch s mode F start).outcome = .finished as →
          (solve watch t mode G start).outcome = .finished bs →
            Answer.ofAllocations as = Answer.ofAllocations bs ∧
            (∀ a ∈ as, a.satisfies G = true) ∧ ∀ b ∈ bs, b.satisfies F = true := by
  obtain ⟨added, h⟩ := exists_inserts_refute observe stops init F
  generalize (refute observe stops F init).formula = G at h
  have hFG : ∀ a : Allocation, a.Consistent → (a.satisfies F = true ↔ a.satisfies G = true) :=
    fun a ha => (h.satisfies_iff ha.neg_not_mem).symm
  have hGF := fun a ha => (hFG a ha).symm
  refine ⟨added, G, rfl, h.extension, hFG, ?_⟩
  intro mode
  refine ⟨Search.exists_outcome_solve mode F start, Search.exists_outcome_solve mode G start, ?_⟩
  intro s t as bs has hbs
  refine ⟨answer_eq_of_solve hFG has hbs, ?_, ?_⟩
  · exact fun a ha => (satisfies_of_solve hFG has a ha).2
  · exact fun b hb => (satisfies_of_solve hGF hbs b hb).2

end
end Resolution
end Clausal
