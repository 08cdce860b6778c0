import Clausal.Proofs.Renaming.Resolution
import Clausal.Proofs.Renaming.Search
import Clausal.Proofs.Resolution.Growth
import Clausal.Proofs.Search.Exploration
import Mathlib.Data.Fintype.Sum

/-!
# Equivariance of both engines

A renaming need not tell all variables apart, but only those of the formula. There are as many
variables on both sides, so what it does to them can be completed to a renaming that tells all of
them apart. Both do the same to clauses over the variables of the formula, and all that an engine
returns is over these.

The main statement: both engines return for a renamed formula what they return for the formula,
renamed, in the same order and after equally many polls. So neither of them looks at the order of
variables, or at a sign other than through the literal as it stands.
-/

set_option autoImplicit false

namespace Clausal

namespace Renaming

/-- The renamings do the same to these variables. -/
def AgreeOn (xs : List Char) (r s : Renaming) : Prop :=
  ∀ x ∈ xs, r.var x = s.var x ∧ r.flips x = s.flips x

theorem exists_injective {r : Renaming} {xs : List Char} (h : Set.InjOn r.var {x | x ∈ xs}) :
    ∃ s : Renaming, s.Injective ∧ AgreeOn xs r s := by
  have hval : Function.Injective fun x : Char => x.val.toFin := by
    intro x y hxy
    exact Char.ext (UInt32.toFin_inj.mp hxy)
  have hfinite : Finite Char := Finite.of_injective _ hval
  have hfintype : Fintype Char := Fintype.ofFinite Char
  obtain ⟨g, hg⟩ := Set.MapsTo.exists_equiv_extend_of_card_eq (t := Finset.univ)
    Finset.card_univ.symm (by simp) h
  exact ⟨⟨fun x => g x, r.flips⟩, Subtype.val_injective.comp g.injective,
    fun x hx => ⟨(hg x hx).symm, rfl⟩⟩

end Renaming

variable {r s : Renaming} {xs : List Char}

theorem Literal.rename_congr (h : r.AgreeOn xs s) {l : Literal} (hl : l.var ∈ xs) :
    l.rename r = l.rename s := by
  rw [rename, rename, (h _ hl).1, (h _ hl).2]

theorem Literal.map_rename_congr (h : r.AgreeOn xs s) {ls : List Literal}
    (hls : ∀ l ∈ ls, l.var ∈ xs) : ls.map (Literal.rename r) = ls.map (Literal.rename s) :=
  List.map_congr_left fun l hl => rename_congr h (hls l hl)

def Clause.Over (xs : List Char) (c : Clause) : Prop := ∀ l ∈ c, l.var ∈ xs

theorem Clause.rename_congr (h : r.AgreeOn xs s) {c : Clause} (hc : c.Over xs) :
    c.rename r = c.rename s := by
  rw [rename, rename, Literal.map_rename_congr h hc]

theorem Clause.map_rename_congr (h : r.AgreeOn xs s) {cs : List Clause}
    (hcs : ∀ c ∈ cs, c.Over xs) : cs.map (Clause.rename r) = cs.map (Clause.rename s) :=
  List.map_congr_left fun c hc => rename_congr h (hcs c hc)

theorem Formula.over_vars {F : Formula} {c : Clause} (hc : c ∈ F.clauses) : c.Over F.vars :=
  fun _ hl => var_mem_vars hc hl

theorem Formula.rename_congr {F : Formula} (h : r.AgreeOn F.vars s) : F.rename r = F.rename s := by
  rw [rename, rename, Clause.map_rename_congr h fun _ => over_vars]

theorem Allocation.rename_congr (h : r.AgreeOn xs s) {a : Allocation}
    (ha : ∀ l ∈ a.literals, l.var ∈ xs) : a.rename r = a.rename s := by
  rw [rename, rename, Literal.map_rename_congr h ha]

namespace Search

variable {σ τ : Type}

/-- The first search returns what the second one returns, renamed. -/
structure Renamed (r : Renaming) (s : Result σ) (t : Result τ) : Prop where
  outcome_eq : s.outcome = t.outcome.map (List.map (Allocation.rename r))
  polls_eq : s.polls = t.polls

variable (observe : Event → σ → σ) (init : σ) (watch : Event → τ → τ) (start : τ)
  (stops : Interrupts) (mode : Mode) (F : Formula)

theorem renamed_of_injective (hr : r.Injective) :
    Renamed r (solve observe stops mode (F.rename r) init) (solve watch stops mode F start) := by
  rw [solve_rename hr, solve_eq_keep watch, solve_eq_keep fun e => observe (e.rename r)]
  exact ⟨rfl, rfl⟩

theorem renamed_of_injOn (hr : Set.InjOn r.var {x | x ∈ F.vars}) :
    Renamed r (solve observe stops mode (F.rename r) init) (solve watch stops mode F start) := by
  obtain ⟨s, hs, hrs⟩ := Renaming.exists_injective hr
  obtain ⟨houtcome, hpolls⟩ := renamed_of_injective observe init watch start stops mode F hs
  rw [← Formula.rename_congr hrs] at houtcome hpolls
  refine ⟨houtcome.trans ?_, hpolls⟩
  cases h : (solve watch stops mode F start).outcome with
  | aborted => rfl
  | finished as =>
    have hmap : as.map (Allocation.rename s) = as.map (Allocation.rename r) :=
      List.map_congr_left fun a ha =>
        (Allocation.rename_congr hrs (completes_of_outcome h ha).var_mem).symm
    rw [Outcome.map, Outcome.map, hmap]

end Search

namespace Resolution

structure Step.Over (xs : List Char) (s : Step) : Prop where
  left : s.left.Over xs
  right : s.right.Over xs
  pivot : s.pivot.var ∈ xs
  resolvent : s.resolvent.Over xs

theorem Step.rename_congr (h : r.AgreeOn xs s) {t : Step} (ht : t.Over xs) :
    t.rename r = t.rename s := by
  rw [rename, rename, Clause.rename_congr h ht.left, Clause.rename_congr h ht.right,
    Literal.rename_congr h ht.pivot, Clause.rename_congr h ht.resolvent]

theorem Step.Sound.over {F : Formula} {t : Step} (h : t.Sound) (hleft : t.left ∈ F.clauses)
    (hright : t.right ∈ F.clauses) : t.Over F.vars where
  left := Formula.over_vars hleft
  right := Formula.over_vars hright
  pivot := Formula.var_mem_vars hleft h.pivot_mem
  resolvent := by
    intro l hl
    rw [h.resolvent_eq] at hl
    simp only [Clause.mem_ofList, List.mem_append, List.mem_filter] at hl
    rcases hl with ⟨hl, _⟩ | ⟨hl, _⟩
    · exact Formula.var_mem_vars hleft hl
    · exact Formula.var_mem_vars hright hl

theorem Derivation.Justified.over_of_mem_steps {F : Formula} {D : Derivation} (hD : D.Justified F)
    {t : Step} (ht : t ∈ D.steps) : t.Over D.formula.vars := by
  obtain ⟨o, ho, hstep⟩ := List.mem_filterMap.mp ht
  obtain ⟨n, hn⟩ := List.mem_iff_getElem?.mp ho
  cases o with
  | given => cases hstep
  | derived left right u =>
    obtain rfl : u = t := Option.some.inj hstep
    obtain ⟨hsound, hleft, hright, _⟩ := hD.derived n left right u hn
    exact hsound.over (List.mem_of_getElem? hleft) (List.mem_of_getElem? hright)

variable {σ τ : Type}

/-- The first run returns what the second one returns, renamed. All of that is over the variables
`xs`. -/
structure Renamed (r : Renaming) (xs : List Char) (s : Result σ) (t : Result τ) : Prop where
  outcome_eq : s.outcome = t.outcome.map (Verdict.rename r)
  polls_eq : s.polls = t.polls
  clauses_eq : s.formula.clauses = t.formula.clauses.map (Clause.rename r)
  clauses_over : ∀ c ∈ t.formula.clauses, c.Over xs
  proof_over : ∀ proof, t.outcome = .finished (.refuted proof) → ∀ u ∈ proof, u.Over xs

variable (observe : Event → σ → σ) (init : σ) (watch : Event → τ → τ) (start : τ)
  (stops : Interrupts) (F : Formula)

theorem vars_refute : (refute watch stops F start).formula.vars = F.vars := by
  obtain ⟨_, h⟩ := exists_inserts_refute watch stops start F
  exact h.vars_eq

theorem over_of_refuted {proof : List Step}
    (h : (refute watch stops F start).outcome = .finished (.refuted proof)) :
    ∀ t ∈ proof, t.Over F.vars := by
  cases hF : F.isFalse with
  | true =>
    rw [refute_of_isFalse watch stops hF] at h
    cases h
    simp
  | false =>
    obtain ⟨n, E, hruns⟩ := exists_runs_refute watch stops hF start
    obtain ⟨_, _, hinserts⟩ := hruns.passes.inserts
    have hvars : E.formula.vars = F.vars := hinserts.vars_eq
    have hhalts := hruns.halts
    rw [h] at hhalts
    cases hhalts with
    | refuted _ hnext _ =>
      have hE : E.Justified F := (Derivation.justified_start F).of_passes hruns.passes
      intro t ht
      rw [← hvars]
      rcases List.mem_append.mp (Derivation.mem_of_mem_proof ht) with ht | ht
      · exact hE.over_of_mem_steps ht
      · rw [List.mem_singleton.mp ht]
        have hadm := admissible_of_next? hnext
        exact hadm.sound.over (List.mem_of_getElem? hadm.left_eq)
          (List.mem_of_getElem? hadm.right_eq)

theorem outcome_congr (h : r.AgreeOn F.vars s) :
    (refute watch stops F start).outcome.map (Verdict.rename r) =
      (refute watch stops F start).outcome.map (Verdict.rename s) := by
  cases houtcome : (refute watch stops F start).outcome with
  | aborted => rfl
  | finished verdict =>
    cases verdict with
    | saturated => rfl
    | refuted proof =>
      have hover := over_of_refuted watch start stops F houtcome
      have hmap : proof.map (Step.rename r) = proof.map (Step.rename s) :=
        List.map_congr_left fun t ht => Step.rename_congr h (hover t ht)
      simp only [Outcome.map, Verdict.rename, hmap]

theorem renamed_of_injective (hr : r.Injective) :
    (refute observe stops (F.rename r) init).outcome =
      (refute watch stops F start).outcome.map (Verdict.rename r) ∧
    (refute observe stops (F.rename r) init).polls = (refute watch stops F start).polls ∧
    (refute observe stops (F.rename r) init).formula =
      (refute watch stops F start).formula.rename r := by
  rw [refute_rename hr, refute_eq_keep watch, refute_eq_keep fun e => observe (e.rename hr)]
  exact ⟨rfl, rfl, rfl⟩

theorem renamed_of_injOn (hr : Set.InjOn r.var {x | x ∈ F.vars}) :
    Renamed r F.vars (refute observe stops (F.rename r) init) (refute watch stops F start) := by
  obtain ⟨s, hs, hrs⟩ := Renaming.exists_injective hr
  obtain ⟨houtcome, hpolls, hformula⟩ := renamed_of_injective observe init watch start stops F hs
  rw [← Formula.rename_congr hrs] at houtcome hpolls hformula
  have hover : ∀ c ∈ (refute watch stops F start).formula.clauses, c.Over F.vars :=
    fun c hc => vars_refute watch start stops F ▸ Formula.over_vars hc
  exact {
    outcome_eq := houtcome.trans (outcome_congr watch start stops F hrs).symm
    polls_eq := hpolls
    clauses_eq := by rw [hformula, Formula.clauses_rename hs, Clause.map_rename_congr hrs hover]
    clauses_over := hover
    proof_over := fun _ h => over_of_refuted watch start stops F h }

end Resolution

theorem Clause.literals_rename_of_injOn {c : Clause} (hr : Set.InjOn r.var {x | x ∈ xs})
    (hc : c.Over xs) : (c.rename r).literals = c.literals.map (Literal.rename r) := by
  obtain ⟨s, hs, hrs⟩ := Renaming.exists_injective hr
  rw [rename_congr hrs hc, literals_rename hs, Literal.map_rename_congr hrs hc]

theorem Formula.clauses_rename_of_injOn {F : Formula} (hr : Set.InjOn r.var {x | x ∈ F.vars}) :
    (F.rename r).clauses = F.clauses.map (Clause.rename r) := by
  obtain ⟨s, hs, hrs⟩ := Renaming.exists_injective hr
  rw [rename_congr hrs, clauses_rename hs, Clause.map_rename_congr hrs fun _ => over_vars]

/-- Give the variables of a formula other names, no two of them the same one, and turn the signs of
any of them round. Then nothing in the formula is merged, and both engines, in either mode and
wherever they are stopped, go on as they did: the same polls, the same allocations in the same order
with their literals in the same order, the same verdict, the same clauses in the grown formula and
the same steps in the proof, but for the renaming. -/
theorem engines_equivariant {F : Formula} {r : Renaming}
    (hr : Set.InjOn r.var {x | x ∈ F.vars}) :
    (F.rename r).clauses = F.clauses.map (Clause.rename r) ∧
    (∀ c : Clause, c.Over F.vars → (c.rename r).literals = c.literals.map (Literal.rename r)) ∧
    (∀ {σ τ : Type} (observe : Search.Event → σ → σ) (init : σ) (watch : Search.Event → τ → τ)
      (start : τ) (stops : Interrupts) (mode : Search.Mode),
      Search.Renamed r (Search.solve observe stops mode (F.rename r) init)
        (Search.solve watch stops mode F start)) ∧
    ∀ {σ τ : Type} (observe : Resolution.Event → σ → σ) (init : σ)
      (watch : Resolution.Event → τ → τ) (start : τ) (stops : Interrupts),
      Resolution.Renamed r F.vars (Resolution.refute observe stops (F.rename r) init)
        (Resolution.refute watch stops F start) := by
  refine ⟨Formula.clauses_rename_of_injOn hr, fun c hc => c.literals_rename_of_injOn hr hc, ?_, ?_⟩
  · intro σ τ observe init watch start stops mode
    exact Search.renamed_of_injOn observe init watch start stops mode F hr
  · intro σ τ observe init watch start stops
    exact Resolution.renamed_of_injOn observe init watch start stops F hr

/-- The names `a`, `b` and `c` go round, all others become `a`, and the sign of `b` is turned. -/
def roundRobin : Renaming where
  var := fun x => if x = 'a' then 'b' else if x = 'b' then 'c' else 'a'
  flips := fun x => x = 'b'

/-- The branch on `b` takes the literal as it is written first, which is negative after renaming. -/
theorem engines_equivariant_unitAndPair :
    Set.InjOn roundRobin.var {x | x ∈ Search.unitAndPair.vars} ∧
    (Search.solve keep .never .all (Search.unitAndPair.rename roundRobin) []).outcome =
      .finished [⟨[.pos 'b', .neg 'c']⟩, ⟨[.pos 'b', .pos 'c', .pos 'a']⟩] := by
  have hinj : Set.InjOn roundRobin.var {x | x ∈ Search.unitAndPair.vars} := by
    have hdistinct : (Search.unitAndPair.vars.map roundRobin.var).Nodup := by decide
    intro x hx y hy hxy
    exact List.inj_on_of_nodup_map hdistinct hx hy hxy
  have hout : (Search.solve keep .never .all Search.unitAndPair []).outcome =
      .finished [⟨[.pos 'a', .pos 'b']⟩, ⟨[.pos 'a', .neg 'b', .pos 'c']⟩] := by
    cbv
  refine ⟨hinj, ?_⟩
  rw [((engines_equivariant hinj).2.2.1 keep [] keep [] .never .all).outcome_eq, hout]
  rfl

end Clausal
