import Clausal.Proofs.Search.Models
import Clausal.Proofs.Search.Stopping

/-!
# Searches that could have been stopped

A search that finishes was stopped at none of its polls, so it does what a search does that is
never stopped. What is known of the allocations of a search therefore holds for each one that
finishes, whatever its interrupts are.
-/

set_option autoImplicit false

namespace Clausal.Search

section
variable {σ : Type} {observe : Event → σ → σ} {stops : Interrupts} {mode : Mode} {F : Formula}

theorem outcome_solve_never {init : σ} {as : List Allocation}
    (h : (solve observe stops mode F init).outcome = .finished as) :
    (solve observe .never mode F init).outcome = .finished as := by
  rcases going_or_exists_stop stops (solve observe .never mode F init).polls with
    hgo | ⟨i, hi, hstop, hgo⟩
  · rw [← solve_eq_of_going hgo]
    exact h
  · rw [(exists_solve_stopped hi hstop hgo).1] at h
    cases h

theorem Accounts.completes {S : Assignment → Prop} {signal : Signal} {as : List Allocation}
    (h : Accounts mode [] F S [] signal as) {a : Allocation} (ha : a ∈ as) :
    Completes F a.literals := by
  cases h with
  | found _ hls =>
    have hsingle : a = ⟨[] ++ _⟩ := List.mem_singleton.mp ha
    rw [hsingle]
    exact hls
  | searched _ hgrows =>
    rcases hgrows.exists_completes ha with ha | ⟨ls, hls, rfl⟩
    · simp at ha
    · exact hls

theorem Accounts.ne_nil {S : Assignment → Prop} {signal : Signal} {as : List Allocation}
    (h : Accounts mode [] F S [] signal as) {v : Assignment} (hv : S v) : as ≠ [] := by
  cases h with
  | found => simp [ListSet.insert, ListSet.contains]
  | searched _ _ hcover =>
    obtain ⟨a, ha, _⟩ := hcover v hv
    exact List.ne_nil_of_mem ha

theorem exists_outcome_solve (mode : Mode) (F : Formula) (init : σ) :
    ∃ as, (solve observe .never mode F init).outcome = .finished as := by
  obtain ⟨_, as, hout, _⟩ := accounts_solve observe mode F init
  exact ⟨as, hout⟩

section
variable {init : σ} {as : List Allocation}
  (h : (solve observe stops mode F init).outcome = .finished as)
include h

theorem exists_accounts_of_outcome :
    ∃ signal, Accounts mode [] F (fun v => F.holds v) [] signal as := by
  obtain ⟨signal, bs, hout, haccounts⟩ := accounts_solve observe mode F init
  rw [outcome_solve_never h] at hout
  cases hout
  exact ⟨signal, haccounts⟩

theorem completes_of_outcome {a : Allocation} (ha : a ∈ as) : Completes F a.literals := by
  obtain ⟨_, haccounts⟩ := exists_accounts_of_outcome h
  exact haccounts.completes ha

theorem ne_nil_of_outcome {v : Assignment} (hv : F.holds v) : as ≠ [] := by
  obtain ⟨_, haccounts⟩ := exists_accounts_of_outcome h
  exact haccounts.ne_nil hv

theorem ne_nil_iff_of_outcome : as ≠ [] ↔ ∃ v, F.holds v := by
  constructor
  · intro hne
    obtain ⟨a, ha⟩ := List.exists_mem_of_ne_nil as hne
    exact (completes_of_outcome h ha).exists_model
  · intro hmodel
    obtain ⟨v, hv⟩ := hmodel
    exact ne_nil_of_outcome h hv

/-- The allocations of a search are as small as they can be: each satisfies the formula, but none of
its beginnings does, and it takes a literal of each variable at most, and only of those in the
formula. -/
theorem allocations_minimal :
    ∀ a ∈ as, (a.literals.map Literal.var).Nodup ∧ (∀ l ∈ a.literals, l.var ∈ F.vars) ∧
      a.size ≤ F.vars.length ∧ a.satisfies F = true ∧
      ∀ pre, pre <+: a.literals → pre ≠ a.literals → Allocation.satisfies ⟨pre⟩ F = false := by
  intro a ha
  have hcompletes := completes_of_outcome h ha
  refine ⟨hcompletes.nodup_vars, hcompletes.var_mem, hcompletes.length_le,
    hcompletes.satisfies, ?_⟩
  intro pre hpre hne
  exact hcompletes.not_satisfies_of_prefix hpre hne

end
end

/-- One clause is a tautology, and one of the two allocations leaves a variable free. -/
def halfOpen : Formula :=
  .ofList [.ofList [.pos 'x', .neg 'x'], .ofList [.neg 'x', .pos 'y']]

theorem allocations_minimal_halfOpen :
    (solve keep .never .all halfOpen []).outcome =
      .finished [⟨[.pos 'x', .pos 'y']⟩, ⟨[.neg 'x']⟩] ∧
    Allocation.satisfies ⟨[.pos 'x', .pos 'y']⟩ halfOpen = true ∧
    Allocation.satisfies ⟨[.pos 'x']⟩ halfOpen = false := by
  have h : (solve keep .never .all halfOpen []).outcome =
      .finished [⟨[.pos 'x', .pos 'y']⟩, ⟨[.neg 'x']⟩] := by
    cbv
  obtain ⟨_, _, _, hsatisfies, hprefix⟩ := allocations_minimal h _ List.mem_cons_self
  exact ⟨h, hsatisfies, hprefix [.pos 'x'] (by decide) (by decide)⟩

end Clausal.Search
