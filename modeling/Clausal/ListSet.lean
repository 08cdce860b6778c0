/-!
# Lists read as sets

`same` is an equivalence on the elements. A list in which no two elements are equivalent is read
as the set of its elements; `insert` and `ofList` keep the first of equivalent elements, so the
order of a list is the order of first occurrence.

This module does NOT assume that `same` is equality: two clauses are equivalent when they hold the
same literals.
-/

set_option autoImplicit false

namespace Clausal.ListSet

variable {α : Type} (same : α → α → Bool)

def contains (xs : List α) (x : α) : Bool := xs.any (same · x)

def insert (xs : List α) (x : α) : List α :=
  if contains same xs x then xs else xs ++ [x]

def ofList (xs : List α) : List α := xs.foldl (insert same) []

/-- No element is equivalent to an earlier one. -/
def Distinct (xs : List α) : Prop := xs.Pairwise fun x y => same x y = false

/-- Equal length and one inclusion: on distinct lists this decides equality of sets. -/
def equal (xs ys : List α) : Bool := xs.length == ys.length && xs.all (contains same ys)

variable {same}

theorem distinct_nil : Distinct same [] := List.Pairwise.nil

theorem distinct_concat {xs : List α} {x : α} (h : Distinct same xs)
    (hx : contains same xs x = false) : Distinct same (xs ++ [x]) := by
  refine List.pairwise_append.mpr ⟨h, List.pairwise_singleton _ _, ?_⟩
  intro y hy z hz
  rw [List.mem_singleton.mp hz]
  simpa using List.any_eq_false.mp hx y hy

theorem distinct_insert {xs : List α} (h : Distinct same xs) (x : α) :
    Distinct same (insert same xs x) := by
  unfold insert
  split
  · exact h
  · next hx => exact distinct_concat h (by simpa using hx)

theorem distinct_foldl_insert (ys : List α) {xs : List α} (h : Distinct same xs) :
    Distinct same (ys.foldl (insert same) xs) := by
  induction ys generalizing xs with
  | nil => exact h
  | cons y ys ih => exact ih (distinct_insert h y)

theorem distinct_ofList (xs : List α) : Distinct same (ofList same xs) :=
  distinct_foldl_insert xs distinct_nil

section Image
variable {β : Type} {f : α → β} (hf : ∀ x y, same x y = true ↔ f x = f y)
include hf

theorem nodup_map_of_distinct {xs : List α} (h : Distinct same xs) : (xs.map f).Nodup := by
  apply List.pairwise_map.mpr
  apply h.imp
  intro x y hxy heq
  simp [(hf x y).mpr heq] at hxy

end Image

section Transport
variable {β : Type} {same' : β → β → Bool} {f : α → β} (hf : ∀ x y, same' (f x) (f y) = same x y)
include hf

theorem contains_map (xs : List α) (x : α) :
    contains same' (xs.map f) (f x) = contains same xs x := by
  simp only [contains, List.any_map, Function.comp_def, hf]

theorem insert_map (xs : List α) (x : α) :
    insert same' (xs.map f) (f x) = (insert same xs x).map f := by
  unfold insert
  rw [contains_map hf]
  split
  · rfl
  · rw [List.map_append, List.map_singleton]

theorem foldl_insert_map (ys xs : List α) :
    (ys.map f).foldl (insert same') (xs.map f) = (ys.foldl (insert same) xs).map f := by
  induction ys generalizing xs with
  | nil => rfl
  | cons y ys ih =>
    rw [List.map_cons, List.foldl_cons, List.foldl_cons, insert_map hf, ih]

/-- A map under which the same elements are equivalent keeps the places of first occurrence. -/
theorem ofList_map (xs : List α) : ofList same' (xs.map f) = (ofList same xs).map f :=
  foldl_insert_map hf xs []

theorem equal_map (xs ys : List α) : equal same' (xs.map f) (ys.map f) = equal same xs ys := by
  simp only [equal, List.length_map, List.all_map, Function.comp_def, contains_map hf]

end Transport

theorem mem_of_mem_insert {xs : List α} {x y : α} (h : y ∈ insert same xs x) :
    y ∈ xs ∨ y = x := by
  unfold insert at h
  split at h
  · exact .inl h
  · simpa using h

theorem mem_of_mem_foldl_insert {ys xs : List α} {y : α}
    (h : y ∈ ys.foldl (insert same) xs) : y ∈ xs ∨ y ∈ ys := by
  induction ys generalizing xs with
  | nil => exact .inl h
  | cons x ys ih =>
    rcases ih h with h | h
    · rcases mem_of_mem_insert h with h | rfl
      · exact .inl h
      · exact .inr List.mem_cons_self
    · exact .inr (List.mem_cons_of_mem x h)

theorem mem_of_mem_ofList {xs : List α} {x : α} (h : x ∈ ofList same xs) : x ∈ xs := by
  simpa using mem_of_mem_foldl_insert h

theorem foldl_insert_of_distinct {ys xs : List α} (h : Distinct same (xs ++ ys)) :
    ys.foldl (insert same) xs = xs ++ ys := by
  induction ys generalizing xs with
  | nil => simp
  | cons y ys ih =>
    have hy : contains same xs y = false := by
      refine List.any_eq_false.mpr fun x hx => ?_
      simpa using (List.pairwise_append.mp h).2.2 x hx y List.mem_cons_self
    rw [List.append_cons] at h ⊢
    rw [List.foldl_cons, insert, if_neg (by simp [hy])]
    exact ih h

theorem ofList_of_distinct {xs : List α} (h : Distinct same xs) : ofList same xs = xs :=
  foldl_insert_of_distinct h

theorem prefix_foldl_insert (ys xs : List α) : xs <+: ys.foldl (insert same) xs := by
  induction ys generalizing xs with
  | nil => exact List.prefix_rfl
  | cons y ys ih =>
    refine List.IsPrefix.trans ?_ (ih (insert same xs y))
    unfold insert
    split
    · exact List.prefix_rfl
    · exact List.prefix_append xs [y]

section Respects
variable {P : α → Prop} (hP : ∀ x y, same x y = true → P x → P y)
include hP

/-- An element that is left out because of an equivalent one shares what is said of that one. -/
theorem forall_mem_insert_iff {xs : List α} {x : α} :
    (∀ y ∈ insert same xs x, P y) ↔ (∀ y ∈ xs, P y) ∧ P x := by
  unfold insert
  split
  · next h =>
    obtain ⟨y, hy, hyx⟩ := List.any_eq_true.mp h
    exact ⟨fun hxs => ⟨hxs, hP y x hyx (hxs y hy)⟩, And.left⟩
  · simp [or_imp, forall_and]

theorem forall_mem_foldl_insert_iff {ys xs : List α} :
    (∀ y ∈ ys.foldl (insert same) xs, P y) ↔ (∀ y ∈ xs, P y) ∧ ∀ y ∈ ys, P y := by
  induction ys generalizing xs with
  | nil => simp
  | cons x ys ih => simp [ih, forall_mem_insert_iff hP, and_assoc]

theorem forall_mem_ofList_iff {xs : List α} :
    (∀ x ∈ ofList same xs, P x) ↔ ∀ x ∈ xs, P x := by
  simp [ofList, forall_mem_foldl_insert_iff hP]

end Respects

section KeepsFirst
variable (R : α → α → Prop)

/-- The second list is the first without each element that is related to an earlier one. -/
inductive KeepsFirst : List α → List α → Prop
  | nil : KeepsFirst [] []
  | keep {xs ys : List α} {x : α} (h : KeepsFirst xs ys) (hx : ∀ y ∈ xs, ¬ R y x) :
      KeepsFirst (xs ++ [x]) (ys ++ [x])
  | drop {xs ys : List α} {x : α} (h : KeepsFirst xs ys) (hx : ∃ y ∈ xs, R y x) :
      KeepsFirst (xs ++ [x]) ys

variable {R} {xs ys zs : List α}

theorem KeepsFirst.subset (h : KeepsFirst R xs ys) : ys ⊆ xs := by
  induction h with
  | nil => exact List.Subset.refl []
  | keep _ _ ih =>
    intro y hy
    rw [List.mem_append] at hy ⊢
    exact hy.imp_left fun hys => ih hys
  | drop _ _ ih => exact List.subset_append_of_subset_left _ ih

variable (hR : Equivalence R)
include hR

theorem KeepsFirst.exists_related (h : KeepsFirst R xs ys) : ∀ x ∈ xs, ∃ y ∈ ys, R y x := by
  induction h with
  | nil => simp
  | @keep xs ys x _ _ ih =>
    intro z hz
    rcases List.mem_append.mp hz with hz | hz
    · obtain ⟨y, hy, hyz⟩ := ih z hz
      exact ⟨y, List.mem_append_left _ hy, hyz⟩
    · obtain rfl := List.mem_singleton.mp hz
      exact ⟨z, by simp, hR.refl z⟩
  | @drop xs ys x _ hx ih =>
    intro z hz
    rcases List.mem_append.mp hz with hz | hz
    · exact ih z hz
    · obtain rfl := List.mem_singleton.mp hz
      obtain ⟨w, hw, hwz⟩ := hx
      obtain ⟨y, hy, hyw⟩ := ih w hw
      exact ⟨y, hy, hR.trans hyw hwz⟩

/-- The test compares with the elements that were kept only, not with all earlier ones. -/
theorem keepsFirst_insert {x : α} (h : KeepsFirst R xs ys)
    (hsame : ∀ y ∈ ys, (same y x = true ↔ R y x)) :
    KeepsFirst R (xs ++ [x]) (insert same ys x) := by
  unfold insert
  split
  · next hcontains =>
    obtain ⟨y, hy, hyx⟩ := List.any_eq_true.mp hcontains
    exact .drop h ⟨y, h.subset hy, (hsame y hy).mp hyx⟩
  · next hcontains =>
    refine .keep h fun y hy hyx => hcontains ?_
    obtain ⟨z, hz, hzy⟩ := h.exists_related hR y hy
    exact List.any_eq_true.mpr ⟨z, hz, (hsame z hz).mpr (hR.trans hzy hyx)⟩

theorem keepsFirst_foldl_insert (h : KeepsFirst R xs ys)
    (hsame : ∀ x ∈ xs ++ zs, ∀ y ∈ xs ++ zs, (same x y = true ↔ R x y)) :
    KeepsFirst R (xs ++ zs) (zs.foldl (insert same) ys) := by
  induction zs generalizing xs ys with
  | nil => rwa [List.append_nil]
  | cons z zs ih =>
    have hz : KeepsFirst R (xs ++ [z]) (insert same ys z) :=
      keepsFirst_insert hR h fun y hy =>
        hsame y (List.mem_append_left _ (h.subset hy)) z (by simp)
    rw [List.append_cons] at hsame ⊢
    exact ih hz hsame

theorem keepsFirst_ofList (hsame : ∀ x ∈ xs, ∀ y ∈ xs, (same x y = true ↔ R x y)) :
    KeepsFirst R xs (ofList same xs) :=
  keepsFirst_foldl_insert hR .nil hsame

end KeepsFirst

section Equality
variable [DecidableEq α]

theorem contains_beq_iff {xs : List α} {x : α} : contains (· == ·) xs x = true ↔ x ∈ xs := by
  simp [contains]

theorem mem_insert_iff {xs : List α} {x y : α} :
    y ∈ insert (· == ·) xs x ↔ y ∈ xs ∨ y = x := by
  unfold insert
  split
  · next h =>
    have hx : x ∈ xs := contains_beq_iff.mp h
    constructor
    · exact .inl
    · rintro (hy | rfl)
      · exact hy
      · exact hx
  · simp

theorem mem_foldl_insert_iff {ys xs : List α} {y : α} :
    y ∈ ys.foldl (insert (· == ·)) xs ↔ y ∈ xs ∨ y ∈ ys := by
  induction ys generalizing xs with
  | nil => simp
  | cons x ys ih => simp [ih, mem_insert_iff, or_assoc]

theorem mem_ofList_iff {xs : List α} {y : α} : y ∈ ofList (· == ·) xs ↔ y ∈ xs := by
  simp [ofList, mem_foldl_insert_iff]

theorem nodup_of_distinct {xs : List α} (h : Distinct (· == ·) xs) : xs.Nodup :=
  List.Pairwise.imp (fun hxy hne => by simp [hne] at hxy) h

theorem distinct_of_nodup {xs : List α} (h : xs.Nodup) : Distinct (· == ·) xs :=
  h.imp fun hxy => by simpa using hxy

theorem nodup_ofList (xs : List α) : (ofList (· == ·) xs).Nodup :=
  nodup_of_distinct (distinct_ofList xs)

theorem equal_beq_iff {xs ys : List α} (hx : xs.Nodup) (hy : ys.Nodup) :
    equal (· == ·) xs ys = true ↔ ∀ a, a ∈ xs ↔ a ∈ ys := by
  have hsub : xs.all (contains (· == ·) ys) = true ↔ xs ⊆ ys := by
    simp only [List.all_eq_true, contains_beq_iff]
    rfl
  unfold equal
  rw [Bool.and_eq_true, hsub, beq_iff_eq]
  constructor
  · rintro ⟨hlen, hxy⟩ a
    refine ⟨fun ha => hxy ha, fun ha => Decidable.byContradiction fun hna => ?_⟩
    have hnodup : (a :: xs).Nodup := List.nodup_cons.mpr ⟨hna, hx⟩
    have hle := hnodup.length_le_of_subset (List.cons_subset.mpr ⟨ha, hxy⟩)
    simp only [List.length_cons] at hle
    omega
  · intro h
    have hxy : xs ⊆ ys := fun a ha => (h a).mp ha
    have hyx : ys ⊆ xs := fun a ha => (h a).mpr ha
    exact ⟨Nat.le_antisymm (hx.length_le_of_subset hxy) (hy.length_le_of_subset hyx), hxy⟩

theorem ofList_append_of_subset {xs ys : List α} (h : ys ⊆ xs) :
    ofList (· == ·) (xs ++ ys) = ofList (· == ·) xs := by
  have hmem : ∀ zs : List α, (∀ y ∈ ys, y ∈ zs) → ys.foldl (insert (· == ·)) zs = zs := by
    intro zs
    clear h
    induction ys with
    | nil => exact fun _ => rfl
    | cons y ys ih =>
      intro hzs
      have hy : contains (· == ·) zs y = true := contains_beq_iff.mpr (hzs y List.mem_cons_self)
      rw [List.foldl_cons, insert, if_pos hy]
      exact ih fun z hz => hzs z (List.mem_cons_of_mem y hz)
  unfold ofList
  rw [List.foldl_append]
  exact hmem _ fun y hy => mem_ofList_iff.mpr (h hy)

end Equality

end Clausal.ListSet
