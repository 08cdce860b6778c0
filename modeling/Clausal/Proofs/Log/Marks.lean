import Clausal.Formula.Assign
import Clausal.Resolution.Inference
import Mathlib.Data.List.Chain

/-!
# Texts between marks

A message is put together from texts with fixed marks between them. `cut` takes it apart where a
mark stands for the first time. To get back what stood before the mark, one has to know that the
mark does not begin earlier: neither inside of the text before it, nor at its end.

The text of a formula holds characters of every kind, since every character can name a variable.
But the name of a variable ends its literal, so it is followed by a comma or by a closing
delimiter. `Apart a b` says that no `a` is followed by a `b`; it holds of these texts for most pairs
of characters, and then a mark with such a pair stands nowhere in them.
-/

set_option autoImplicit false

namespace Clausal

namespace Text

/-- What stands before the first place of the mark, and what stands behind it. -/
def cut (mark : List Char) : List Char → Option (List Char × List Char)
  | [] => none
  | c :: cs =>
    if mark <+: c :: cs then some ([], (c :: cs).drop mark.length)
    else (cut mark cs).map fun p => (c :: p.1, p.2)

/-- What stands behind the mark that the text begins with. -/
def behind? (mark cs : List Char) : Option (List Char) :=
  if mark <+: cs then some (cs.drop mark.length) else none

section
variable {mark xs ys : List Char}

theorem behind?_append (mark cs : List Char) : behind? mark (mark ++ cs) = some cs := by
  simp [behind?]

theorem cut_mark (hmark : mark ≠ []) (ys : List Char) : cut mark (mark ++ ys) = some ([], ys) := by
  obtain ⟨c, cs, rfl⟩ := List.exists_cons_of_ne_nil hmark
  simp [cut]

theorem cut_cons {c : Char} (h : ¬ mark <+: c :: xs) :
    cut mark (c :: xs) = (cut mark xs).map fun p => (c :: p.1, p.2) :=
  if_neg h

/-- The induction is on the text before the mark; the mark begins at none of its characters. -/
theorem cut_append (hmark : mark ≠ [])
    (h : ∀ zs, zs ≠ [] → zs <:+ xs → ¬ mark <+: zs ++ (mark ++ ys)) :
    cut mark (xs ++ (mark ++ ys)) = some (xs, ys) := by
  induction xs with
  | nil => exact cut_mark hmark ys
  | cons x xs ih =>
    have hx : ¬ mark <+: x :: (xs ++ (mark ++ ys)) :=
      h (x :: xs) (List.cons_ne_nil x xs) List.suffix_rfl
    rw [List.cons_append, cut_cons hx,
      ih fun zs hne hzs => h zs hne (hzs.trans (List.suffix_cons x xs))]
    rfl

/-- A mark that begins in the text and ends behind it would hold the last character of the text. -/
theorem cut_append_of_absent (hmark : mark ≠ []) (hlast : ∀ c ∈ xs.getLast?, c ∉ mark)
    (habsent : ¬ mark <:+: xs) : cut mark (xs ++ (mark ++ ys)) = some (xs, ys) := by
  apply cut_append hmark
  intro zs hne hzs hbegins
  rcases List.prefix_or_prefix_of_prefix hbegins (List.prefix_append zs (mark ++ ys)) with
    hwithin | hacross
  · exact habsent (hwithin.isInfix.trans hzs.isInfix)
  · obtain ⟨pre, rfl⟩ := hzs
    apply hlast (zs.getLast hne)
    · simp [List.getLast?_append, List.getLast?_eq_some_getLast hne]
    · exact hacross.subset (List.getLast_mem hne)

end

/-- No `a` is followed by a `b`. -/
def Apart (a b : Char) (cs : List Char) : Prop := cs.IsChain fun x y => x = a → y ≠ b

namespace Apart

variable {a b : Char} {xs ys : List Char}

theorem absent (h : Apart a b xs) {mark : List Char} (hmark : [a, b] <:+: mark) :
    ¬ mark <:+: xs := by
  intro hxs
  have hpair := List.IsChain.infix h (hmark.trans hxs)
  simp at hpair

theorem append (hxs : Apart a b xs) (hys : Apart a b ys) (h : xs.getLast? ≠ some a) :
    Apart a b (xs ++ ys) := by
  refine List.isChain_append.mpr ⟨hxs, hys, fun x hx y _ hxa => ?_⟩
  subst hxa
  exact absurd hx h

theorem append' (hxs : Apart a b xs) (hys : Apart a b ys) (h : ys.head? ≠ some b) :
    Apart a b (xs ++ ys) := by
  refine List.isChain_append.mpr ⟨hxs, hys, fun x _ y hy _ hyb => ?_⟩
  subst hyb
  exact absurd hy h

end Apart

/-- The pair does not come about where the texts of literals are put together to a list. -/
structure Separable (a b : Char) : Prop where
  ne_blank : a ≠ ' '
  ne_opening : a ≠ '{'
  ne_minus : a ≠ '-'
  ne_comma : a ≠ ','
  ne_comma' : b ≠ ','
  ne_closing : b ≠ '}'

section
variable {a b : Char} (hab : Separable a b)
include hab

theorem apart_intercalate {items : List (List Char)} (h : ∀ item ∈ items, Apart a b item) :
    Apart a b ([',', ' '].intercalate items) := by
  induction items with
  | nil => exact .nil
  | cons item items ih =>
    cases items with
    | nil =>
      rw [List.intercalate_singleton]
      exact h item List.mem_cons_self
    | cons item' items =>
      have hcomma : Apart a b [',', ' '] := by
        simp [Apart, hab.ne_comma.symm]
      have hrest := ih fun item hitem => h item (List.mem_cons_of_mem _ hitem)
      rw [List.intercalate_cons_cons, List.append_assoc]
      refine (h item List.mem_cons_self).append' (hcomma.append hrest ?_) ?_
      · simpa using hab.ne_blank.symm
      · simpa using hab.ne_comma'.symm

theorem apart_braced {items : List (List Char)} (h : ∀ item ∈ items, Apart a b item) :
    Apart a b (braced items) := by
  have hopening : Apart a b ['{'] := List.isChain_singleton _
  have hclosing : Apart a b ['}'] := List.isChain_singleton _
  refine (hopening.append (apart_intercalate hab h) ?_).append' hclosing ?_
  · simpa using hab.ne_opening.symm
  · simpa using hab.ne_closing.symm

end

theorem getLast?_braced (items : List (List Char)) : (braced items).getLast? = some '}' :=
  List.getLast?_concat

end Text

section
variable {a b : Char} (hab : Text.Separable a b)
include hab

theorem Literal.apart_chars (l : Literal) : Text.Apart a b l.chars := by
  unfold Literal.chars
  split
  · exact List.isChain_singleton _
  · simp [Text.Apart, hab.ne_minus.symm]

theorem Clause.apart_chars (c : Clause) : Text.Apart a b c.chars := by
  apply Text.apart_braced hab
  intro item hitem
  obtain ⟨l, _, rfl⟩ := List.mem_map.mp hitem
  exact l.apart_chars hab

end

end Clausal
