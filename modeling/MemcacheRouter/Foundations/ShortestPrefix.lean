import Mathlib.Algebra.BigOperators.Group.List.Basic
import Mathlib.Algebra.Order.Group.Defs
import Mathlib.Data.List.Infix

/-!
# The shortest prefix that exceeds a bound

Elements are taken from the front of a list until what they weigh together exceeds a bound, or the
list is empty. `exceeding` computes what is taken, by lowering the bound element by element, and
`IsExceeding` says it without a computation: no proper prefix exceeds the bound, and the prefix
itself does, unless it is the whole list. The weights may be negative, so that the sums over the
prefixes need not grow.
-/

namespace ShortestPrefix

variable {α M : Type*} [AddCommGroup M] [LinearOrder M] {f : α → M} {D : M} {l p q : List α}

/-- Take elements from the front until their sum exceeds the bound. -/
def exceeding (f : α → M) : M → List α → List α
  | _, [] => []
  | D, a :: l => a :: if D < f a then [] else exceeding f (D - f a) l

/-- `p` is the shortest prefix of `l` whose sum exceeds `D`, or all of `l` if no prefix does. -/
structure IsExceeding (f : α → M) (D : M) (l p : List α) : Prop where
  isPrefix : p <+: l
  le_of_proper : ∀ q, q <+: p → q ≠ p → (q.map f).sum ≤ D
  eq_or_lt : p = l ∨ D < (p.map f).sum

theorem exceeding_isPrefix (f : α → M) : ∀ (D : M) (l : List α), exceeding f D l <+: l := by
  intro D l
  induction l generalizing D with
  | nil => exact List.prefix_refl _
  | cons a l ih =>
    rw [exceeding, List.prefix_cons_inj]
    split_ifs
    · exact List.nil_prefix
    · exact ih _

theorem IsExceeding.eq (hp : IsExceeding f D l p) (hq : IsExceeding f D l q) : p = q := by
  -- one of the two is a prefix of the other, and a proper prefix neither exceeds the bound nor is
  -- the whole list
  have key : ∀ {p q : List α}, IsExceeding f D l p → IsExceeding f D l q → p <+: q → p = q := by
    intro p q hp hq hpq
    by_contra hne
    rcases hp.eq_or_lt with rfl | hlt
    · exact hne (hpq.eq_of_length_le hq.isPrefix.length_le)
    · exact absurd (hq.le_of_proper p hpq hne) (not_le.mpr hlt)
  rcases List.prefix_or_prefix_of_prefix hp.isPrefix hq.isPrefix with h | h
  · exact key hp hq h
  · exact (key hq hp h).symm

variable [IsOrderedAddMonoid M]

theorem isExceeding_exceeding (hD : 0 ≤ D) : IsExceeding f D l (exceeding f D l) := by
  induction l generalizing D with
  | nil =>
    refine ⟨List.prefix_refl _, fun q hq hne ↦ ?_, Or.inl rfl⟩
    exact absurd (List.prefix_nil.mp hq) hne
  | cons a l ih =>
    by_cases hlt : D < f a
    · have htake : exceeding f D (a :: l) = [a] := by rw [exceeding, if_pos hlt]
      rw [htake]
      refine ⟨⟨l, rfl⟩, fun q hq hne ↦ ?_, Or.inr (by simpa using hlt)⟩
      rcases List.prefix_cons_iff.mp hq with rfl | ⟨t, rfl, ht⟩
      · simpa using hD
      · exact absurd (congrArg (a :: ·) (List.prefix_nil.mp ht)) hne
    · have htake : exceeding f D (a :: l) = a :: exceeding f (D - f a) l := by
        rw [exceeding, if_neg hlt]
      obtain ⟨hpre, hproper, hall⟩ := ih (sub_nonneg.mpr (not_lt.mp hlt))
      rw [htake]
      refine ⟨(List.prefix_cons_inj a).mpr hpre, fun q hq hne ↦ ?_, ?_⟩
      · rcases List.prefix_cons_iff.mp hq with rfl | ⟨t, rfl, ht⟩
        · simpa using hD
        · have hle := hproper t ht fun heq ↦ hne (congrArg (a :: ·) heq)
          rw [List.map_cons, List.sum_cons]
          exact add_le_of_le_sub_left hle
      · rw [List.map_cons, List.sum_cons]
        exact hall.imp (congrArg (a :: ·)) sub_lt_iff_lt_add'.mp

/-- **What is computed is what is meant.** -/
theorem isExceeding_iff (hD : 0 ≤ D) : IsExceeding f D l p ↔ p = exceeding f D l := by
  constructor
  · exact fun h ↦ h.eq (isExceeding_exceeding hD)
  · rintro rfl
    exact isExceeding_exceeding hD

end ShortestPrefix
