import Mathlib.Data.List.Nodup
import Mathlib.Logic.ExistsUnique

/-!
# Things in places

Every thing is in exactly one place, and there only once. Moving things from one place to another
keeps it so, and so does a new thing that is put somewhere. The things of a place are in order, but
moving does not depend on it, so the lemmas ask for permutations only.
-/

/-- The things in `all` are distributed over places, each in exactly one of them. -/
structure Placed {ι α : Type*} (H : ι → List α) (all : List α) : Prop where
  nodup : ∀ p, (H p).Nodup
  disjoint : ∀ p q a, a ∈ H p → a ∈ H q → p = q
  mem_iff : ∀ a, a ∈ all ↔ ∃ p, a ∈ H p

namespace Placed

variable {ι α : Type*} {H H' : ι → List α} {all : List α} {a : α}

theorem existsUnique (h : Placed H all) (ha : a ∈ all) : ∃! p, a ∈ H p := by
  obtain ⟨p, hp⟩ := (h.mem_iff a).mp ha
  exact ⟨p, hp, fun q hq ↦ h.disjoint q p a hq hp⟩

/-- **Moving things.** -/
theorem move (h : Placed H all) (src dst : ι) (xs ys : List α) (hne : src ≠ dst)
    (hsrc : (H src).Perm (xs ++ ys)) (hsrc' : (H' src).Perm ys) (hdst : (H' dst).Perm (H dst ++ xs))
    (hother : ∀ p, p ≠ src → p ≠ dst → H' p = H p) : Placed H' all := by
  have hsplit : (xs ++ ys).Nodup := hsrc.nodup_iff.mp (h.nodup src)
  -- what is in a place now was there before, or came from the source
  have hmem : ∀ p a, a ∈ H' p ↔ (p ≠ src ∧ a ∈ H p) ∨ (p = src ∧ a ∈ ys) ∨ (p = dst ∧ a ∈ xs) := by
    intro p a
    by_cases hp : p = src
    · subst hp
      rw [hsrc'.mem_iff]
      simp [hne]
    · by_cases hp' : p = dst
      · subst hp'
        rw [hdst.mem_iff, List.mem_append]
        simp [hp]
      · rw [hother p hp hp']
        simp [hp, hp']
  have hxs : ∀ a ∈ xs, a ∈ H src := fun a ha ↦ hsrc.mem_iff.mpr (List.mem_append_left _ ha)
  have hys : ∀ a ∈ ys, a ∈ H src := fun a ha ↦ hsrc.mem_iff.mpr (List.mem_append_right _ ha)
  have hxy : ∀ a ∈ xs, a ∉ ys := fun a ha ↦ List.disjoint_of_nodup_append hsplit ha
  refine ⟨fun p ↦ ?_, fun p q a hp hq ↦ ?_, fun a ↦ ?_⟩
  · by_cases hp : p = src
    · rw [hp, hsrc'.nodup_iff]
      exact hsplit.of_append_right
    · by_cases hp' : p = dst
      · rw [hp', hdst.nodup_iff]
        refine List.nodup_append'.mpr ⟨h.nodup dst, hsplit.of_append_left, fun a hd hx ↦ ?_⟩
        exact hne (h.disjoint src dst a (hxs a hx) hd)
      · rw [hother p hp hp']
        exact h.nodup p
  · rw [hmem] at hp hq
    rcases hp with ⟨hp, hpa⟩ | ⟨rfl, hpa⟩ | ⟨rfl, hpa⟩ <;>
      rcases hq with ⟨hq, hqa⟩ | ⟨rfl, hqa⟩ | ⟨rfl, hqa⟩
    · exact h.disjoint p q a hpa hqa
    · exact absurd (h.disjoint p q a hpa (hys a hqa)) hp
    · exact absurd (h.disjoint p src a hpa (hxs a hqa)) hp
    · exact absurd (h.disjoint q p a hqa (hys a hpa)) hq
    · rfl
    · exact absurd hpa (hxy a hqa)
    · exact absurd (h.disjoint q src a hqa (hxs a hpa)) hq
    · exact absurd hqa (hxy a hpa)
    · rfl
  · rw [h.mem_iff]
    constructor
    · rintro ⟨p, hp⟩
      by_cases hsrc₀ : p = src
      · subst hsrc₀
        rcases List.mem_append.mp (hsrc.mem_iff.mp hp) with hx | hy
        · exact ⟨dst, (hmem dst a).mpr (Or.inr (Or.inr ⟨rfl, hx⟩))⟩
        · exact ⟨p, (hmem p a).mpr (Or.inr (Or.inl ⟨rfl, hy⟩))⟩
      · exact ⟨p, (hmem p a).mpr (Or.inl ⟨hsrc₀, hp⟩)⟩
    · rintro ⟨p, hp⟩
      rcases (hmem p a).mp hp with ⟨-, hp⟩ | ⟨-, hy⟩ | ⟨-, hx⟩
      · exact ⟨p, hp⟩
      · exact ⟨src, hys a hy⟩
      · exact ⟨src, hxs a hx⟩

/-- **A new thing.** -/
theorem add (h : Placed H all) (ha : a ∉ all) (dst : ι) (hdst : (H' dst).Perm (a :: H dst))
    (hother : ∀ p ≠ dst, H' p = H p) : Placed H' (all ++ [a]) := by
  have hnew : ∀ p, a ∉ H p := fun p hp ↦ ha ((h.mem_iff a).mpr ⟨p, hp⟩)
  have hmem : ∀ p b, b ∈ H' p ↔ b ∈ H p ∨ (p = dst ∧ b = a) := by
    intro p b
    by_cases hp : p = dst
    · subst hp
      rw [hdst.mem_iff, List.mem_cons]
      simp [or_comm]
    · rw [hother p hp]
      simp [hp]
  refine ⟨fun p ↦ ?_, fun p q b hp hq ↦ ?_, fun b ↦ ?_⟩
  · by_cases hp : p = dst
    · rw [hp, hdst.nodup_iff]
      exact List.nodup_cons.mpr ⟨hnew dst, h.nodup dst⟩
    · rw [hother p hp]
      exact h.nodup p
  · rw [hmem] at hp hq
    rcases hp with hp | ⟨rfl, rfl⟩ <;> rcases hq with hq | ⟨rfl, hqa⟩
    · exact h.disjoint p q b hp hq
    · exact absurd (hqa ▸ hp) (hnew p)
    · exact absurd hq (hnew q)
    · rfl
  · simp only [List.mem_append, List.mem_singleton, h.mem_iff, hmem]
    constructor
    · rintro (⟨p, hp⟩ | rfl)
      · exact ⟨p, Or.inl hp⟩
      · exact ⟨dst, Or.inr ⟨rfl, rfl⟩⟩
    · rintro ⟨p, hp | ⟨-, rfl⟩⟩
      · exact Or.inl ⟨p, hp⟩
      · exact Or.inr rfl

end Placed
