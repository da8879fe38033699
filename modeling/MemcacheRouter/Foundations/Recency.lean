import Mathlib.Data.List.Basic

/-!
# Order of last access

A log lists accesses in the order in which they happened, and the time of an access is its position
in the log. A list that is kept by moving what is accessed to the back, and by dropping what one
likes, is in the strict order of the last accesses, and the last one accessed is at its back
(`Recent`). Several lists can share one log: a list is only concerned by the accesses to which its
predicate `p` applies.
-/

namespace Recency

variable {α : Type*} [DecidableEq α] {p : α → Bool} {log l l' l₁ l₂ : List α} {a b : α}

/-- The time of the last access, counted from one; zero if there was none. -/
def lastAccess (log : List α) (a : α) : ℕ := log.length - log.reverse.idxOf a

theorem lastAccess_concat_self (log : List α) (a : α) :
    lastAccess (log ++ [a]) a = log.length + 1 := by
  rw [lastAccess, List.reverse_append, List.reverse_singleton, List.singleton_append,
    List.idxOf_cons_self, List.length_append, List.length_singleton, Nat.sub_zero]

theorem lastAccess_concat_of_ne (log : List α) (h : b ≠ a) :
    lastAccess (log ++ [b]) a = lastAccess log a := by
  rw [lastAccess, List.reverse_append, List.reverse_singleton, List.singleton_append,
    List.idxOf_cons_ne _ h, List.length_append, List.length_singleton, Nat.add_sub_add_right,
    lastAccess]

theorem lastAccess_le_length (log : List α) (a : α) : lastAccess log a ≤ log.length :=
  Nat.sub_le _ _

/-- The list holds accessed elements in the strict order of their last accesses, and the element of
the latest access is at its back. -/
structure Recent (p : α → Bool) (log l : List α) : Prop where
  concerned : ∀ a ∈ l, p a = true
  accessed : ∀ a ∈ l, a ∈ log
  ordered : l.Pairwise fun a b ↦ lastAccess log a < lastAccess log b
  back : l.getLast? = (log.filter p).getLast?

theorem recent_nil (p : α → Bool) : Recent p [] [] where
  concerned := by simp
  accessed := by simp
  ordered := List.Pairwise.nil
  back := rfl

/-- **An access**: what is dropped is dropped first, and what is accessed goes to the back. -/
theorem Recent.access (h : Recent p log l) (hsub : l'.Sublist l) (ha : p a = true) :
    Recent p (log ++ [a]) (l'.filter (· ≠ a) ++ [a]) := by
  have hkept : ∀ b ∈ l'.filter (· ≠ a), b ∈ l ∧ b ≠ a := by
    intro b hb
    obtain ⟨hb, hne⟩ := List.mem_filter.mp hb
    exact ⟨hsub.subset hb, of_decide_eq_true hne⟩
  refine ⟨?_, ?_, ?_, ?_⟩
  · intro b hb
    rcases List.mem_append.mp hb with hb | hb
    · exact h.concerned b (hkept b hb).1
    · exact List.mem_singleton.mp hb ▸ ha
  · intro b hb
    rcases List.mem_append.mp hb with hb | hb
    · exact List.mem_append_left _ (h.accessed b (hkept b hb).1)
    · exact List.mem_append_right _ hb
  · refine List.pairwise_append.mpr ⟨?_, List.pairwise_singleton _ _, ?_⟩
    · have hsub' : (l'.filter (· ≠ a)).Sublist l := List.filter_sublist.trans hsub
      refine (h.ordered.sublist hsub').imp_of_mem fun {b c} hb hc hlt ↦ ?_
      rwa [lastAccess_concat_of_ne _ (hkept b hb).2.symm,
        lastAccess_concat_of_ne _ (hkept c hc).2.symm]
    · intro b hb c hc
      rw [List.mem_singleton.mp hc, lastAccess_concat_self,
        lastAccess_concat_of_ne _ (hkept b hb).2.symm]
      exact Nat.lt_succ_of_le (lastAccess_le_length log b)
  · rw [List.filter_append, List.filter_singleton, ha]
    simp

/-- An access that does not concern the list. -/
theorem Recent.skip (h : Recent p log l) (ha : p a = false) : Recent p (log ++ [a]) l := by
  have hne : ∀ b ∈ l, a ≠ b := by
    rintro b hb rfl
    rw [h.concerned a hb] at ha
    cases ha
  refine ⟨h.concerned, fun b hb ↦ List.mem_append_left _ (h.accessed b hb), ?_, ?_⟩
  · refine h.ordered.imp_of_mem fun {b c} hb hc hlt ↦ ?_
    rwa [lastAccess_concat_of_ne _ (hne b hb), lastAccess_concat_of_ne _ (hne c hc)]
  · rw [h.back, List.filter_append, List.filter_singleton, ha]
    simp

/-- **Dropping from the front drops the least recent.** -/
theorem Recent.lt_of_append (h : Recent p log (l₁ ++ l₂)) (ha : a ∈ l₁) (hb : b ∈ l₂) :
    lastAccess log a < lastAccess log b :=
  (List.pairwise_append.mp h.ordered).2.2 a ha b hb

end Recency
