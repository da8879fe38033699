import Mathlib.Logic.Function.Basic

/-!
# Maps that may forget

The abstract reading of a cache: a partial map `f : α → Option β` whose updates may drop any other
entry at any time, but never change one. `Put f k v g` says that `g` is such a map after `v` was
stored at `k`, and `Forall R f` that everything `f` still remembers satisfies `R`. A property of
remembered entries survives a `Put` as soon as the new entry has it, whatever was dropped.
-/

namespace LossyMap

variable {α β : Type*} {f g : α → Option β} {k : α} {v : Option β} {R S : α → β → Prop}

/-- `g` is `f` after `v` was stored at `k`, possibly with other entries forgotten. -/
structure Put (f : α → Option β) (k : α) (v : Option β) (g : α → Option β) : Prop where
  same : g k = v
  other : ∀ j ≠ k, g j = none ∨ g j = f j

/-- Every remembered entry satisfies `R`. -/
def Forall (R : α → β → Prop) (f : α → Option β) : Prop := ∀ k e, f k = some e → R k e

namespace Forall

/-- **Storing an entry.** The property may change at the key that is stored, nowhere else. -/
theorem put (h : Forall R f) (hput : Put f k v g) (hRS : ∀ j ≠ k, ∀ e, R j e → S j e)
    (hv : ∀ e, v = some e → S k e) : Forall S g := by
  intro j e hj
  by_cases hjk : j = k
  · subst hjk
    exact hv e (hput.same.symm.trans hj)
  · rcases hput.other j hjk with hnone | hsame
    · rw [hnone] at hj
      cases hj
    · exact hRS j hjk e (h j e (hsame.symm.trans hj))

end Forall

end LossyMap
