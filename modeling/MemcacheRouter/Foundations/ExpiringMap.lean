import Mathlib.Data.Nat.Notation
import Mathlib.Logic.Function.Basic
import Mathlib.Tactic.SplitIfs

/-!
# Maps whose entries expire

A map with a clock. An entry has the token of the write that made it, and may have a time at which
it expires. A write can ask that the entry has a certain token, or that there is none.

None of this looks at the values. So two maps with values of different types stay related, entry by
entry, if they are written alike (`Rel.store`, `Rel.tick`), and find related entries
(`Rel.find`).
-/

variable {κ ν ν' : Type*}

/-- A value with the token of its write, and the time at which it expires. -/
structure ExpiringMap.Entry (ν : Type*) where
  value : ν
  token : ℕ
  exptime : Option ℕ := none

/-- A map with a clock and a counter for tokens. -/
structure ExpiringMap (κ ν : Type*) where
  entries : κ → Option (ExpiringMap.Entry ν) := fun _ ↦ none
  now : ℕ := 0
  nextToken : ℕ := 1

namespace ExpiringMap

/-- The entry of a key, if it has not expired. -/
def find (m : ExpiringMap κ ν) (k : κ) : Option (Entry ν) :=
  (m.entries k).filter fun e ↦ e.exptime.all (m.now < ·)

/-- A write under these conditions is allowed. Token 0 stands for any entry or none. -/
def allows (m : ExpiringMap κ ν) (k : κ) (token : ℕ) (replace : Bool) : Bool :=
  if 0 < token then (m.find k).any (·.token = token) else replace || (m.find k).isNone

/-- A write that is allowed. -/
def assign [DecidableEq κ] (m : ExpiringMap κ ν) (k : κ) (v : ν) (exptime : Option ℕ) :
    ExpiringMap κ ν :=
  { m with
    entries := Function.update m.entries k (some ⟨v, m.nextToken, exptime⟩)
    nextToken := m.nextToken + 1 }

/-- A write. -/
def store [DecidableEq κ] (m : ExpiringMap κ ν) (k : κ) (v : ν) (exptime : Option ℕ) (token : ℕ)
    (replace : Bool) : ExpiringMap κ ν :=
  if m.allows k token replace then m.assign k v exptime else m

/-- The passage of time. -/
def tick (m : ExpiringMap κ ν) (n : ℕ) : ExpiringMap κ ν := { m with now := m.now + n }

/-- Entries of the same write, with related values. -/
structure Entry.Rel (R : ν → ν' → Prop) (e : Entry ν) (e' : Entry ν') : Prop where
  value : R e.value e'.value
  token : e'.token = e.token
  exptime : e'.exptime = e.exptime

/-- Maps that were written alike, with related values. -/
structure Rel (R : ν → ν' → Prop) (m : ExpiringMap κ ν) (m' : ExpiringMap κ ν') : Prop where
  entries : ∀ k, Option.Rel (Entry.Rel R) (m.entries k) (m'.entries k)
  now : m'.now = m.now
  nextToken : m'.nextToken = m.nextToken

variable {R : ν → ν' → Prop} {m : ExpiringMap κ ν} {m' : ExpiringMap κ ν'}

/-- **Related maps find related entries.** -/
theorem Rel.find (h : Rel R m m') (k : κ) : Option.Rel (Entry.Rel R) (m.find k) (m'.find k) := by
  have hk := h.entries k
  rw [ExpiringMap.find, ExpiringMap.find, h.now]
  generalize m.entries k = o, m'.entries k = o' at hk
  rcases hk with he | _
  · rw [Option.filter_some, Option.filter_some, he.exptime]
    split_ifs
    · exact .some he
    · exact .none
  · exact .none

theorem Rel.allows (h : Rel R m m') (k : κ) (token : ℕ) (replace : Bool) :
    m'.allows k token replace = m.allows k token replace := by
  have hk := h.find k
  rw [ExpiringMap.allows, ExpiringMap.allows]
  generalize m.find k = o, m'.find k = o' at hk
  rcases hk with he | _
  · rw [Option.any_some, Option.any_some, he.token]
    rfl
  · rfl

variable [DecidableEq κ]

/-- **Related maps that are written alike stay related.** -/
theorem Rel.store (h : Rel R m m') {v : ν} {v' : ν'} (hv : R v v') (k : κ) (exptime : Option ℕ)
    (token : ℕ) (replace : Bool) :
    Rel R (m.store k v exptime token replace) (m'.store k v' exptime token replace) := by
  rw [ExpiringMap.store, ExpiringMap.store, h.allows]
  split_ifs
  · refine ⟨fun j ↦ ?_, h.now, congrArg (· + 1) h.nextToken⟩
    dsimp only [assign]
    by_cases hj : j = k
    · rw [hj, Function.update_self, Function.update_self]
      exact .some ⟨hv, h.nextToken, rfl⟩
    · rw [Function.update_of_ne hj, Function.update_of_ne hj]
      exact h.entries j
  · exact h

omit [DecidableEq κ] in
theorem Rel.tick (h : Rel R m m') (n : ℕ) : Rel R (m.tick n) (m'.tick n) :=
  ⟨h.entries, congrArg (· + n) h.now, h.nextToken⟩

end ExpiringMap
