import Mathlib.Algebra.BigOperators.Group.Finset.Piecewise
import MemcacheRouter.Foundations.Transition

/-!
# Objects behind locks

Threads call operations on a family of objects. An operation takes the lock of its object, runs one
statement after the other on it and releases the lock; between any two statements of one thread,
the others may run theirs. A statement may also change a part of the state that has no lock, as an
atomic counter has none.

The operations are atomic nevertheless. Take them in the order in which they release their locks,
which for each of them is between its call and its return: one after the other, without any
interleaving, they compute the same results and leave the same objects (`linearized_of_run`).
-/

open Transition

namespace Locking

variable {ι T σ γ Op Loc Res : Type}

/-- Operations on a family of objects. -/
structure Objects (ι σ γ Op Loc Res : Type) where
  target : Op → ι
  /-- The first statement. -/
  entry : Op → Loc
  /-- One statement: the object afterwards, what it does to the part without a lock, and the next
  statement or the result. There is none if the statement faults. -/
  statement : Op → Loc → σ → Option (σ × (γ → γ) × (Loc ⊕ Res))

/-- Where a thread is. -/
inductive Thread (Op Loc Res : Type) where
  | idle
  | waiting (op : Op)
  /-- In the critical section, with what there is left to do or the result. -/
  | inside (op : Op) (next : Loc ⊕ Res)

structure State (ι T σ γ Op Loc Res : Type) where
  objects : ι → σ
  free : γ
  holder : ι → Option T := fun _ ↦ none
  threads : T → Thread Op Loc Res := fun _ ↦ .idle
  /-- The operations that have released their lock, with their results. -/
  history : List (Op × Res) := []

inductive Label (T Op : Type) where
  | call (t : T) (op : Op)
  | acquire (t : T)
  | run (t : T)
  | release (t : T)

/-! ## One operation after the other -/

variable [DecidableEq ι] (O : Objects ι σ γ Op Loc Res)

/-- What the statements of an operation do, if nobody interferes. -/
inductive Reach (op : Op) (x : σ) : Loc ⊕ Res → σ → Prop
  | entry : Reach op x (.inl (O.entry op)) x
  | step {loc : Loc} {next : Loc ⊕ Res} {f : γ → γ} {y z : σ} (h : Reach op x (.inl loc) y)
      (hs : O.statement op loc y = some (z, f, next)) : Reach op x next z

/-- An operation from its first statement to its last as one step. -/
def Atomic (x : ι → σ) (r : Op × Res) (x' : ι → σ) : Prop :=
  ∃ y, Reach O r.1 (x (O.target r.1)) (.inr r.2) y ∧ x' = Function.update x (O.target r.1) y

/-- A state and the objects after the operations of its history, one after the other. -/
structure Linearized (x₀ : ι → σ) (s : State ι T σ γ Op Loc Res) (x : ι → σ) : Prop where
  run : Run (Atomic O) x₀ s.history x
  /-- An object is as the history left it, unless somebody is at work on it. -/
  objects : ∀ i, s.holder i = none → s.objects i = x i
  /-- The thread that holds a lock has done a part of its operation. -/
  holder : ∀ i t, s.holder i = some t → ∃ op next, s.threads t = .inside op next ∧
    O.target op = i ∧ Reach O op (x i) next (s.objects i)
  /-- A thread in its critical section holds the lock. -/
  inside : ∀ t op next, s.threads t = .inside op next → s.holder (O.target op) = some t

variable {O} {x₀ x : ι → σ} {s s' : State ι T σ γ Op Loc Res} {l : Label T Op}

theorem linearized_init (x₀ : ι → σ) (free : γ) :
    Linearized O x₀ ({ objects := x₀, free := free } : State ι T σ γ Op Loc Res) x₀ where
  run := Run.nil x₀
  objects _ _ := rfl
  holder _ _ h := nomatch h
  inside _ _ _ h := nomatch h

/-- A thread that is not in its critical section holds no lock. -/
theorem Linearized.ne_of_holder (h : Linearized O x₀ s x) {i : ι} {t t' : T}
    (hi : s.holder i = some t') (ht : ∀ op next, s.threads t ≠ .inside op next) : t' ≠ t := by
  rintro rfl
  obtain ⟨op, next, hin, -⟩ := h.holder i t' hi
  exact ht op next hin

/-- A thread holds one lock. -/
theorem Linearized.target_eq (h : Linearized O x₀ s x) {i : ι} {t : T} {op : Op}
    {next : Loc ⊕ Res} (hi : s.holder i = some t) (ht : s.threads t = .inside op next) :
    O.target op = i := by
  obtain ⟨op', next', hin, htarget, -⟩ := h.holder i t hi
  rw [ht] at hin
  cases hin
  exact htarget

/-! ## Interleavings -/

variable [DecidableEq T]

/-- The steps of a thread. -/
def step (O : Objects ι σ γ Op Loc Res) (s : State ι T σ γ Op Loc Res) :
    Label T Op → Option (State ι T σ γ Op Loc Res)
  | .call t op =>
    match s.threads t with
    | .idle => some { s with threads := Function.update s.threads t (.waiting op) }
    | _ => none
  | .acquire t =>
    match s.threads t with
    | .waiting op =>
      match s.holder (O.target op) with
      | none => some { s with
          holder := Function.update s.holder (O.target op) (some t)
          threads := Function.update s.threads t (.inside op (.inl (O.entry op))) }
      | some _ => none
    | _ => none
  | .run t =>
    match s.threads t with
    | .inside op (.inl loc) =>
      (O.statement op loc (s.objects (O.target op))).map fun r ↦ { s with
        objects := Function.update s.objects (O.target op) r.1
        free := r.2.1 s.free
        threads := Function.update s.threads t (.inside op r.2.2) }
    | _ => none
  | .release t =>
    match s.threads t with
    | .inside op (.inr res) => some { s with
        holder := Function.update s.holder (O.target op) none
        threads := Function.update s.threads t .idle
        history := s.history ++ [(op, res)] }
    | _ => none

/-- What a step can do. -/
inductive Moves (O : Objects ι σ γ Op Loc Res) (s : State ι T σ γ Op Loc Res) :
    State ι T σ γ Op Loc Res → Prop
  | call (t : T) (op : Op) (ht : s.threads t = .idle) :
      Moves O s { s with threads := Function.update s.threads t (.waiting op) }
  | acquire (t : T) (op : Op) (ht : s.threads t = .waiting op)
      (hfree : s.holder (O.target op) = none) :
      Moves O s { s with
        holder := Function.update s.holder (O.target op) (some t)
        threads := Function.update s.threads t (.inside op (.inl (O.entry op))) }
  | run (t : T) (op : Op) (loc : Loc) (z : σ) (f : γ → γ) (next : Loc ⊕ Res)
      (ht : s.threads t = .inside op (.inl loc))
      (hs : O.statement op loc (s.objects (O.target op)) = some (z, f, next)) :
      Moves O s { s with
        objects := Function.update s.objects (O.target op) z
        free := f s.free
        threads := Function.update s.threads t (.inside op next) }
  | release (t : T) (op : Op) (res : Res) (ht : s.threads t = .inside op (.inr res)) :
      Moves O s { s with
        holder := Function.update s.holder (O.target op) none
        threads := Function.update s.threads t .idle
        history := s.history ++ [(op, res)] }

theorem moves_of_step (h : step O s l = some s') : Moves O s s' := by
  rcases l with ⟨t, op⟩ | t | t | t <;> simp only [step] at h <;> split at h <;>
    try cases h
  · exact .call t op ‹_›
  · split at h
    · exact Option.some.inj h ▸ .acquire t _ ‹_› ‹_›
    · cases h
  · obtain ⟨⟨z, f, next⟩, hs, rfl⟩ := Option.map_eq_some_iff.mp h
    exact .run t _ _ z f next ‹_› hs
  · exact .release t _ _ ‹_›

theorem Linearized.call (h : Linearized O x₀ s x) {t : T} (op : Op) (ht : s.threads t = .idle) :
    Linearized O x₀ { s with threads := Function.update s.threads t (.waiting op) } x where
  run := h.run
  objects := h.objects
  holder i t' hi := by
    have hne : t' ≠ t := h.ne_of_holder hi fun _ _ hin ↦ nomatch ht.symm.trans hin
    obtain ⟨op', next, hin, hreach⟩ := h.holder i t' hi
    exact ⟨op', next, (Function.update_of_ne hne _ _).trans hin, hreach⟩
  inside t' op' next hin := by
    by_cases htt : t' = t
    · subst htt
      simp at hin
    · exact h.inside t' op' next ((Function.update_of_ne htt _ _).symm.trans hin)

theorem Linearized.acquire (h : Linearized O x₀ s x) {t : T} {op : Op}
    (ht : s.threads t = .waiting op) (hfree : s.holder (O.target op) = none) :
    Linearized O x₀ { s with
      holder := Function.update s.holder (O.target op) (some t)
      threads := Function.update s.threads t (.inside op (.inl (O.entry op))) } x where
  run := h.run
  objects i hi := by
    by_cases hit : i = O.target op
    · simp [hit] at hi
    · exact h.objects i ((Function.update_of_ne hit _ _).symm.trans hi)
  holder i t' hi := by
    by_cases hit : i = O.target op
    · subst hit
      obtain rfl : t = t' := by simpa using hi
      refine ⟨op, .inl (O.entry op), Function.update_self .., rfl, ?_⟩
      -- nobody was inside, so the object is as the sequential run has it
      have hx : s.objects (O.target op) = x (O.target op) := h.objects _ hfree
      dsimp only
      rw [hx]
      exact .entry
    · have hi' : s.holder i = some t' := (Function.update_of_ne hit _ _).symm.trans hi
      have hne : t' ≠ t := h.ne_of_holder hi' fun _ _ hin ↦ nomatch ht.symm.trans hin
      obtain ⟨op', next, hin, hreach⟩ := h.holder i t' hi'
      exact ⟨op', next, (Function.update_of_ne hne _ _).trans hin, hreach⟩
  inside t' op' next hin := by
    by_cases htt : t' = t
    · subst htt
      obtain ⟨rfl, -⟩ : op = op' ∧ .inl (O.entry op) = next := by simpa using hin
      exact Function.update_self ..
    · have hold := h.inside t' op' next ((Function.update_of_ne htt _ _).symm.trans hin)
      have hne : O.target op' ≠ O.target op := by
        intro heq
        rw [heq, hfree] at hold
        cases hold
      exact (Function.update_of_ne hne _ _).trans hold

theorem Linearized.runStep (h : Linearized O x₀ s x) {t : T} {op : Op} {loc : Loc} {z : σ}
    {f : γ → γ} {next : Loc ⊕ Res} (ht : s.threads t = .inside op (.inl loc))
    (hs : O.statement op loc (s.objects (O.target op)) = some (z, f, next)) :
    Linearized O x₀ { s with
      objects := Function.update s.objects (O.target op) z
      free := f s.free
      threads := Function.update s.threads t (.inside op next) } x where
  run := h.run
  objects i hi := by
    have hne : i ≠ O.target op := by
      rintro rfl
      have hold := h.inside t op _ ht
      dsimp only at hi
      rw [hold] at hi
      cases hi
    exact (Function.update_of_ne hne _ _).trans (h.objects i hi)
  holder i t' hi := by
    obtain ⟨op', next', hin, htarget, hreach⟩ := h.holder i t' hi
    by_cases htt : t' = t
    · subst htt
      rw [ht] at hin
      cases hin
      subst htarget
      refine ⟨op, next, Function.update_self .., rfl, ?_⟩
      dsimp only
      rw [Function.update_self]
      exact hreach.step hs
    · have hne : i ≠ O.target op := by
        rintro rfl
        have hold := h.inside t op _ ht
        exact htt (Option.some.inj (hi.symm.trans hold))
      refine ⟨op', next', (Function.update_of_ne htt _ _).trans hin, htarget, ?_⟩
      dsimp only
      rwa [Function.update_of_ne hne]
  inside t' op' next' hin := by
    by_cases htt : t' = t
    · subst htt
      obtain ⟨rfl, -⟩ : op = op' ∧ next = next' := by simpa using hin
      exact h.inside t' op _ ht
    · exact h.inside t' op' next' ((Function.update_of_ne htt _ _).symm.trans hin)

theorem Linearized.release (h : Linearized O x₀ s x) {t : T} {op : Op} {res : Res}
    (ht : s.threads t = .inside op (.inr res)) :
    Linearized O x₀ { s with
      holder := Function.update s.holder (O.target op) none
      threads := Function.update s.threads t .idle
      history := s.history ++ [(op, res)] }
      (Function.update x (O.target op) (s.objects (O.target op))) where
  run := by
    refine h.run.snoc ⟨s.objects (O.target op), ?_, rfl⟩
    -- the call takes its place in the sequential run when it gives the mutex back
    obtain ⟨op', next', hin, -, hreach⟩ := h.holder _ t (h.inside t op _ ht)
    rw [ht] at hin
    cases hin
    exact hreach
  objects i hi := by
    by_cases hit : i = O.target op
    · subst hit
      rw [Function.update_self]
    · rw [Function.update_of_ne hit]
      exact h.objects i ((Function.update_of_ne hit _ _).symm.trans hi)
  holder i t' hi := by
    have hit : i ≠ O.target op := by
      rintro rfl
      simp at hi
    have hi' : s.holder i = some t' := (Function.update_of_ne hit _ _).symm.trans hi
    have hne : t' ≠ t := by
      rintro rfl
      exact hit (h.target_eq hi' ht).symm
    obtain ⟨op', next', hin, htarget, hreach⟩ := h.holder i t' hi'
    refine ⟨op', next', (Function.update_of_ne hne _ _).trans hin, htarget, ?_⟩
    rwa [Function.update_of_ne hit]
  inside t' op' next' hin := by
    by_cases htt : t' = t
    · subst htt
      simp at hin
    · have hold := h.inside t' op' next' ((Function.update_of_ne htt _ _).symm.trans hin)
      have hne : O.target op' ≠ O.target op := by
        intro heq
        rw [heq, h.inside t op _ ht] at hold
        exact htt (Option.some.inj hold).symm
      exact (Function.update_of_ne hne _ _).trans hold

theorem Linearized.moves (h : Linearized O x₀ s x) (hs : Moves O s s') :
    ∃ x', Linearized O x₀ s' x' := by
  rcases hs with ⟨t, op, ht⟩ | ⟨t, op, ht, hfree⟩ | ⟨t, op, loc, z, f, next, ht, hs⟩ |
    ⟨t, op, res, ht⟩
  · exact ⟨x, h.call op ht⟩
  · exact ⟨x, h.acquire ht hfree⟩
  · exact ⟨x, h.runStep ht hs⟩
  · exact ⟨_, h.release ht⟩

/-- **Operations behind locks are atomic.** After any interleaving, the operations that have
released their lock have computed what they compute one after the other, and the objects nobody is
at work on are as they leave them. -/
theorem linearized_of_run {free : γ} {ls : List (Label T Op)}
    (h : Run (StepOf (step O)) { objects := x₀, free := free } ls s) : ∃ x, Linearized O x₀ s x :=
  h.invariant (I := fun s ↦ ∃ x, Linearized O x₀ s x) ⟨x₀, linearized_init x₀ free⟩
    fun _ _ _ ⟨_, hx⟩ hstep ↦ hx.moves (moves_of_step hstep)

end Locking
