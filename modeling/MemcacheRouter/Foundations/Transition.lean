import Mathlib.Algebra.BigOperators.Group.Finset.Basic
import Mathlib.Data.List.Induction

/-!
# Labelled runs

A transition system is given by a relation `Step s l t`: in state `s` the action `l` leads to `t`.
A run is the list of the actions it took, so that a statement can cut it at any moment, and the
last action is the outermost constructor, because the invariants below are all proved by asking
what the last action did.

`Guarded Step C` is the same system with the steps cut down to those that meet a condition `C` on
the state before them. A theorem about `Run (Guarded Step C)` is a theorem about the runs of
`Step` whose steps all meet `C`.
-/

namespace Transition

variable {σ ℓ : Type*} {Step : σ → ℓ → σ → Prop} {C : σ → ℓ → Prop}

/-- `Run Step s ls t`: the actions `ls`, in this order, lead from `s` to `t`. -/
inductive Run (Step : σ → ℓ → σ → Prop) : σ → List ℓ → σ → Prop
  | nil (s : σ) : Run Step s [] s
  | snoc {s t u : σ} {ls : List ℓ} {l : ℓ} :
      Run Step s ls t → Step t l u → Run Step s (ls ++ [l]) u

/-- The steps of a system that meet the condition `C` on the state before them. -/
def Guarded (Step : σ → ℓ → σ → Prop) (C : σ → ℓ → Prop) (s : σ) (l : ℓ) (t : σ) : Prop :=
  Step s l t ∧ C s l

/-- A relation that is the graph of a partial function on states and actions. -/
def Functional (Step : σ → ℓ → σ → Prop) : Prop :=
  ∀ ⦃s l t u⦄, Step s l t → Step s l u → t = u

namespace Run

variable {s t u : σ} {l : ℓ} {ls ms : List ℓ}

theorem of_nil (h : Run Step s [] t) : t = s := by
  generalize hnil : ([] : List ℓ) = ns at h
  cases h with
  | nil => rfl
  | snoc _ _ => simp at hnil

theorem single (h : Step s l t) : Run Step s [l] t := (Run.nil s).snoc h

theorem append (h₁ : Run Step s ls t) (h₂ : Run Step t ms u) : Run Step s (ls ++ ms) u := by
  induction h₂ with
  | nil => rwa [List.append_nil]
  | snoc _ hstep ih =>
    rw [← List.append_assoc]
    exact ih.snoc hstep

theorem cons (h : Step s l t) (h' : Run Step t ls u) : Run Step s (l :: ls) u :=
  (single h).append h'

/-- The last action of a run and the state it was taken in. -/
theorem of_concat (h : Run Step s (ls ++ [l]) u) : ∃ t, Run Step s ls t ∧ Step t l u := by
  generalize hms : ls ++ [l] = ms at h
  cases h with
  | nil => simp at hms
  | snoc hrun hstep =>
    obtain ⟨rfl, hl⟩ := List.append_inj' hms rfl
    obtain rfl : l = _ := by simpa using hl
    exact ⟨_, hrun, hstep⟩

/-- A run can be cut anywhere. -/
theorem of_append : ∀ {ms : List ℓ} {u : σ}, Run Step s (ls ++ ms) u →
    ∃ t, Run Step s ls t ∧ Run Step t ms u := by
  intro ms
  induction ms using List.reverseRecOn with
  | nil =>
    intro u h
    rw [List.append_nil] at h
    exact ⟨u, h, Run.nil u⟩
  | append_singleton ms l ih =>
    intro u h
    rw [← List.append_assoc] at h
    obtain ⟨v, hv, hstep⟩ := h.of_concat
    obtain ⟨t, ht, hrest⟩ := ih hv
    exact ⟨t, ht, hrest.snoc hstep⟩

/-- The first action of a run. -/
theorem of_cons (h : Run Step s (l :: ls) u) : ∃ t, Step s l t ∧ Run Step t ls u := by
  obtain ⟨t, ht, hrest⟩ := of_append (show Run Step s ([l] ++ ls) u from h)
  obtain ⟨v, hv, hstep⟩ := of_concat (show Run Step s ([] ++ [l]) t from ht)
  obtain rfl := hv.of_nil
  exact ⟨t, hstep, hrest⟩

/-- **The invariant rule.** What holds at the start and is kept by every step holds throughout. -/
theorem invariant {I : σ → Prop} (h : Run Step s ls t) (hinit : I s)
    (hstep : ∀ s l t, I s → Step s l t → I t) : I t := by
  induction h with
  | nil => exact hinit
  | snoc _ hst ih => exact hstep _ _ _ ih hst

/-- A run of a system is a run of every system that has its steps. -/
theorem mono {Step' : σ → ℓ → σ → Prop} (h : Run Step s ls t)
    (himp : ∀ s l t, Step s l t → Step' s l t) : Run Step' s ls t := by
  induction h with
  | nil => exact Run.nil _
  | snoc _ hst ih => exact ih.snoc (himp _ _ _ hst)

/-- **The measure rule.** If every step that a run can take lowers a measure then the run has at
most as many actions as the measure says at the start. -/
theorem length_add_le {μ : σ → ℕ} (h : Run Step s ls t)
    (hlower : ∀ ms u l v, Run Step s ms u → Step u l v → μ v < μ u) : ls.length + μ t ≤ μ s := by
  induction h with
  | nil => simp
  | snoc hrun hst ih =>
    have hlt := hlower _ _ _ _ hrun hst
    rw [List.length_append, List.length_singleton]
    omega

/-- Forgetting the condition. -/
theorem of_guarded (h : Run (Guarded Step C) s ls t) : Run Step s ls t :=
  h.mono fun _ _ _ hst ↦ hst.1

/-- Every action of the run met the condition in the state it was taken in. -/
theorem exists_guard (h : Run (Guarded Step C) s ls t) (hl : l ∈ ls) : ∃ u, C u l := by
  induction h with
  | nil => cases hl
  | snoc _ hst ih =>
    rcases List.mem_append.mp hl with hl | hl
    · exact ih hl
    · obtain rfl := List.mem_singleton.mp hl
      exact ⟨_, hst.2⟩

/-- A condition that the actions meet in every state. -/
theorem guarded_of_forall (h : Run Step s ls t) (hC : ∀ s, ∀ l ∈ ls, C s l) :
    Run (Guarded Step C) s ls t := by
  induction h with
  | nil => exact Run.nil _
  | snoc _ hst ih =>
    refine (ih fun s l hl ↦ hC s l (List.mem_append_left _ hl)).snoc ⟨hst, hC _ _ ?_⟩
    exact List.mem_append_right _ List.mem_cons_self

/-- In a functional system the actions determine the state. -/
theorem eq_of_functional (hf : Functional Step) (h₁ : Run Step s ls t) (h₂ : Run Step s ls u) :
    t = u := by
  induction h₁ generalizing u with
  | nil => exact h₂.of_nil.symm
  | snoc _ hst ih =>
    obtain ⟨v, hv, hst'⟩ := h₂.of_concat
    obtain rfl := ih hv
    exact hf hst hst'

/-- In a functional system, whether all steps of a run meet a condition is decided step by step. -/
theorem guarded_concat_iff (hf : Functional Step) (h : Run Step s ls t) (hst : Step t l u) :
    Run (Guarded Step C) s (ls ++ [l]) u ↔ Run (Guarded Step C) s ls t ∧ C t l := by
  constructor
  · intro hrun
    obtain ⟨v, hv, hstep⟩ := hrun.of_concat
    obtain rfl := eq_of_functional hf h hv.of_guarded
    exact ⟨hv, hstep.2⟩
  · rintro ⟨hrun, hC⟩
    exact hrun.snoc ⟨hst, hC⟩

end Run

/-- A sum of which one term has changed. -/
theorem sum_change {ι M : Type*} [DecidableEq ι] [AddCommMonoid M] {S : Finset ι} (f f' : ι → M)
    {i : ι} (hi : i ∈ S) (h : ∀ j ∈ S, j ≠ i → f' j = f j) :
    ∑ j ∈ S, f' j + f i = ∑ j ∈ S, f j + f' i := by
  have hrest : ∑ j ∈ S.erase i, f' j = ∑ j ∈ S.erase i, f j := by
    refine Finset.sum_congr rfl fun j hj ↦ ?_
    exact h j (Finset.mem_of_mem_erase hj) (Finset.ne_of_mem_erase hj)
  rw [← Finset.add_sum_erase S f hi, ← Finset.add_sum_erase S f' hi, hrest, add_right_comm,
    add_right_comm (f i), add_comm (f i)]

theorem sum_update {ι α M : Type*} [DecidableEq ι] [AddCommMonoid M] {S : Finset ι} (g : α → M)
    (f : ι → α) {i : ι} (hi : i ∈ S) (a : α) :
    ∑ j ∈ S, g (Function.update f i a j) + g (f i) = ∑ j ∈ S, g (f j) + g a := by
  have hsum := sum_change (fun j ↦ g (f j)) (fun j ↦ g (Function.update f i a j)) hi
    fun j _ hne ↦ congrArg g (Function.update_of_ne hne a f)
  rwa [Function.update_self] at hsum

/-! ## Histories -/

section Histories

variable {ω : Type*} (act : σ → ω → σ) (s₀ : σ)

/-- What has become of an object after the first `n` operations of its history. -/
def stateAt (ops : List ω) (n : ℕ) : σ := (ops.take n).foldl act s₀

/-- What comes later does not change what has been. -/
theorem stateAt_of_prefix {ops ops' : List ω} (h : ops <+: ops') {n : ℕ} (hn : n ≤ ops.length) :
    stateAt act s₀ ops' n = stateAt act s₀ ops n := by
  obtain ⟨later, rfl⟩ := h
  rw [stateAt, List.take_append_of_le_length hn]
  rfl

theorem stateAt_length (ops : List ω) : stateAt act s₀ ops ops.length = ops.foldl act s₀ := by
  rw [stateAt, List.take_length]

end Histories

/-! ## Executing a list of actions -/

/-- The graph of a partial step function. -/
def StepOf (step : σ → ℓ → Option σ) (s : σ) (l : ℓ) (t : σ) : Prop := step s l = some t

/-- Execute the actions in order, stopping at the first that is not enabled. -/
def exec (step : σ → ℓ → Option σ) : σ → List ℓ → Option σ
  | s, [] => some s
  | s, l :: ls => (step s l).bind fun t ↦ exec step t ls

theorem functional_stepOf (step : σ → ℓ → Option σ) : Functional (StepOf step) := by
  intro s l t u ht hu
  exact Option.some.inj (ht.symm.trans hu)

theorem run_of_exec {step : σ → ℓ → Option σ} : ∀ {ls : List ℓ} {s t : σ},
    exec step s ls = some t → Run (StepOf step) s ls t := by
  intro ls
  induction ls with
  | nil =>
    intro s t h
    obtain rfl := Option.some.inj h
    exact Run.nil s
  | cons l ls ih =>
    intro s t h
    obtain ⟨u, hu, hrest⟩ := Option.bind_eq_some_iff.mp h
    exact Run.cons hu (ih hrest)

/-- A run and what is computed from its last state. -/
theorem exists_run_of_exec {α : Type*} {step : σ → ℓ → Option σ} {ls : List ℓ} {s : σ} {f : σ → α}
    {a : α} (h : (exec step s ls).map f = some a) : ∃ t, Run (StepOf step) s ls t ∧ f t = a := by
  obtain ⟨t, ht, hf⟩ := Option.map_eq_some_iff.mp h
  exact ⟨t, run_of_exec ht, hf⟩

/-- Execute the actions in order, checking a condition before each of them. -/
def execChecked (step : σ → ℓ → Option σ) (check : σ → ℓ → Bool) : σ → List ℓ → Option σ :=
  exec fun s l ↦ if check s l then step s l else none

/-- A run whose steps all meet a condition that can be checked. -/
theorem exists_run_of_execChecked {α : Type*} {step : σ → ℓ → Option σ} {check : σ → ℓ → Bool}
    (hcheck : ∀ s l, check s l = true → C s l) {ls : List ℓ} {s : σ} {f : σ → α} {a : α}
    (h : (execChecked step check s ls).map f = some a) :
    ∃ t, Run (Guarded (StepOf step) C) s ls t ∧ f t = a := by
  obtain ⟨t, hrun, hf⟩ := exists_run_of_exec h
  refine ⟨t, hrun.mono fun s l u hstep ↦ ?_, hf⟩
  rw [StepOf] at hstep
  split_ifs at hstep with hc
  exact ⟨hstep, hcheck _ _ hc⟩

end Transition
