import Mathlib.Algebra.Order.BigOperators.Group.Finset
import Mathlib.Data.List.Nodup
import MemcacheRouter.Foundations.Transition

/-!
# A mutex with a condition variable

Threads wait in a loop for a condition on the data behind a mutex: they take the mutex, evaluate the
condition, and go on or wait, which releases the mutex and joins the wait set in one step. A thread
that has left the wait set, because it was notified or for no reason, takes the mutex again and
evaluates the condition anew.

The data are not in here. A monitor knows where its threads are, and the caller of `check` says what
the condition has evaluated to. Whether a thread can sleep although it has no reason to depends on
who notifies. What is the same for all: a thread that holds the mutex can go on, so that when nobody
can, everybody is out or asleep (`Ok.out_or_blocked`).
-/

/-- Where a thread is in its critical section. -/
inductive Phase where
  | out
  /-- About to take the mutex for the first time. -/
  | entering
  /-- Holds the mutex and is about to evaluate the condition. -/
  | checking
  /-- Has to wait, and is about to release the mutex. -/
  | waiting
  /-- In the wait set. -/
  | blocked
  /-- Left the wait set and is about to take the mutex again. -/
  | woken
  /-- Need not wait any longer, and holds the mutex. -/
  | inside
  deriving DecidableEq, Repr

/-- The mutex is held. -/
def Phase.holds : Phase → Bool
  | .checking | .waiting | .inside => true
  | .out | .entering | .blocked | .woken => false

/-- Woken, or past it and not waiting: a thread that will evaluate the condition or has found that
it need not wait. -/
def Phase.stirs : Phase → Bool
  | .woken | .checking | .inside => true
  | .out | .entering | .waiting | .blocked => false

/-- A mutex, its condition variable and where the threads are. -/
structure Monitor (T : Type) where
  owner : Option T := none
  waitSet : List T := []
  phase : T → Phase := fun _ ↦ .out

namespace Monitor

/-- What a thread does without looking at the data. -/
inductive Move (T : Type) where
  | acquire (t : T)
  | wait (t : T)
  | spurious (t : T)
  deriving DecidableEq

variable {T : Type} [DecidableEq T]

def goto (m : Monitor T) (t : T) (p : Phase) : Monitor T :=
  { m with phase := Function.update m.phase t p }

/-- Take a thread out of the wait set. -/
def wake (m : Monitor T) (t : T) : Monitor T :=
  { m.goto t .woken with waitSet := m.waitSet.erase t }

def enter (m : Monitor T) (t : T) : Option (Monitor T) :=
  if m.phase t = .out then some (m.goto t .entering) else none

def move (m : Monitor T) : Move T → Option (Monitor T)
  | .acquire t =>
    if m.owner = none ∧ (m.phase t = .entering ∨ m.phase t = .woken) then
      some { m.goto t .checking with owner := some t }
    else none
  | .wait t =>
    if m.phase t = .waiting then
      some { m.goto t .blocked with owner := none, waitSet := t :: m.waitSet }
    else none
  | .spurious t => if t ∈ m.waitSet then some (m.wake t) else none

/-- The condition is evaluated. -/
def check (m : Monitor T) (t : T) (mustWait : Bool) : Option (Monitor T) :=
  if m.phase t = .checking then some (m.goto t (if mustWait then .waiting else .inside)) else none

/-- The mutex is released at the end. -/
def leave (m : Monitor T) (t : T) : Option (Monitor T) :=
  if m.phase t = .inside then some { m.goto t .out with owner := none } else none

/-- `notify_one`, which wakes some thread if there is one. -/
def notifyOne (m : Monitor T) : Option T → Option (Monitor T)
  | none => if m.waitSet = [] then some m else none
  | some t => if t ∈ m.waitSet then some (m.wake t) else none

/-- `notify_all`. -/
def notifyAll (m : Monitor T) : Monitor T :=
  { m with waitSet := [], phase := fun t ↦ if t ∈ m.waitSet then .woken else m.phase t }

variable {m m' : Monitor T} {t u : T} {e : Move T} {b : Bool} {o : Option T}

theorem phase_goto (m : Monitor T) (t u : T) (p : Phase) :
    (m.goto t p).phase u = if u = t then p else m.phase u := Function.update_apply _ _ _ _

theorem phase_wake (m : Monitor T) (t u : T) :
    (m.wake t).phase u = if u = t then .woken else m.phase u := m.phase_goto t u _

theorem phase_notifyAll (m : Monitor T) (u : T) :
    m.notifyAll.phase u = if u ∈ m.waitSet then .woken else m.phase u := rfl

/-! ## What a thread can do -/

theorem enter_eq_some (h : m.enter t = some m') : m.phase t = .out ∧ m' = m.goto t .entering := by
  rw [enter] at h
  split_ifs at h with ht
  exact ⟨ht, (Option.some.inj h).symm⟩

theorem check_eq_some (h : m.check t b = some m') :
    m.phase t = .checking ∧ m' = m.goto t (if b then .waiting else .inside) := by
  rw [check, Option.ite_none_right_eq_some] at h
  exact ⟨h.1, (Option.some.inj h.2).symm⟩

theorem leave_eq_some (h : m.leave t = some m') :
    m.phase t = .inside ∧ m' = { m.goto t .out with owner := none } := by
  rw [leave] at h
  split_ifs at h with ht
  exact ⟨ht, (Option.some.inj h).symm⟩

/-- What a move can do. -/
inductive Moves (m : Monitor T) : Move T → Monitor T → Prop
  | acquire {t : T} (hfree : m.owner = none) (ht : m.phase t = .entering ∨ m.phase t = .woken) :
      Moves m (.acquire t) { m.goto t .checking with owner := some t }
  | wait {t : T} (ht : m.phase t = .waiting) :
      Moves m (.wait t) { m.goto t .blocked with owner := none, waitSet := t :: m.waitSet }
  | spurious {t : T} (ht : t ∈ m.waitSet) : Moves m (.spurious t) (m.wake t)

theorem moves_of_move (h : m.move e = some m') : m.Moves e m' := by
  rcases e with t | t | t <;> rw [move] at h <;> split_ifs at h with ht
  · exact Option.some.inj h ▸ .acquire ht.1 ht.2
  · exact Option.some.inj h ▸ .wait ht
  · exact Option.some.inj h ▸ .spurious ht

theorem notifyOne_eq_some (h : m.notifyOne o = some m') :
    (m.waitSet = [] ∧ m' = m) ∨ ∃ t ∈ m.waitSet, m' = m.wake t := by
  rcases o with _ | t <;> rw [notifyOne] at h <;> split_ifs at h with ht
  · exact Or.inl ⟨ht, (Option.some.inj h).symm⟩
  · exact Or.inr ⟨t, ht, (Option.some.inj h).symm⟩

/-- Somebody can always be notified, or nobody is there. -/
theorem exists_notifyOne (m : Monitor T) : ∃ o m', m.notifyOne o = some m' := by
  rcases hw : m.waitSet with _ | ⟨t, ts⟩
  · exact ⟨none, m, if_pos hw⟩
  · exact ⟨some t, m.wake t, if_pos (hw ▸ List.mem_cons_self)⟩

/-- Nobody else has moved when a thread enters. -/
theorem phase_of_enter (h : m.enter t = some m') {p : Phase} (hp : p ≠ .entering)
    (hu : m'.phase u = p) : m.phase u = p := by
  obtain ⟨-, rfl⟩ := enter_eq_some h
  rw [phase_goto] at hu
  split_ifs at hu
  · exact absurd hu.symm hp
  · exact hu

theorem phase_of_check (h : m.check t b = some m') {p : Phase} (hu : m'.phase u = p) :
    m.phase u = p ∨ p = if b then .waiting else .inside := by
  obtain ⟨-, rfl⟩ := check_eq_some h
  rw [phase_goto] at hu
  split at hu
  · exact Or.inr hu.symm
  · exact Or.inl hu

theorem phase_of_leave (h : m.leave t = some m') {p : Phase} (hp : p ≠ .out)
    (hu : m'.phase u = p) : u ≠ t ∧ m.phase u = p := by
  obtain ⟨-, rfl⟩ := leave_eq_some h
  change (m.goto t .out).phase u = p at hu
  rw [phase_goto] at hu
  split_ifs at hu with hut
  · exact absurd hu.symm hp
  · exact ⟨hut, hu⟩

/-! ## The wait set and the owner -/

/-- The wait set has the threads that are asleep, and the owner is the thread that is in the
critical section. -/
structure Ok (m : Monitor T) : Prop where
  nodup : m.waitSet.Nodup
  blocked : ∀ t, t ∈ m.waitSet ↔ m.phase t = .blocked
  owner : ∀ t, m.owner = some t ↔ (m.phase t).holds = true

omit [DecidableEq T] in
theorem ok_init : Ok ({} : Monitor T) where
  nodup := List.nodup_nil
  blocked t := iff_of_false List.not_mem_nil (by simp)
  owner t := iff_of_false (by simp) (by simp [Phase.holds])

omit [DecidableEq T] in
/-- Nobody is in the critical section while the mutex is free. -/
theorem Ok.not_holds (h : m.Ok) (hfree : m.owner = none) (t : T) : (m.phase t).holds = false := by
  rw [← Bool.not_eq_true, ← h.owner t, hfree]
  exact fun hne ↦ nomatch hne

omit [DecidableEq T] in
/-- The thread that holds the mutex is the only one. -/
theorem Ok.eq_of_holds (h : m.Ok) (ht : (m.phase t).holds = true) (hu : (m.phase u).holds = true) :
    u = t := by
  have howner := (h.owner t).mpr ht
  rw [(h.owner u).mpr hu] at howner
  exact Option.some.inj howner

/-- A thread that stays out of the wait set and neither takes nor releases the mutex. -/
theorem Ok.goto (h : m.Ok) {p : Phase} (hblocked : m.phase t ≠ .blocked) (hp : p ≠ .blocked)
    (hholds : p.holds = (m.phase t).holds) : (m.goto t p).Ok where
  nodup := h.nodup
  blocked u := by
    rw [phase_goto]
    split_ifs with hu
    · rw [hu]
      exact iff_of_false (mt (h.blocked t).mp hblocked) hp
    · exact h.blocked u
  owner u := by
    rw [phase_goto]
    split_ifs with hu
    · rw [hu, hholds]
      exact h.owner t
    · exact h.owner u

theorem Ok.enter (h : m.Ok) (he : m.enter t = some m') : m'.Ok := by
  obtain ⟨ht, rfl⟩ := enter_eq_some he
  refine h.goto ?_ ?_ ?_
  · simp [ht]
  · simp
  · rw [ht]
    rfl

theorem Ok.check (h : m.Ok) (hc : m.check t b = some m') : m'.Ok := by
  obtain ⟨ht, rfl⟩ := check_eq_some hc
  refine h.goto ?_ ?_ ?_
  · simp [ht]
  · cases b <;> simp
  · rw [ht]
    cases b <;> rfl

/-- The thread that holds the mutex goes where it does not, and releases it. -/
theorem Ok.owner_release (h : m.Ok) {p : Phase} (ht : (m.phase t).holds = true)
    (hp : p.holds = false) (u : T) : (none = some u) ↔ ((m.goto t p).phase u).holds = true := by
  refine iff_of_false (fun hne ↦ nomatch hne) ?_
  rw [phase_goto]
  split_ifs with hu
  · simp [hp]
  · exact fun hholds ↦ hu (h.eq_of_holds ht hholds)

theorem Ok.leave (h : m.Ok) (hl : m.leave t = some m') : m'.Ok := by
  obtain ⟨ht, rfl⟩ := leave_eq_some hl
  refine ⟨h.nodup, fun u ↦ ?_, h.owner_release (by rw [ht]; rfl) rfl⟩
  show u ∈ m.waitSet ↔ (m.goto t .out).phase u = .blocked
  rw [h.blocked u, phase_goto]
  split_ifs with hu
  · simp [hu, ht]
  · exact Iff.rfl

/-- Nobody is in the critical section when a thread has left it. -/
theorem Ok.not_holds_leave (h : m.Ok) (hl : m.leave t = some m') (u : T) :
    (m'.phase u).holds = false := by
  refine (h.leave hl).not_holds ?_ u
  obtain ⟨-, rfl⟩ := leave_eq_some hl
  rfl

theorem Ok.wake (h : m.Ok) (ht : t ∈ m.waitSet) : (m.wake t).Ok where
  nodup := h.nodup.erase t
  blocked u := by
    rw [phase_wake]
    show u ∈ m.waitSet.erase t ↔ _
    rw [h.nodup.mem_erase_iff]
    split_ifs with hu
    · simp [hu]
    · rw [← h.blocked u]
      exact and_iff_right hu
  owner u := by
    rw [phase_wake]
    split_ifs with hu
    · rw [hu]
      show m.owner = some t ↔ _
      rw [h.owner t, (h.blocked t).mp ht]
      rfl
    · exact h.owner u

theorem Ok.move (h : m.Ok) (he : m.move e = some m') : m'.Ok := by
  rcases moves_of_move he with ⟨hfree, ht⟩ | ⟨ht⟩ | ⟨ht⟩
  case acquire t =>
    refine ⟨h.nodup, fun u ↦ ?_, fun u ↦ ?_⟩
    · show u ∈ m.waitSet ↔ (m.goto t .checking).phase u = .blocked
      rw [h.blocked u, phase_goto]
      split_ifs with hu
      · rw [hu]
        rcases ht with ht | ht <;> simp [ht]
      · exact Iff.rfl
    · show some t = some u ↔ ((m.goto t .checking).phase u).holds = true
      rw [phase_goto]
      split_ifs with hu
      · simp [hu, Phase.holds]
      · simp [h.not_holds hfree u, Ne.symm hu]
  case wait t =>
    refine ⟨List.nodup_cons.mpr ⟨?_, h.nodup⟩, fun u ↦ ?_,
      h.owner_release (by rw [ht]; rfl) rfl⟩
    · rw [h.blocked t, ht]
      simp
    · show u ∈ t :: m.waitSet ↔ (m.goto t .blocked).phase u = .blocked
      rw [phase_goto, List.mem_cons]
      split_ifs with hu
      · simp [hu]
      · rw [h.blocked u]
        exact or_iff_right hu
  case spurious => exact h.wake ht

theorem Ok.notifyOne (h : m.Ok) (hn : m.notifyOne o = some m') : m'.Ok := by
  rcases notifyOne_eq_some hn with ⟨-, rfl⟩ | ⟨t, ht, rfl⟩
  · exact h
  · exact h.wake ht

theorem Ok.notifyAll (h : m.Ok) : m.notifyAll.Ok where
  nodup := List.nodup_nil
  blocked u := by
    rw [phase_notifyAll]
    refine iff_of_false List.not_mem_nil ?_
    split_ifs with hu
    · simp
    · exact mt (h.blocked u).mpr hu
  owner u := by
    rw [phase_notifyAll]
    show m.owner = some u ↔ _
    rw [h.owner u]
    split_ifs with hu
    · rw [(h.blocked u).mp hu]
      rfl
    · exact Iff.rfl

/-! ## One thread and the others -/

/-- What becomes of a thread while somebody moves or notifies. -/
inductive Shifts : Phase → Phase → Prop
  | same (p : Phase) : Shifts p p
  | enter : Shifts .entering .checking
  | again : Shifts .woken .checking
  | wait : Shifts .waiting .blocked
  | wake : Shifts .blocked .woken

namespace Shifts

variable {p q : Phase}

theorem out_iff (h : Shifts p q) : q = .out ↔ p = .out := by
  cases h <;> simp

theorem waiting (h : Shifts p q) (hq : q = .waiting) : p = .waiting := by
  cases h <;> first | exact hq | cases hq

theorem inside (h : Shifts p q) (hq : q = .inside) : p = .inside := by
  cases h <;> first | exact hq | cases hq

theorem stirs (h : Shifts p q) (hp : p.stirs = true) : q.stirs = true := by
  cases h <;> first | exact hp | rfl

end Shifts

theorem Ok.shifts_wake (h : m.Ok) (ht : t ∈ m.waitSet) (u : T) :
    Shifts (m.phase u) ((m.wake t).phase u) := by
  rw [phase_wake]
  split_ifs with hu
  · rw [hu, (h.blocked t).mp ht]
    exact .wake
  · exact .same _

theorem Ok.shifts_move (h : m.Ok) (he : m.move e = some m') (u : T) :
    Shifts (m.phase u) (m'.phase u) := by
  rcases moves_of_move he with ⟨-, ht⟩ | ⟨ht⟩ | ⟨ht⟩
  case acquire t =>
    show Shifts _ ((m.goto t .checking).phase u)
    rw [phase_goto]
    split_ifs with hu
    · rw [hu]
      rcases ht with ht | ht
      · exact ht ▸ .enter
      · exact ht ▸ .again
    · exact .same _
  case wait t =>
    show Shifts _ ((m.goto t .blocked).phase u)
    rw [phase_goto]
    split_ifs with hu
    · rw [hu, ht]
      exact .wait
    · exact .same _
  case spurious => exact h.shifts_wake ht u

theorem Ok.shifts_notifyOne (h : m.Ok) (hn : m.notifyOne o = some m') (u : T) :
    Shifts (m.phase u) (m'.phase u) := by
  rcases notifyOne_eq_some hn with ⟨-, rfl⟩ | ⟨t, ht, rfl⟩
  · exact .same _
  · exact h.shifts_wake ht u

theorem Ok.shifts_notifyAll (h : m.Ok) (u : T) : Shifts (m.phase u) (m.notifyAll.phase u) := by
  rw [phase_notifyAll]
  split_ifs with hu
  · rw [(h.blocked u).mp hu]
    exact .wake
  · exact .same _

/-- Somebody has moved, who was not out. -/
theorem Ok.exists_of_move (h : m.Ok) (he : m.move e = some m') : ∃ t, m.phase t ≠ .out := by
  rcases moves_of_move he with ⟨-, ht⟩ | ⟨ht⟩ | ⟨ht⟩
  case acquire t =>
    refine ⟨t, ?_⟩
    rcases ht with ht | ht <;> simp [ht]
  case wait t => exact ⟨t, by simp [ht]⟩
  case spurious t => exact ⟨t, by simp [(h.blocked t).mp ht]⟩

/-- The wait set grows by waiting only. -/
theorem waitSet_of_move (he : m.move e = some m') (hwait : ∀ t, m.phase t ≠ .waiting) :
    ∀ t ∈ m'.waitSet, t ∈ m.waitSet := by
  rcases moves_of_move he with ⟨-, -⟩ | ⟨ht⟩ | ⟨ht⟩
  · exact fun _ ↦ id
  · exact absurd ht (hwait _)
  · exact fun _ ↦ List.mem_of_mem_erase

theorem waitSet_notifyOne (hn : m.notifyOne o = some m') (hlone : m.waitSet.length ≤ 1) :
    m'.waitSet = [] := by
  rcases notifyOne_eq_some hn with ⟨hnil, rfl⟩ | ⟨t, ht, rfl⟩
  · exact hnil
  · apply List.eq_nil_of_length_eq_zero
    rw [Monitor.wake, List.length_erase_of_mem ht]
    omega

/-! ## Nobody sleeps unnoticed -/

/-- The wait set is empty, or a thread is on its way that will evaluate the condition again. -/
def Stirred (m : Monitor T) : Prop := m.waitSet = [] ∨ ∃ t, (m.phase t).stirs = true

omit [DecidableEq T] in
theorem Stirred.of_shifts (h : m.Stirred) (hset : ∀ t ∈ m'.waitSet, t ∈ m.waitSet)
    (hshifts : ∀ u, (m.phase u).stirs = true → (m'.phase u).stirs = true) : m'.Stirred := by
  rcases h with hnil | ⟨t, ht⟩
  · rw [hnil] at hset
    exact Or.inl (List.eq_nil_iff_forall_not_mem.mpr fun t ht ↦ absurd (hset t ht) List.not_mem_nil)
  · exact Or.inr ⟨t, hshifts t ht⟩

theorem Stirred.move (h : m.Stirred) (hok : m.Ok) (he : m.move e = some m')
    (hwait : ∀ t, m.phase t ≠ .waiting) : m'.Stirred :=
  h.of_shifts (waitSet_of_move he hwait) fun u ↦ (hok.shifts_move he u).stirs

theorem Stirred.enter (h : m.Stirred) (he : m.enter t = some m') : m'.Stirred := by
  obtain ⟨ht, rfl⟩ := enter_eq_some he
  refine h.of_shifts (fun _ ↦ id) fun u hu ↦ ?_
  rw [phase_goto, if_neg]
  · exact hu
  · rintro rfl
    rw [ht] at hu
    cases hu

theorem Stirred.check (h : m.Stirred) (hc : m.check t false = some m') : m'.Stirred := by
  obtain ⟨-, rfl⟩ := check_eq_some hc
  refine h.of_shifts (fun _ ↦ id) fun u hu ↦ ?_
  rw [if_neg Bool.false_ne_true, phase_goto]
  split_ifs
  · rfl
  · exact hu

/-- **A notification stirs.** -/
theorem stirred_notifyOne (hn : m.notifyOne o = some m') : m'.Stirred := by
  rcases notifyOne_eq_some hn with ⟨hnil, rfl⟩ | ⟨t, ht, rfl⟩
  · exact Or.inl hnil
  · refine Or.inr ⟨t, ?_⟩
    rw [phase_wake, if_pos rfl]
    rfl

/-! ## Everybody is awake -/

/-- Nobody is asleep, or about to be. -/
structure Calm (m : Monitor T) : Prop where
  waitSet : m.waitSet = []
  waiting : ∀ t, m.phase t ≠ .waiting

omit [DecidableEq T] in
theorem Calm.of_shifts (h : m.Calm) (hset : ∀ t ∈ m'.waitSet, t ∈ m.waitSet)
    (hphase : ∀ t, m'.phase t = .waiting → m.phase t = .waiting) : m'.Calm where
  waitSet := by
    rw [h.waitSet] at hset
    exact List.eq_nil_iff_forall_not_mem.mpr fun t ht ↦ absurd (hset t ht) List.not_mem_nil
  waiting t ht := h.waiting t (hphase t ht)

theorem Calm.enter (h : m.Calm) (he : m.enter t = some m') : m'.Calm := by
  refine h.of_shifts ?_ fun u ↦ phase_of_enter he (by simp)
  obtain ⟨-, rfl⟩ := enter_eq_some he
  exact fun _ ↦ id

theorem Calm.move (h : m.Calm) (hok : m.Ok) (he : m.move e = some m') : m'.Calm :=
  h.of_shifts (waitSet_of_move he h.waiting) fun u ↦ (hok.shifts_move he u).waiting

theorem Calm.check (h : m.Calm) (hc : m.check t false = some m') : m'.Calm := by
  refine h.of_shifts ?_ fun u hu ↦ ?_
  · obtain ⟨-, rfl⟩ := check_eq_some hc
    exact fun _ ↦ id
  · rcases phase_of_check hc hu with hu | hu
    · exact hu
    · simp at hu

theorem Calm.leave (h : m.Calm) (hl : m.leave t = some m') : m'.Calm := by
  refine h.of_shifts ?_ fun u hu ↦ (phase_of_leave hl (by simp) hu).2
  obtain ⟨-, rfl⟩ := leave_eq_some hl
  exact fun _ ↦ id

theorem Calm.notifyOne (h : m.Calm) (hn : m.notifyOne o = some m') : m'.Calm := by
  rcases notifyOne_eq_some hn with ⟨-, rfl⟩ | ⟨t, ht, -⟩
  · exact h
  · rw [h.waitSet] at ht
    cases ht

/-- **`notify_all` wakes everybody**, if nobody is between the check and the wait. -/
theorem Ok.calm_notifyAll (h : m.Ok) (howner : ∀ t, m.owner = some t → m.phase t ≠ .waiting) :
    m.notifyAll.Calm where
  waitSet := rfl
  waiting t ht := by
    have hwaiting := (h.shifts_notifyAll t).waiting ht
    exact howner t ((h.owner t).mpr (by rw [hwaiting]; rfl)) hwaiting

/-- **Who can go on.** When no thread can take the mutex, evaluate the condition, wait or leave,
everybody is out or asleep. -/
theorem Ok.out_or_blocked (h : m.Ok) (hacquire : ∀ t, m.move (.acquire t) = none)
    (hcheck : ∀ t, m.phase t ≠ .checking) (hwait : ∀ t, m.move (.wait t) = none)
    (hleave : ∀ t, m.phase t ≠ .inside) : m.owner = none ∧
      ∀ t, m.phase t = .out ∨ m.phase t = .blocked := by
  have hwaiting : ∀ t, m.phase t ≠ .waiting := fun t ht ↦ by
    have hnone := hwait t
    rw [Monitor.move, if_pos ht] at hnone
    cases hnone
  -- whoever has the mutex can go on
  have hfree : m.owner = none := by
    by_contra hne
    obtain ⟨t, howner⟩ := Option.ne_none_iff_exists'.mp hne
    have hholds := (h.owner t).mp howner
    rcases ht : m.phase t <;> rw [ht] at hholds <;> cases hholds
    · exact hcheck t ht
    · exact hwaiting t ht
    · exact hleave t ht
  refine ⟨hfree, fun t ↦ ?_⟩
  have hnone := hacquire t
  rw [Monitor.move] at hnone
  split_ifs at hnone with hcond
  rw [not_and, not_or] at hcond
  obtain ⟨hentering, hwoken⟩ := hcond hfree
  rcases ht : m.phase t
  · exact Or.inl rfl
  · exact absurd ht hentering
  · exact absurd ht (hcheck t)
  · exact absurd ht (hwaiting t)
  · exact Or.inr rfl
  · exact absurd ht hwoken
  · exact absurd ht (hleave t)

/-! ## How far everybody can get by itself -/

/-- How many steps a thread can take, counting more for one that is asleep and may be woken. -/
def rank : Phase → ℕ
  | .out => 0
  | .blocked => 2
  | .waiting | .inside => 3
  | .checking => 4
  | .entering | .woken => 5

/-- How many steps some threads can take. -/
def load (F : Finset T) (m : Monitor T) : ℕ := ∑ t ∈ F, rank (m.phase t)

variable {F : Finset T}

theorem load_goto (ht : t ∈ F) (m : Monitor T) (p : Phase) :
    (m.goto t p).load F + rank (m.phase t) = m.load F + rank p := by
  have hsum := Transition.sum_change (fun u ↦ rank (m.phase u))
    (fun u ↦ rank ((m.goto t p).phase u)) ht fun u _ hne ↦ by rw [phase_goto, if_neg hne]
  rw [phase_goto, if_pos rfl] at hsum
  exact hsum

theorem load_enter (ht : t ∈ F) (he : m.enter t = some m') : m'.load F = m.load F + 5 := by
  obtain ⟨hout, rfl⟩ := enter_eq_some he
  have hsum := load_goto ht m .entering
  rw [hout] at hsum
  exact hsum

theorem load_check (ht : t ∈ F) (hc : m.check t b = some m') : m'.load F + 1 = m.load F := by
  obtain ⟨hchecking, rfl⟩ := check_eq_some hc
  have hsum := load_goto ht m (if b then .waiting else .inside)
  have hrank : rank (if b then Phase.waiting else .inside) = 3 := by
    split_ifs <;> rfl
  rw [hchecking, hrank] at hsum
  simp only [rank] at hsum
  omega

theorem load_leave (ht : t ∈ F) (hl : m.leave t = some m') : m'.load F + 3 = m.load F := by
  obtain ⟨hinside, rfl⟩ := leave_eq_some hl
  have hsum := load_goto ht m .out
  rw [hinside] at hsum
  exact hsum

theorem load_acquire (ht : t ∈ F) (he : m.move (.acquire t) = some m') :
    m'.load F + 1 = m.load F := by
  rcases moves_of_move he with ⟨-, hphase⟩
  have hsum := load_goto ht m .checking
  have hrank : rank (m.phase t) = 5 := by
    rcases hphase with hphase | hphase <;> rw [hphase] <;> rfl
  rw [hrank] at hsum
  simp only [rank] at hsum
  exact Nat.add_right_cancel (m := 4) hsum

theorem load_wait (ht : t ∈ F) (he : m.move (.wait t) = some m') : m'.load F + 1 = m.load F := by
  rcases moves_of_move he with _ | ⟨hphase⟩
  have hsum := load_goto ht m .blocked
  rw [hphase] at hsum
  exact Nat.add_right_cancel (m := 2) hsum

/-- A thread takes the mutex, or waits. -/
theorem load_move (hF : ∀ t, m.phase t ≠ .out → t ∈ F) (he : m.move e = some m')
    (hspurious : ∀ t, e ≠ .spurious t) : m'.load F < m.load F := by
  have hmoves := moves_of_move he
  rcases e with t | t | t
  · have ht : t ∈ F := hF t (by rcases hmoves with ⟨-, ht | ht⟩ <;> simp [ht])
    have hload := load_acquire ht he
    omega
  · have ht : t ∈ F := hF t (by rcases hmoves with _ | ⟨ht⟩; simp [ht])
    have hload := load_wait ht he
    omega
  · exact absurd rfl (hspurious t)

/-- To wake somebody costs three steps. -/
theorem Shifts.rank_le {p q : Phase} (h : Shifts p q) : rank q ≤ rank p + 3 := by
  cases h <;> simp [rank]

theorem Ok.load_notifyOne (h : m.Ok) (hn : m.notifyOne o = some m') :
    m'.load F ≤ m.load F + 3 := by
  rcases notifyOne_eq_some hn with ⟨-, rfl⟩ | ⟨t, ht, rfl⟩
  · exact Nat.le_add_right _ _
  · by_cases hF : t ∈ F
    · have hsum := load_goto hF m .woken
      rw [(h.blocked t).mp ht] at hsum
      exact (Nat.add_right_cancel (m := 2) hsum).le
    · refine (Finset.sum_congr rfl fun u hu ↦ ?_).le.trans (Nat.le_add_right _ _)
      rw [phase_wake, if_neg]
      rintro rfl
      exact hF hu

theorem Ok.load_notifyAll (h : m.Ok) : m.notifyAll.load F ≤ m.load F + F.card * 3 := by
  calc m.notifyAll.load F ≤ ∑ u ∈ F, (rank (m.phase u) + 3) :=
        Finset.sum_le_sum fun u _ ↦ (h.shifts_notifyAll u).rank_le
    _ = m.load F + ∑ _u ∈ F, 3 := Finset.sum_add_distrib
    _ = m.load F + F.card * 3 := by rw [Finset.sum_const_nat fun _ _ ↦ rfl]

end Monitor
