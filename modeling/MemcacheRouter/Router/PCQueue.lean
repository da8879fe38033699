import MemcacheRouter.Foundations.Transition
import MemcacheRouter.Wire.Message

/-!
# The packet queue

`PCQueue` with its mutex and its condition variable. A thread in `BlockingPop` takes the mutex,
evaluates the loop condition, and either goes on to pop or waits; the wait releases the mutex and
joins the wait set in one step, and a thread that left the wait set has to take the mutex again
before it evaluates the condition anew. `Push` holds the mutex throughout and is one step.

`UnblockAll` takes no mutex. It sets `done_` and notifies in two steps, and both can fall between
the moment a thread finds the condition true and the moment it waits. That thread is then in the
wait set with nobody left to notify it.
-/

open Transition

namespace MemcacheRouter

/-- `MAX_KEYS_PER_REQUEST`. -/
def maxKeysPerRequest : ℕ := 10000

/-- The second loop of `BlockingPop`, with the number of keys taken so far: the batch and what stays
in the queue. -/
def popLoop {α : Type} (packet : α → Packet) : ℕ → List α → List α × List α
  | _, [] => ([], [])
  | numGetKeys, p :: ps =>
    if numGetKeys < maxKeysPerRequest then
      if !(packet p).isGet then
        if numGetKeys = 0 then ([p], ps) else ([], p :: ps)
      else
        let (batch, rest) := popLoop packet (numGetKeys + (packet p).instruction.getKeys.length) ps
        (p :: batch, rest)
    else ([], p :: ps)

/-- The batch that `BlockingPop` takes from the queue, and what it leaves. -/
def popBatch {α : Type} (packet : α → Packet) (packets : List α) : List α × List α :=
  popLoop packet 0 packets

/-- Nothing is lost, duplicated or reordered. -/
theorem popLoop_append {α : Type} (packet : α → Packet) (packets : List α) : ∀ n,
    (popLoop packet n packets).1 ++ (popLoop packet n packets).2 = packets := by
  induction packets with
  | nil => exact fun _ ↦ rfl
  | cons p ps ih =>
    intro n
    rw [popLoop]
    split_ifs
    · rfl
    · rfl
    · dsimp only
      rw [List.cons_append, ih]
    · rfl

theorem popBatch_append {α : Type} (packet : α → Packet) (packets : List α) :
    (popBatch packet packets).1 ++ (popBatch packet packets).2 = packets :=
  popLoop_append packet packets 0

/-- Where a thread is in `BlockingPop`. -/
inductive PopPc where
  /-- Not in `BlockingPop`. -/
  | out
  /-- About to take the mutex for the first time. -/
  | entering
  /-- Holds the mutex and is about to evaluate the loop condition. -/
  | checking
  /-- Found the condition true and is about to wait. -/
  | waiting
  /-- In the wait set. -/
  | blocked
  /-- Left the wait set and is about to take the mutex again. -/
  | woken
  /-- Found the condition false. -/
  | popping
  deriving DecidableEq, Repr

/-- How far `UnblockAll` has got since the last `Reset`. -/
inductive Unblock where
  | idle | flagged | completed
  deriving DecidableEq, Repr

/-- The queue, and where every thread is in it. -/
structure PCQueue where
  packets : List Packet := []
  done : Bool := false
  /-- The thread that holds `m_`. -/
  owner : Option ℕ := none
  /-- The wait set of `cond_`. -/
  waitSet : List ℕ := []
  pc : ℕ → PopPc := fun _ ↦ .out
  unblock : Unblock := .idle

/-- The steps of the threads in the queue. A notification carries the thread that it wakes. -/
inductive QueueAction where
  | enter (i : ℕ)
  | acquire (i : ℕ)
  | check (i : ℕ)
  | wait (i : ℕ)
  | spurious (i : ℕ)
  | finish (i : ℕ) (notified : Option ℕ)
  | push (p : Packet) (notified : Option ℕ)
  | unblockFlag
  | unblockNotify
  | reset
  deriving DecidableEq

namespace PCQueue

/-- Move a thread to another place. -/
def goto (q : PCQueue) (i : ℕ) (pc : PopPc) : PCQueue :=
  { q with pc := Function.update q.pc i pc }

/-- Take a thread out of the wait set. -/
def wake (q : PCQueue) (i : ℕ) : PCQueue :=
  { q.goto i .woken with waitSet := q.waitSet.erase i }

/-- `cond_.notify_one()`, which wakes some thread if there is one. -/
def notifyOne (q : PCQueue) : Option ℕ → Option PCQueue
  | none => if q.waitSet = [] then some q else none
  | some j => if j ∈ q.waitSet then some (q.wake j) else none

/-- `cond_.notify_all()`. -/
def notifyAll (q : PCQueue) : PCQueue :=
  { q with waitSet := [], pc := fun i ↦ if i ∈ q.waitSet then .woken else q.pc i }

/-- The loop condition of `BlockingPop`. -/
def mustWait (q : PCQueue) : Bool := !q.done && q.packets.isEmpty

/-- The end of `BlockingPop`, once the loop condition is false: a thread that sees `done_` takes
nothing, and one that leaves packets behind notifies another thread. -/
def finishPop (q : PCQueue) (i : ℕ) (notified : Option ℕ) : Option PCQueue :=
  if q.done then some { q.goto i .out with owner := none }
  else if (popBatch id q.packets).2 = [] then
    some { q.goto i .out with owner := none, packets := [] }
  else
    notifyOne { q.goto i .out with owner := none, packets := (popBatch id q.packets).2 } notified

/-- One step. -/
def step (q : PCQueue) : QueueAction → Option PCQueue
  | .enter i => if q.pc i = .out then some (q.goto i .entering) else none
  | .acquire i =>
    if q.owner = none ∧ (q.pc i = .entering ∨ q.pc i = .woken) then
      some { q.goto i .checking with owner := some i }
    else none
  | .check i =>
    if q.pc i = .checking then some (q.goto i (if q.mustWait then .waiting else .popping)) else none
  | .wait i =>
    if q.pc i = .waiting then
      some { q.goto i .blocked with owner := none, waitSet := i :: q.waitSet }
    else none
  | .spurious i => if i ∈ q.waitSet then some (q.wake i) else none
  | .finish i notified => if q.pc i = .popping then q.finishPop i notified else none
  | .push p notified =>
    if q.owner = none then notifyOne { q with packets := q.packets ++ [p] } notified else none
  | .unblockFlag => some { q with done := true, unblock := .flagged }
  | .unblockNotify =>
    if q.unblock = .flagged then some { q.notifyAll with unblock := .completed } else none
  | .reset => some { q with done := false, unblock := .idle }

/-- `UnblockAll` has completed, `done_` is still set, and a thread is in the wait set. -/
def LostWakeup (q : PCQueue) : Prop :=
  q.unblock = .completed ∧ q.done = true ∧ q.waitSet ≠ []

/-- `UnblockAll` notifies while no thread is between its check and its wait. -/
def NotifiesBetween (q : PCQueue) (a : QueueAction) : Prop :=
  a = .unblockNotify → ∀ i, q.pc i ≠ .waiting

variable {q q' : PCQueue} {a : QueueAction}

/-! ## What a step can do -/

/-- What a step can do. A thread that finds `done_` in `BlockingPop` takes nothing, and one that
leaves packets behind notifies. -/
inductive Moves (q : PCQueue) : QueueAction → PCQueue → Prop
  | enter {i} (hi : q.pc i = .out) : Moves q (.enter i) (q.goto i .entering)
  | acquire {i} (hfree : q.owner = none) (hi : q.pc i = .entering ∨ q.pc i = .woken) :
      Moves q (.acquire i) { q.goto i .checking with owner := some i }
  | mustWait {i} (hi : q.pc i = .checking) (hwait : q.mustWait = true) :
      Moves q (.check i) (q.goto i .waiting)
  | mayPop {i} (hi : q.pc i = .checking) (hpop : q.mustWait = false) :
      Moves q (.check i) (q.goto i .popping)
  | wait {i} (hi : q.pc i = .waiting) :
      Moves q (.wait i) { q.goto i .blocked with owner := none, waitSet := i :: q.waitSet }
  | spurious {i} (hi : i ∈ q.waitSet) : Moves q (.spurious i) (q.wake i)
  | stopped {i notified} (hi : q.pc i = .popping) (hdone : q.done = true) :
      Moves q (.finish i notified) { q.goto i .out with owner := none }
  | popAll {i notified} (hi : q.pc i = .popping) (hdone : q.done = false)
      (hrest : (popBatch id q.packets).2 = []) :
      Moves q (.finish i notified) { q.goto i .out with owner := none, packets := [] }
  | popSome {i notified q'} (hi : q.pc i = .popping) (hdone : q.done = false)
      (hrest : (popBatch id q.packets).2 ≠ [])
      (hnotify : notifyOne { q.goto i .out with
        owner := none, packets := (popBatch id q.packets).2 } notified = some q') :
      Moves q (.finish i notified) q'
  | push {p notified q'} (hfree : q.owner = none)
      (hnotify : notifyOne { q with packets := q.packets ++ [p] } notified = some q') :
      Moves q (.push p notified) q'
  | unblockFlag : Moves q .unblockFlag { q with done := true, unblock := .flagged }
  | unblockNotify (hflag : q.unblock = .flagged) :
      Moves q .unblockNotify { q.notifyAll with unblock := .completed }
  | reset : Moves q .reset { q with done := false, unblock := .idle }

/-- **What a step can do.** -/
theorem moves_of_step (h : q.step a = some q') : Moves q a q' := by
  cases a <;> rw [step] at h
  case enter i =>
    split_ifs at h with hi
    exact Option.some.inj h ▸ .enter hi
  case acquire i =>
    split_ifs at h with hi
    exact Option.some.inj h ▸ .acquire hi.1 hi.2
  case check i =>
    split_ifs at h with hi hwait
    · exact Option.some.inj h ▸ .mustWait hi hwait
    · exact Option.some.inj h ▸ .mayPop hi (Bool.eq_false_iff.mpr hwait)
  case wait i =>
    split_ifs at h with hi
    exact Option.some.inj h ▸ .wait hi
  case spurious i =>
    split_ifs at h with hi
    exact Option.some.inj h ▸ .spurious hi
  case finish i notified =>
    rw [finishPop] at h
    split_ifs at h with hi hdone hrest
    · exact Option.some.inj h ▸ .stopped hi hdone
    · exact Option.some.inj h ▸ .popAll hi (Bool.eq_false_iff.mpr hdone) hrest
    · exact .popSome hi (Bool.eq_false_iff.mpr hdone) hrest h
  case push p notified =>
    split_ifs at h with hfree
    exact .push hfree h
  case unblockFlag => exact Option.some.inj h ▸ .unblockFlag
  case unblockNotify =>
    split_ifs at h with hflag
    exact Option.some.inj h ▸ .unblockNotify hflag
  case reset => exact Option.some.inj h ▸ .reset

theorem pc_goto (q : PCQueue) (i j : ℕ) (pc : PopPc) :
    (q.goto i pc).pc j = if j = i then pc else q.pc j := Function.update_apply _ _ _ _

theorem pc_wake (q : PCQueue) (i j : ℕ) : (q.wake i).pc j = if j = i then .woken else q.pc j :=
  q.pc_goto i j .woken

/-- A notification wakes a thread of the wait set, unless there is none. -/
theorem notifyOne_cases {notified : Option ℕ} (h : q.notifyOne notified = some q') :
    (notified = none ∧ q.waitSet = [] ∧ q' = q) ∨
      ∃ j ∈ q.waitSet, notified = some j ∧ q' = q.wake j := by
  cases notified with
  | none =>
    rw [notifyOne] at h
    split_ifs at h with hset
    exact Or.inl ⟨rfl, hset, (Option.some.inj h).symm⟩
  | some j =>
    rw [notifyOne] at h
    split_ifs at h with hj
    exact Or.inr ⟨j, hj, rfl, (Option.some.inj h).symm⟩

/-- The effect of a step as far as stopping is concerned. -/
structure Effect (q : PCQueue) (a : QueueAction) (q' : PCQueue) : Prop where
  done : q'.done = q.done ∨ (a = .unblockFlag ∧ q'.done = true) ∨ a = .reset
  waitSet : (∀ i ∈ q'.waitSet, i ∈ q.waitSet) ∨ ∃ i, a = .wait i ∧ q.pc i = .waiting
  waiting : ∀ i, q'.pc i = .waiting → q.pc i = .waiting ∨ q.done = false
  unblock : q'.unblock = q.unblock ∨ (a = .unblockFlag ∧ q'.unblock = .flagged) ∨
    (a = .unblockNotify ∧ q.unblock = .flagged ∧ q'.waitSet = []) ∨
    (a = .reset ∧ q'.unblock = .idle)

theorem pc_goto_waiting {i j : ℕ} {pc : PopPc} (h : (q.goto i pc).pc j = .waiting)
    (hpc : pc ≠ .waiting) : q.pc j = .waiting := by
  rw [pc_goto] at h
  split_ifs at h
  · exact absurd h hpc
  · exact h

/-- A step that moves one thread to a place other than `waiting`. -/
theorem effect_of_goto {i : ℕ} (pc : PopPc) (hpc : pc ≠ .waiting)
    (hq' : q'.pc = (q.goto i pc).pc) (hdone : q'.done = q.done) (hset : q'.waitSet = q.waitSet)
    (hunblock : q'.unblock = q.unblock) : Effect q a q' := by
  refine ⟨Or.inl hdone, Or.inl fun k hk ↦ hset ▸ hk, fun j hj ↦ Or.inl ?_, Or.inl hunblock⟩
  rw [hq'] at hj
  exact pc_goto_waiting hj hpc

/-- Waking a thread adds nothing to an effect. -/
theorem Effect.wake (h : Effect q a q') (j : ℕ) : Effect q a (q'.wake j) := by
  refine ⟨h.done, h.waitSet.imp_left fun hsub i hi ↦ hsub i (List.mem_of_mem_erase hi), ?_, ?_⟩
  · exact fun i hi ↦ h.waiting i (pc_goto_waiting hi (by simp))
  · refine h.unblock.imp_right (Or.imp_right (Or.imp_left ?_))
    rintro ⟨ha, hflag, hset⟩
    refine ⟨ha, hflag, ?_⟩
    show q'.waitSet.erase j = []
    rw [hset, List.erase_nil]

theorem Effect.notifyOne {notified : Option ℕ} {q₁ : PCQueue} (h : Effect q a q₁)
    (hnotify : q₁.notifyOne notified = some q') : Effect q a q' := by
  rcases notifyOne_cases hnotify with ⟨-, -, rfl⟩ | ⟨j, -, -, rfl⟩
  · exact h
  · exact h.wake j

theorem effect_of_step (h : q.step a = some q') : Effect q a q' := by
  cases moves_of_step h with
  | enter _ => exact effect_of_goto .entering (by simp) rfl rfl rfl rfl
  | acquire _ _ => exact effect_of_goto .checking (by simp) rfl rfl rfl rfl
  | mustWait _ hwait =>
    -- The only step after which a thread is newly `waiting`, and `done_` was not set then.
    refine ⟨Or.inl rfl, Or.inl fun _ hj ↦ hj, fun _ _ ↦ Or.inr ?_, Or.inl rfl⟩
    rw [PCQueue.mustWait, Bool.and_eq_true, Bool.not_eq_true'] at hwait
    exact hwait.1
  | mayPop _ _ => exact effect_of_goto .popping (by simp) rfl rfl rfl rfl
  | wait hi =>
    exact ⟨Or.inl rfl, Or.inr ⟨_, rfl, hi⟩, fun j hj ↦ Or.inl (pc_goto_waiting hj (by simp)),
      Or.inl rfl⟩
  | spurious _ =>
    exact Effect.wake ⟨Or.inl rfl, Or.inl fun _ hj ↦ hj, fun _ hj ↦ Or.inl hj, Or.inl rfl⟩ _
  | stopped _ _ => exact effect_of_goto .out (by simp) rfl rfl rfl rfl
  | popAll _ _ _ => exact effect_of_goto .out (by simp) rfl rfl rfl rfl
  | popSome _ _ _ hnotify =>
    refine Effect.notifyOne ?_ hnotify
    exact effect_of_goto .out (by simp) rfl rfl rfl rfl
  | push _ hnotify =>
    refine Effect.notifyOne ?_ hnotify
    exact ⟨Or.inl rfl, Or.inl fun _ hj ↦ hj, fun _ hj ↦ Or.inl hj, Or.inl rfl⟩
  | unblockFlag =>
    exact ⟨Or.inr (Or.inl ⟨rfl, rfl⟩), Or.inl fun _ hj ↦ hj, fun _ hj ↦ Or.inl hj,
      Or.inr (Or.inl ⟨rfl, rfl⟩)⟩
  | unblockNotify hflag =>
    refine ⟨Or.inl rfl, Or.inl (by simp [notifyAll]), fun i hi ↦ Or.inl ?_,
      Or.inr (Or.inr (Or.inl ⟨rfl, hflag, rfl⟩))⟩
    have hi : (if i ∈ q.waitSet then .woken else q.pc i) = PopPc.waiting := hi
    split_ifs at hi
    exact hi
  | reset =>
    exact ⟨Or.inr (Or.inr rfl), Or.inl fun _ hj ↦ hj, fun _ hj ↦ Or.inl hj,
      Or.inr (Or.inr (Or.inr ⟨rfl, rfl⟩))⟩

/-! ## The wait set -/

/-- The wait set has the blocked threads, each of them once. -/
structure WaitSetOk (q : PCQueue) : Prop where
  nodup : q.waitSet.Nodup
  mem_iff : ∀ i, i ∈ q.waitSet ↔ q.pc i = .blocked

/-- A step that moves one thread, from a place other than `blocked` to another one. -/
theorem WaitSetOk.of_goto (hq : q.WaitSetOk) {i : ℕ} (pc : PopPc) (hi : q.pc i ≠ .blocked)
    (hpc : pc ≠ .blocked) (hset : q'.waitSet = q.waitSet) (hq' : q'.pc = (q.goto i pc).pc) :
    q'.WaitSetOk := by
  refine ⟨hset ▸ hq.nodup, fun j ↦ ?_⟩
  rw [hset, hq', pc_goto, hq.mem_iff]
  by_cases hji : j = i
  · rw [if_pos hji, hji]
    exact iff_of_false hi hpc
  · rw [if_neg hji]

theorem WaitSetOk.wake (hq : q.WaitSetOk) (i : ℕ) : (q.wake i).WaitSetOk := by
  refine ⟨hq.nodup.erase i, fun j ↦ ?_⟩
  have hset : (q.wake i).waitSet = q.waitSet.erase i := rfl
  rw [pc_wake, hset, hq.nodup.mem_erase_iff, hq.mem_iff]
  by_cases hji : j = i <;> simp [hji]

theorem WaitSetOk.notifyOne (hq : q.WaitSetOk) {notified : Option ℕ}
    (h : q.notifyOne notified = some q') : q'.WaitSetOk := by
  rcases notifyOne_cases h with ⟨-, -, rfl⟩ | ⟨j, -, -, rfl⟩
  · exact hq
  · exact hq.wake j

theorem WaitSetOk.step (hq : q.WaitSetOk) (h : q.step a = some q') : q'.WaitSetOk := by
  cases moves_of_step h with
  | enter hi => exact hq.of_goto .entering (by simp [hi]) (by simp) rfl rfl
  | acquire _ hi =>
    exact hq.of_goto .checking (by rcases hi with hi | hi <;> simp [hi]) (by simp) rfl rfl
  | mustWait hi _ => exact hq.of_goto .waiting (by simp [hi]) (by simp) rfl rfl
  | mayPop hi _ => exact hq.of_goto .popping (by simp [hi]) (by simp) rfl rfl
  | @wait i hi =>
    have hnot : i ∉ q.waitSet := by
      rw [hq.mem_iff, hi]
      simp
    refine ⟨List.nodup_cons.mpr ⟨hnot, hq.nodup⟩, fun j ↦ ?_⟩
    show j ∈ i :: q.waitSet ↔ (q.goto i .blocked).pc j = .blocked
    rw [pc_goto, List.mem_cons, hq.mem_iff]
    by_cases hji : j = i <;> simp [hji]
  | spurious _ => exact hq.wake _
  | stopped hi _ => exact hq.of_goto .out (by simp [hi]) (by simp) rfl rfl
  | popAll hi _ _ => exact hq.of_goto .out (by simp [hi]) (by simp) rfl rfl
  | popSome hi _ _ hnotify =>
    refine WaitSetOk.notifyOne ?_ hnotify
    exact hq.of_goto .out (by simp [hi]) (by simp) rfl rfl
  | push _ hnotify =>
    refine WaitSetOk.notifyOne ?_ hnotify
    exact ⟨hq.nodup, hq.mem_iff⟩
  | unblockFlag => exact ⟨hq.nodup, hq.mem_iff⟩
  | unblockNotify _ =>
    refine ⟨List.nodup_nil, fun j ↦ ?_⟩
    show j ∈ [] ↔ (if j ∈ q.waitSet then .woken else q.pc j) = PopPc.blocked
    split_ifs with hj
    · simp
    · simp [← hq.mem_iff, hj]
  | reset => exact ⟨hq.nodup, hq.mem_iff⟩

/-! ## Stopping -/

/-- The queue is stopping, and no thread is in the wait set or on the way to it. -/
structure Settled (q : PCQueue) : Prop where
  done : q.done = true
  waitSet : q.waitSet = []
  waiting : ∀ i, q.pc i ≠ .waiting

/-- Once it is settled, a stopping queue stays settled until it is reset. -/
theorem Settled.step (hq : q.Settled) (h : q.step a = some q') (ha : a ≠ .reset) :
    q'.Settled := by
  have heff := effect_of_step h
  refine ⟨?_, ?_, ?_⟩
  · rcases heff.done with hd | ⟨-, hd⟩ | hreset
    · rw [hd, hq.done]
    · exact hd
    · exact absurd hreset ha
  · rcases heff.waitSet with hsub | ⟨i, -, hi⟩
    · refine List.eq_nil_iff_forall_not_mem.mpr fun i hi ↦ ?_
      have hmem := hsub i hi
      rw [hq.waitSet] at hmem
      cases hmem
    · exact absurd hi (hq.waiting i)
  · intro i hi
    rcases heff.waiting i hi with hw | hd
    · exact hq.waiting i hw
    · rw [hq.done] at hd
      cases hd

/-- The invariant of a run in which `UnblockAll` notifies at the right moments. -/
structure Stopping (q : PCQueue) : Prop where
  flagged : q.unblock ≠ .idle → q.done = true
  settled : q.unblock = .completed → q.Settled

/-- `UnblockAll` settles the queue if no thread is between its check and its wait. -/
theorem settled_of_unblockNotify (hq : q.unblock ≠ .idle → q.done = true)
    (h : q.step .unblockNotify = some q') (hwait : ∀ i, q.pc i ≠ .waiting) : q'.Settled := by
  have heff := effect_of_step h
  rw [PCQueue.step] at h
  split_ifs at h with hflag
  have hdone : q.done = true := hq (by simp [hflag])
  obtain rfl := Option.some.inj h
  refine ⟨hdone, rfl, fun i hi ↦ ?_⟩
  rcases heff.waiting i hi with hw | hd
  · exact hwait i hw
  · rw [hdone] at hd
    cases hd

/-- `done_` is set from the first step of `UnblockAll` on. -/
theorem flagged_step (hq : q.unblock ≠ .idle → q.done = true) (h : q.step a = some q') :
    q'.unblock ≠ .idle → q'.done = true := by
  intro hne
  have heff := effect_of_step h
  by_cases hreset : a = .reset
  · subst hreset
    obtain rfl := Option.some.inj h
    exact absurd rfl hne
  · rcases heff.done with hd | ⟨-, hd⟩ | hr
    · rw [hd]
      rcases heff.unblock with hu | ⟨rfl, -⟩ | ⟨-, hu, -⟩ | ⟨hr, -⟩
      · exact hq (hu ▸ hne)
      · obtain rfl := Option.some.inj h
        exact hd.symm
      · exact hq (by simp [hu])
      · exact absurd hr hreset
    · exact hd
    · exact absurd hr hreset

theorem Stopping.step (hq : q.Stopping) (h : q.step a = some q') (ha : q.NotifiesBetween a) :
    q'.Stopping := by
  refine ⟨flagged_step hq.flagged h, fun hcomp ↦ ?_⟩
  rcases (effect_of_step h).unblock with hu | ⟨-, hu⟩ | ⟨rfl, -⟩ | ⟨-, hu⟩
  · by_cases hreset : a = .reset
    · subst hreset
      obtain rfl := Option.some.inj h
      cases hcomp
    · exact (hq.settled (hu ▸ hcomp)).step h hreset
  · rw [hu] at hcomp
    cases hcomp
  · exact settled_of_unblockNotify hq.flagged h (ha rfl)
  · rw [hu] at hcomp
    cases hcomp

theorem Settled.not_lostWakeup (hq : q.Settled) : ¬q.LostWakeup := fun h ↦ h.2.2 hq.waitSet

/-- **No wake-up is lost exactly when `UnblockAll` notifies between checks and waits.** In a run in
which no thread is between its check and its wait whenever `UnblockAll` notifies, no wake-up is
lost. And after any run, a notification of `UnblockAll` is enough until the next `Reset`, whatever
the threads do, if and only if no thread was between its check and its wait. -/
theorem no_lost_wakeup_iff (as : List QueueAction) (q : PCQueue) :
    (Run (Guarded (StepOf PCQueue.step) NotifiesBetween) {} as q → ¬q.LostWakeup) ∧
    ∀ q', Run (StepOf PCQueue.step) {} as q → q.step .unblockNotify = some q' →
      ((∀ bs q'', Run (StepOf PCQueue.step) q' bs q'' → .reset ∉ bs → ¬q''.LostWakeup) ↔
        ∀ i, q.pc i ≠ .waiting) := by
  constructor
  · intro hrun
    have hq : q.Stopping := hrun.invariant ⟨fun h ↦ absurd rfl h, fun h ↦ by cases h⟩
      fun _ _ _ hs hstep ↦ hs.step hstep.1 hstep.2
    intro hlost
    exact (hq.settled hlost.1).not_lostWakeup hlost
  · intro q' hrun hstep
    have hflag : q.unblock ≠ .idle → q.done = true :=
      hrun.invariant (fun h ↦ absurd rfl h) fun _ _ _ hs hstep ↦ flagged_step hs hstep
    constructor
    · intro h i hi
      -- the thread goes on to wait, and nobody is left to notify it
      have hok : q.WaitSetOk := hrun.invariant ⟨List.nodup_nil, by simp⟩
        fun _ _ _ hs hstep ↦ hs.step hstep
      have hnot : i ∉ q.waitSet := by
        rw [hok.mem_iff, hi]
        simp
      rw [PCQueue.step] at hstep
      split_ifs at hstep with hflagged
      obtain rfl := Option.some.inj hstep
      have hpc : (if i ∈ q.waitSet then .woken else q.pc i) = PopPc.waiting := by
        rw [if_neg hnot, hi]
      exact h [.wait i] _ (Run.single (if_pos hpc)) (by simp)
        ⟨rfl, hflag (by simp [hflagged]), List.cons_ne_nil _ _⟩
    · intro hwait bs q'' hrun' hreset
      have hq' := settled_of_unblockNotify hflag hstep hwait
      have hsettled : q''.Settled := by
        clear hstep
        induction hrun' with
        | nil => exact hq'
        | snoc _ hst ih =>
          refine (ih fun hmem ↦ hreset (List.mem_append_left _ hmem)).step hst ?_
          rintro rfl
          exact hreset (by simp)
      exact hsettled.not_lostWakeup

/-- The thread is in the wait set when `UnblockAll` notifies. -/
theorem no_lost_wakeup_blocked : ∃ q, Run (StepOf PCQueue.step) {}
    ([.enter 0, .acquire 0, .check 0, .wait 0, .unblockFlag] ++ [.unblockNotify]) q ∧
      ¬q.LostWakeup := by
  obtain ⟨q, hrun, hq⟩ := exists_run_of_exec (show (exec PCQueue.step {}
    [.enter 0, .acquire 0, .check 0, .wait 0, .unblockFlag]).map (fun q ↦ (q.unblock, q.pc))
      = some (.flagged, Function.update (Function.update (Function.update (Function.update
        (fun _ ↦ .out) 0 .entering) 0 .checking) 0 .waiting) 0 .blocked) from rfl)
  obtain ⟨hunblock, hpc⟩ := Prod.mk.inj hq
  have hwait : ∀ i, q.pc i ≠ .waiting := by
    intro i
    rw [hpc, Function.update_idem, Function.update_idem, Function.update_idem,
      Function.update_apply]
    split_ifs <;> simp
  have hguarded := hrun.guarded_of_forall (C := NotifiesBetween) fun _ a ha ↦ by
    rintro rfl
    simp at ha
  have hstep : StepOf PCQueue.step q .unblockNotify { q.notifyAll with unblock := .completed } :=
    if_pos hunblock
  have hrun' := hguarded.snoc ⟨hstep, fun _ ↦ hwait⟩
  exact ⟨_, hrun'.of_guarded, (no_lost_wakeup_iff _ _).1 hrun'⟩

/-- A wake-up is lost: a thread finds the queue empty, `UnblockAll` sets `done_` and notifies, and
then the thread waits. -/
theorem lost_wakeup : ∃ q, Run (StepOf PCQueue.step) {}
    [.enter 0, .acquire 0, .check 0, .unblockFlag, .unblockNotify, .wait 0] q ∧ q.LostWakeup := by
  obtain ⟨q, hrun, hq⟩ := exists_run_of_exec (show (exec PCQueue.step {}
    [.enter 0, .acquire 0, .check 0, .unblockFlag, .unblockNotify, .wait 0]).map
      (fun q ↦ (q.unblock, q.done, q.waitSet)) = some (.completed, true, [0]) by decide)
  obtain ⟨hunblock, hdone, hset⟩ := by
    simpa only [Prod.mk.injEq] using hq
  exact ⟨q, hrun, hunblock, hdone, by simp [hset]⟩

end PCQueue

end MemcacheRouter
