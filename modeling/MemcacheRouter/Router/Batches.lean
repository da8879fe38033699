import Mathlib.Algebra.BigOperators.Group.List.Basic
import Mathlib.Algebra.Ring.Nat
import MemcacheRouter.Router.PCQueue

/-!
# What the queue hands out

The queue together with the record of what went through it: the packets that were pushed, what each
`BlockingPop` returned, and the threads that were notified and have not taken the mutex again since.
The record is not read by any step.

Whatever the threads do, the packets pushed so far are the packets handed out so far followed by
those still queued. A batch is a single packet that is not a GET, or it is a run of GET packets that
is cut only by the end of the queue, by another kind of packet, or by the limit on the number of
keys. And no packet is left with everybody asleep: as long as there are packets, nobody is in the
wait set, or somebody was notified, or somebody holds the mutex and will pop and pass the
notification on.
-/

open Transition

namespace MemcacheRouter

/-! ## Batches -/

/-- The number of keys of some GET packets. -/
def numGetKeys (packets : List Packet) : ℕ :=
  (packets.map fun p ↦ p.instruction.getKeys.length).sum

/-- A batch is one packet that is not a GET, or GET packets that reach the limit on the number of
keys only with the last of them. -/
def LegalBatch (batch : List Packet) : Prop :=
  (∃ p, batch = [p] ∧ p.isGet = false) ∨
    (batch ≠ [] ∧ (∀ p ∈ batch, p.isGet = true) ∧ numGetKeys batch.dropLast < maxKeysPerRequest)

/-- What ends a batch of GET packets. -/
def EndsBatch (batch rest : List Packet) : Prop :=
  rest = [] ∨ (∃ p ps, rest = p :: ps ∧ p.isGet = false) ∨ maxKeysPerRequest ≤ numGetKeys batch

theorem numGetKeys_cons (p : Packet) (ps : List Packet) :
    numGetKeys (p :: ps) = p.instruction.getKeys.length + numGetKeys ps := by
  rw [numGetKeys, List.map_cons, List.sum_cons, numGetKeys]

theorem numGetKeys_dropLast_cons (p : Packet) {ps : List Packet} (h : ps ≠ []) :
    numGetKeys (p :: ps).dropLast = p.instruction.getKeys.length + numGetKeys ps.dropLast := by
  rw [List.dropLast_cons_of_ne_nil h, numGetKeys_cons]

theorem Packet.getKeys_pos {p : Packet} (h : p.isGet = true) :
    0 < p.instruction.getKeys.length := by
  rw [isGet, decide_eq_true_iff] at h
  exact List.length_pos_of_ne_nil h

/-- **The loop of `BlockingPop`, once it has taken a GET packet.** It goes on with GET packets, as
long as the limit is not reached. -/
private theorem popLoop_gets : ∀ (packets : List Packet) (n : ℕ), 0 < n →
    (∀ p ∈ (popLoop id n packets).1, p.isGet = true) ∧
      ((popLoop id n packets).1 ≠ [] →
        n + numGetKeys (popLoop id n packets).1.dropLast < maxKeysPerRequest) ∧
      ((popLoop id n packets).2 = [] ∨
        (∃ p ps, (popLoop id n packets).2 = p :: ps ∧ p.isGet = false) ∨
        maxKeysPerRequest ≤ n + numGetKeys (popLoop id n packets).1) := by
  intro packets
  induction packets with
  | nil => exact fun n _ ↦ ⟨by simp [popLoop], by simp [popLoop], Or.inl rfl⟩
  | cons p ps ih =>
    intro n hn
    rw [popLoop]
    by_cases hlimit : n < maxKeysPerRequest
    · rw [if_pos hlimit]
      by_cases hget : p.isGet = true
      · obtain ⟨hgets, hlt, hends⟩ := ih (n + p.instruction.getKeys.length) (by omega)
        simp only [id_eq, hget, Bool.not_true, Bool.false_eq_true, if_false, List.mem_cons,
          forall_eq_or_imp, true_and, numGetKeys_cons, ← add_assoc]
        refine ⟨hgets, fun _ ↦ ?_, hends⟩
        -- the last packet may go beyond the limit, and those before it may not
        by_cases hnil : (popLoop id (n + p.instruction.getKeys.length) ps).1 = []
        · rw [hnil]
          exact hlimit
        · rw [numGetKeys_dropLast_cons p hnil, ← add_assoc]
          exact hlt hnil
      · have hne : n ≠ 0 := by omega
        simp only [id_eq, Bool.eq_false_iff.mpr hget, Bool.not_false, if_true, if_neg hne]
        refine ⟨by simp, by simp, Or.inr (Or.inl ⟨p, ps, rfl, Bool.eq_false_iff.mpr hget⟩)⟩
    · rw [if_neg hlimit]
      refine ⟨by simp, by simp, Or.inr (Or.inr ?_)⟩
      exact (not_lt.mp hlimit).trans (Nat.le_add_right _ _)

/-- **What `BlockingPop` takes from a queue that is not empty.** -/
theorem popBatch_legal {packets : List Packet} (h : packets ≠ []) :
    LegalBatch (popBatch id packets).1 ∧ ((∀ p ∈ (popBatch id packets).1, p.isGet = true) →
      EndsBatch (popBatch id packets).1 (popBatch id packets).2) := by
  obtain ⟨p, ps, rfl⟩ := List.exists_cons_of_ne_nil h
  rw [popBatch, popLoop, if_pos (by decide)]
  by_cases hget : p.isGet = true
  · obtain ⟨hgets, hlt, hends⟩ :=
      popLoop_gets ps (0 + p.instruction.getKeys.length) (by have := Packet.getKeys_pos hget; omega)
    rw [zero_add] at hgets hlt hends
    simp only [id_eq, hget, Bool.not_true, Bool.false_eq_true, if_false, zero_add]
    refine ⟨Or.inr ⟨List.cons_ne_nil _ _, ?_, ?_⟩, fun _ ↦ ?_⟩
    · exact List.forall_mem_cons.mpr ⟨hget, hgets⟩
    · by_cases hnil : (popLoop id p.instruction.getKeys.length ps).1 = []
      · rw [hnil]
        exact (by decide : 0 < maxKeysPerRequest)
      · rw [numGetKeys_dropLast_cons p hnil]
        exact hlt hnil
    · rw [EndsBatch, numGetKeys_cons]
      exact hends
  · have hfalse := Bool.eq_false_iff.mpr hget
    simp only [id_eq, hfalse, Bool.not_false, if_true]
    refine ⟨Or.inl ⟨p, rfl, hfalse⟩, fun hall ↦ ?_⟩
    exact absurd (hall p List.mem_cons_self) hget

/-! ## The record -/

/-- What happened in one `BlockingPop`: whether it saw `done_`, what it returned, and the queue
before and after it. -/
structure Popped where
  thread : ℕ
  sawDone : Bool
  batch : List Packet
  before : List Packet
  rest : List Packet

/-- The batch that a thread returns from `BlockingPop`. -/
def PCQueue.returned (q : PCQueue) : List Packet :=
  if q.done then [] else (popBatch id q.packets).1

/-- The thread that a step notifies. A thread that leaves nothing behind notifies nobody. -/
def PCQueue.notifies (q : PCQueue) : QueueAction → List ℕ
  | .push _ notified => notified.toList
  | .finish _ notified =>
    if q.done ∨ (popBatch id q.packets).2 = [] then [] else notified.toList
  | .unblockNotify => q.waitSet
  | _ => []

/-- The queue and the record of what went through it. -/
structure QueueLog where
  queue : PCQueue := {}
  pushed : List Packet := []
  pops : List Popped := []
  /-- The threads that were notified and have not taken the mutex again. -/
  notified : List ℕ := []

namespace QueueLog

/-- The record after a step that leaves the queue as `q`. -/
def record (s : QueueLog) (a : QueueAction) (q : PCQueue) : QueueLog where
  queue := q
  pushed := match a with
    | .push p _ => s.pushed ++ [p]
    | _ => s.pushed
  pops := match a with
    | .finish i _ =>
      s.pops ++ [⟨i, s.queue.done, s.queue.returned, s.queue.packets, q.packets⟩]
    | _ => s.pops
  notified := match a with
    | .acquire i => s.notified.filter (· ≠ i)
    | a => s.queue.notifies a ++ s.notified

/-- One step of the queue, recorded. -/
def step (s : QueueLog) (a : QueueAction) : Option QueueLog := (s.queue.step a).map (s.record a)

/-- `Reset` is called only when no thread is in `BlockingPop`. -/
def ResetsOutside (s : QueueLog) (a : QueueAction) : Prop :=
  a = .reset → ∀ i, s.queue.pc i = .out

variable {s s' : QueueLog} {a : QueueAction} {as : List QueueAction}

theorem exists_moves (h : s.step a = some s') :
    ∃ q, s.queue.Moves a q ∧ s' = s.record a q := by
  obtain ⟨q, hq, rfl⟩ := Option.map_eq_some_iff.mp h
  exact ⟨q, PCQueue.moves_of_step hq, rfl⟩

end QueueLog

/-! ## The mutex -/

namespace PCQueue

variable {q q' : PCQueue} {a : QueueAction}

/-- A thread that is in its critical section. -/
def Inside (q : PCQueue) (i : ℕ) : Prop :=
  q.pc i = .checking ∨ q.pc i = .waiting ∨ q.pc i = .popping

/-- The thread in its critical section owns the mutex, and what it found out about the queue there
is still true. -/
structure Locked (q : PCQueue) : Prop where
  owner : ∀ i, q.Inside i → q.owner = some i
  waiting : ∀ i, q.pc i = .waiting → q.packets = []
  popping : ∀ i, q.pc i = .popping → q.done = true ∨ q.packets ≠ []

theorem Inside.of_pc {i : ℕ} (h : q.Inside i) (hpc : q'.pc i = q.pc i) : q'.Inside i := by
  rwa [Inside, hpc]

theorem not_inside_of_woken {i : ℕ} (h : q.pc i = .woken) : ¬q.Inside i := by
  simp [Inside, h]

theorem notifyOne_frame {notified : Option ℕ} (h : q.notifyOne notified = some q') :
    q'.packets = q.packets ∧ q'.done = q.done ∧ q'.owner = q.owner ∧
      ∀ i, q'.pc i = q.pc i ∨ q'.pc i = .woken := by
  rcases notifyOne_cases h with ⟨-, -, rfl⟩ | ⟨j, -, -, rfl⟩
  · exact ⟨rfl, rfl, rfl, fun _ ↦ Or.inl rfl⟩
  · refine ⟨rfl, rfl, rfl, fun i ↦ ?_⟩
    rw [pc_wake]
    split_ifs
    · exact Or.inr rfl
    · exact Or.inl rfl

/-- Nobody is in a critical section. -/
theorem locked_of_forall_not_inside (h : ∀ i, ¬q.Inside i) : q.Locked where
  owner i hi := absurd hi (h i)
  waiting i hi := absurd (Or.inr (Or.inl hi)) (h i)
  popping i hi := absurd (Or.inr (Or.inr hi)) (h i)

/-- One thread is in its critical section, and has not looked at the queue yet. -/
theorem locked_of_checking {i : ℕ} (howner : q.owner = some i) (hpc : q.pc i = .checking)
    (hother : ∀ j ≠ i, ¬q.Inside j) : q.Locked where
  owner j hj := by
    by_cases hji : j = i
    · rw [hji, howner]
    · exact absurd hj (hother j hji)
  waiting j hj := by
    by_cases hji : j = i
    · exact absurd (hpc.symm.trans (hji ▸ hj)) (by simp)
    · exact absurd (Or.inr (Or.inl hj)) (hother j hji)
  popping j hj := by
    by_cases hji : j = i
    · exact absurd (hpc.symm.trans (hji ▸ hj)) (by simp)
    · exact absurd (Or.inr (Or.inr hj)) (hother j hji)

/-- A step that brings nobody into a critical section and leaves the queue alone. -/
theorem Locked.frame (hq : q.Locked) (hpc : ∀ i, q'.Inside i → q.pc i = q'.pc i)
    (howner : q'.owner = q.owner) (hpackets : q'.packets = q.packets)
    (hdone : q.done = true → q'.done = true) : q'.Locked where
  owner i hi := howner.trans (hq.owner i (hi.of_pc (hpc i hi)))
  waiting i hi := by
    rw [hpackets]
    exact hq.waiting i ((hpc i (Or.inr (Or.inl hi))).trans hi)
  popping i hi := by
    rw [hpackets]
    exact (hq.popping i ((hpc i (Or.inr (Or.inr hi))).trans hi)).imp_left hdone

theorem Locked.not_inside_of_owner (hq : q.Locked) (h : q.owner = none) (i : ℕ) :
    ¬q.Inside i := by
  intro hi
  rw [hq.owner i hi] at h
  cases h

theorem Locked.eq_of_inside (hq : q.Locked) {i j : ℕ} (hi : q.Inside i) (hj : q.Inside j) :
    j = i :=
  Option.some.inj ((hq.owner j hj).symm.trans (hq.owner i hi))

/-- The thread in the critical section leaves it. -/
theorem Locked.leave (hq : q.Locked) {i : ℕ} (hi : q.Inside i) (hout : ¬q'.Inside i)
    (hpc : ∀ j ≠ i, q'.pc j = q.pc j ∨ q'.pc j = .woken) : q'.Locked := by
  refine locked_of_forall_not_inside fun j hj ↦ ?_
  by_cases hji : j = i
  · exact hout (hji ▸ hj)
  · rcases hpc j hji with h | h
    · exact hji (hq.eq_of_inside hi (hj.of_pc h.symm))
    · exact not_inside_of_woken h hj

theorem Locked.leave_goto (hq : q.Locked) {i : ℕ} (pc : PopPc) (hi : q.Inside i)
    (hpc : q'.pc = (q.goto i pc).pc) (hout : pc ≠ .checking ∧ pc ≠ .waiting ∧ pc ≠ .popping) :
    q'.Locked := by
  refine hq.leave hi ?_ fun j hji ↦ Or.inl ?_
  · rw [Inside, hpc, pc_goto, if_pos rfl]
    tauto
  · rw [hpc, pc_goto, if_neg hji]

/-- The thread in the critical section goes on in it. -/
theorem Locked.goto (hq : q.Locked) {i : ℕ} {pc : PopPc} (hi : q.Inside i)
    (hwait : pc = .waiting → q.packets = [])
    (hpop : pc = .popping → q.done = true ∨ q.packets ≠ []) : (q.goto i pc).Locked := by
  have hother : ∀ j ≠ i, ¬q.Inside j := fun j hji hj ↦ hji (hq.eq_of_inside hi hj)
  refine ⟨fun j hj ↦ ?_, fun j hj ↦ ?_, fun j hj ↦ ?_⟩
  · by_cases hji : j = i
    · exact hji ▸ hq.owner i hi
    · refine absurd (hj.of_pc ?_) (hother j hji)
      rw [pc_goto, if_neg hji]
  · rw [pc_goto] at hj
    split_ifs at hj with hji
    · exact hwait hj
    · exact hq.waiting j hj
  · rw [pc_goto] at hj
    split_ifs at hj with hji
    · exact hpop hj
    · exact hq.popping j hj

/-- **One step.** -/
theorem Locked.step (hq : q.Locked) (h : q.Moves a q')
    (hreset : a = .reset → ∀ i, q.pc i = .out) : q'.Locked := by
  cases h with
  | @enter i hi =>
    refine hq.frame (fun j hj ↦ ?_) rfl rfl id
    rw [pc_goto]
    split_ifs with hji
    · rw [Inside, pc_goto, if_pos hji] at hj
      simp at hj
    · rfl
  | @acquire i hfree _ =>
    refine locked_of_checking rfl ((q.pc_goto i i _).trans (if_pos rfl)) fun j hji hj ↦ ?_
    refine hq.not_inside_of_owner hfree j (hj.of_pc ?_)
    exact ((q.pc_goto i j _).trans (if_neg hji)).symm
  | mustWait hi hwait =>
    refine hq.goto (Or.inl hi) (fun _ ↦ ?_) (by simp)
    rw [PCQueue.mustWait, Bool.and_eq_true, List.isEmpty_iff] at hwait
    exact hwait.2
  | mayPop hi hpop =>
    refine hq.goto (Or.inl hi) (by simp) (fun _ ↦ ?_)
    rw [PCQueue.mustWait, Bool.and_eq_false_iff, Bool.not_eq_false', List.isEmpty_eq_false_iff]
      at hpop
    exact hpop
  | wait hi => exact hq.leave_goto .blocked (Or.inr (Or.inl hi)) rfl (by simp)
  | @spurious i _ =>
    refine hq.frame (fun j hj ↦ ?_) rfl rfl id
    rw [pc_wake]
    split_ifs with hji
    · rw [Inside, pc_wake, if_pos hji] at hj
      simp at hj
    · rfl
  | stopped hi _ => exact hq.leave_goto .out (Or.inr (Or.inr hi)) rfl (by simp)
  | popAll hi _ _ => exact hq.leave_goto .out (Or.inr (Or.inr hi)) rfl (by simp)
  | @popSome i _ _ hi _ _ hnotify =>
    obtain ⟨-, -, -, hpc⟩ := notifyOne_frame hnotify
    refine hq.leave (Or.inr (Or.inr hi)) (fun hin ↦ ?_) fun j hji ↦ ?_
    · rcases hpc i with h | h
      · rw [Inside, h] at hin
        simp [PCQueue.goto] at hin
      · exact not_inside_of_woken h hin
    · exact (hpc j).imp_left fun h ↦ h.trans ((q.pc_goto i j _).trans (if_neg hji))
  | push hfree hnotify =>
    obtain ⟨-, -, -, hpc⟩ := notifyOne_frame hnotify
    refine locked_of_forall_not_inside fun j hj ↦ ?_
    rcases hpc j with h | h
    · exact hq.not_inside_of_owner hfree j (hj.of_pc h.symm)
    · exact not_inside_of_woken h hj
  | unblockFlag => exact hq.frame (fun _ _ ↦ rfl) rfl rfl fun _ ↦ rfl
  | unblockNotify _ =>
    refine hq.frame (fun j hj ↦ ?_) rfl rfl id
    show q.pc j = if j ∈ q.waitSet then .woken else q.pc j
    split_ifs with hmem
    · refine absurd hj (not_inside_of_woken ?_)
      exact if_pos hmem
    · rfl
  | reset =>
    refine locked_of_forall_not_inside fun j hj ↦ ?_
    have hout : q.pc j = .out := hreset rfl j
    simp [Inside, hout] at hj

end PCQueue

/-! ## Nothing is lost, duplicated or reordered -/

/-- A `BlockingPop` did what it should: nothing if it saw `done_`, and otherwise it took a batch
from the front of the queue, as long as it may be. -/
structure Popped.Legal (r : Popped) : Prop where
  before : r.before = r.batch ++ r.rest
  sawDone : r.sawDone = true → r.batch = [] ∧ r.rest = r.before
  legal : r.sawDone = false → r.batch ≠ [] ∧ LegalBatch r.batch
  maximal : r.sawDone = false → (∀ p ∈ r.batch, p.isGet = true) → EndsBatch r.batch r.rest

namespace QueueLog

variable {s s' : QueueLog} {a : QueueAction} {as : List QueueAction}

/-- What a finished `BlockingPop` leaves in the queue. -/
theorem packets_of_finish {i : ℕ} {notified : Option ℕ} {q q' : PCQueue}
    (h : q.Moves (.finish i notified) q') :
    q'.packets = if q.done then q.packets else (popBatch id q.packets).2 := by
  cases h with
  | stopped _ hdone => rw [if_pos hdone]; rfl
  | popAll _ hdone hrest => rw [if_neg (by simp [hdone]), hrest]
  | popSome _ hdone _ hnotify =>
    rw [if_neg (by simp [hdone]), (PCQueue.notifyOne_frame hnotify).1]

/-- **One `BlockingPop`.** -/
theorem legal_of_finish {i : ℕ} {notified : Option ℕ} {q q' : PCQueue} (hq : q.Locked)
    (h : q.Moves (.finish i notified) q') :
    Popped.Legal ⟨i, q.done, q.returned, q.packets, q'.packets⟩ := by
  have hrest := packets_of_finish h
  have hi : q.pc i = .popping := by cases h <;> assumption
  by_cases hdone : q.done = true
  · rw [if_pos hdone] at hrest
    rw [PCQueue.returned, if_pos hdone, hrest]
    exact ⟨rfl, fun _ ↦ ⟨rfl, rfl⟩, fun h ↦ absurd (hdone.symm.trans h) (by simp),
      fun h ↦ absurd (hdone.symm.trans h) (by simp)⟩
  · rw [if_neg hdone] at hrest
    rw [PCQueue.returned, if_neg hdone, hrest]
    have hne : q.packets ≠ [] := (hq.popping i hi).resolve_left hdone
    obtain ⟨hlegal, hends⟩ := popBatch_legal hne
    refine ⟨(popBatch_append id q.packets).symm, fun h ↦ absurd h hdone, fun _ ↦ ⟨?_, hlegal⟩,
      fun _ ↦ hends⟩
    rcases hlegal with ⟨p, hp, -⟩ | ⟨hne', -⟩
    · exact hp ▸ List.cons_ne_nil _ _
    · exact hne'

/-- The steps other than `Push` and the end of `BlockingPop` leave the packets alone. -/
theorem packets_of_moves {q q' : PCQueue} (h : q.Moves a q')
    (hpush : ∀ p notified, a ≠ .push p notified) (hfinish : ∀ i notified, a ≠ .finish i notified) :
    q'.packets = q.packets := by
  cases h with
  | stopped => exact absurd rfl (hfinish _ _)
  | popAll => exact absurd rfl (hfinish _ _)
  | popSome => exact absurd rfl (hfinish _ _)
  | push => exact absurd rfl (hpush _ _)
  | _ => rfl

/-- The invariant of the record. -/
structure Faithful (s : QueueLog) : Prop where
  locked : s.queue.Locked
  conserved : s.pushed = (s.pops.map Popped.batch).flatten ++ s.queue.packets
  legal : ∀ r ∈ s.pops, r.Legal

theorem faithful_init : Faithful {} where
  locked := PCQueue.locked_of_forall_not_inside fun _ ↦ by simp [PCQueue.Inside]
  conserved := rfl
  legal := by
    intro r hr
    cases hr

/-- **One step keeps the record faithful.** -/
theorem Faithful.step (hs : s.Faithful) (h : s.step a = some s') (hreset : s.ResetsOutside a) :
    s'.Faithful := by
  obtain ⟨q, hmoves, rfl⟩ := exists_moves h
  have hlocked := hs.locked.step hmoves hreset
  by_cases hfinish : ∃ i notified, a = .finish i notified
  · obtain ⟨i, notified, rfl⟩ := hfinish
    have hlegal := legal_of_finish hs.locked hmoves
    refine ⟨hlocked, ?_, ?_⟩
    · show s.pushed = _
      rw [hs.conserved, record, List.map_append, List.flatten_append, List.append_assoc]
      simp only [List.map_cons, List.map_nil, List.flatten_cons, List.flatten_nil,
        List.append_nil]
      exact congrArg _ hlegal.before
    · intro r hr
      rcases List.mem_append.mp hr with hr | hr
      · exact hs.legal r hr
      · exact List.mem_singleton.mp hr ▸ hlegal
  · have hpops : (s.record a q).pops = s.pops := by
      cases a <;> first | rfl | exact absurd ⟨_, _, rfl⟩ hfinish
    refine ⟨hlocked, ?_, hpops ▸ hs.legal⟩
    rw [hpops]
    by_cases hpush : ∃ p notified, a = .push p notified
    · obtain ⟨p, notified, rfl⟩ := hpush
      have hpackets : q.packets = s.queue.packets ++ [p] := by
        cases hmoves with
        | push _ hnotify => exact (PCQueue.notifyOne_frame hnotify).1
      show s.pushed ++ [p] = _ ++ q.packets
      rw [hs.conserved, hpackets, List.append_assoc]
    · have hpushed : (s.record a q).pushed = s.pushed := by
        cases a <;> first | rfl | exact absurd ⟨_, _, rfl⟩ hpush
      have hpackets : (s.record a q).queue.packets = s.queue.packets :=
        packets_of_moves hmoves (fun p n ha ↦ hpush ⟨p, n, ha⟩) fun i n ha ↦ hfinish ⟨i, n, ha⟩
      rw [hpushed, hpackets]
      exact hs.conserved

/-- **The queue neither loses, duplicates nor reorders packets, and forms legal batches only.** For
any number of threads and any interleaving, in which `Reset` is called only when no thread is in
`BlockingPop`: the packets pushed so far are the batches returned so far, in the order of the pops,
followed by the packets in the queue; and every pop was legal. -/
theorem queue_conserves (as : List QueueAction) (s : QueueLog)
    (hrun : Run (Guarded (StepOf step) ResetsOutside) {} as s) :
    s.pushed = (s.pops.map Popped.batch).flatten ++ s.queue.packets ∧ ∀ r ∈ s.pops, r.Legal := by
  have hs : s.Faithful := hrun.invariant faithful_init fun _ _ _ hs hstep ↦
    hs.step hstep.1 hstep.2
  exact ⟨hs.conserved, hs.legal⟩

/-- Two threads, the first of which waits before anything is pushed: it is notified by the first of
two GET packets, takes both, and leaves a packet of another kind to the second thread. -/
def cutRun : List QueueAction :=
  [.enter 0, .acquire 0, .check 0, .wait 0, .push { instruction := { getKeys := [{}] } } (some 0),
    .push { instruction := { getKeys := [{}, {}] } } none,
    .push { instruction := { setKeys := [{}] } } none, .enter 1, .acquire 0, .check 0,
    .finish 0 none, .push { instruction := { getKeys := [{}] } } none, .acquire 1, .check 1,
    .finish 1 none]

theorem queue_conserves_cut : ∃ s,
    Run (Guarded (StepOf step) ResetsOutside) {} cutRun s ∧
      (s.pushed = (s.pops.map Popped.batch).flatten ++ s.queue.packets ∧
        ∀ r ∈ s.pops, r.Legal) ∧
      s.pops.map (fun r ↦ (r.thread, r.batch.map fun p ↦ p.instruction.getKeys.length))
        = [(0, [1, 2]), (1, [0])] ∧ s.queue.packets.length = 1 := by
  obtain ⟨s, hrun, hs⟩ := exists_run_of_exec (show (exec step {} cutRun).map (fun s ↦
      (s.pops.map fun r ↦ (r.thread, r.batch.map fun p ↦ p.instruction.getKeys.length),
        s.queue.packets.length)) = some ([(0, [1, 2]), (1, [0])], 1) by decide +kernel)
  rw [Prod.mk.injEq] at hs
  have hguarded := hrun.guarded_of_forall (C := ResetsOutside) fun _ a ha ↦ by
    rintro rfl
    simp [cutRun] at ha
  exact ⟨s, hguarded, queue_conserves _ _ hguarded, hs⟩

/-! ## No packet is left with everybody asleep -/

/-- Nobody sleeps on packets: if there are any, nobody is in the wait set, or somebody was notified
and is on the way, or somebody holds the mutex and is going to pop. -/
structure Awake (s : QueueLog) : Prop where
  locked : s.queue.Locked
  waitSet : s.queue.WaitSetOk
  done : s.queue.done = false
  notified : ∀ i ∈ s.notified, s.queue.pc i = .woken
  awake : s.queue.packets ≠ [] → s.queue.waitSet = [] ∨ s.notified ≠ [] ∨
    ∃ i, s.queue.pc i = .checking ∨ s.queue.pc i = .popping

theorem awake_init : Awake {} where
  locked := faithful_init.locked
  waitSet := ⟨List.nodup_nil, by simp⟩
  done := rfl
  notified := by simp
  awake h := absurd rfl h

/-- A step of `Push` or `BlockingPop`. -/
def PushesOrPops (a : QueueAction) : Prop :=
  a ≠ .unblockFlag ∧ a ≠ .unblockNotify ∧ a ≠ .reset

/-- The threads on the way stay on the way while another one moves. -/
theorem woken_goto {q : PCQueue} {i : ℕ} (pc : PopPc) {js : List ℕ}
    (h : ∀ j ∈ js, q.pc j = .woken) (hi : q.pc i ≠ .woken) :
    ∀ j ∈ js, (q.goto i pc).pc j = .woken := by
  intro j hj
  rw [PCQueue.pc_goto, if_neg]
  · exact h j hj
  · rintro rfl
    exact hi (h j hj)

theorem woken_wake {q : PCQueue} {js : List ℕ} (h : ∀ j ∈ js, q.pc j = .woken) (i : ℕ) :
    ∀ j ∈ i :: js, (q.wake i).pc j = .woken := by
  intro j hj
  rw [PCQueue.pc_wake]
  split_ifs with hji
  · rfl
  · exact h j ((List.mem_cons.mp hj).resolve_left hji)

/-- A notification with packets in the queue: nobody waits, or somebody is on the way. -/
theorem awake_notifyOne {q q' : PCQueue} {notified : Option ℕ} {js : List ℕ}
    (h : q.notifyOne notified = some q') (hjs : ∀ j ∈ js, q.pc j = .woken) :
    (∀ j ∈ notified.toList ++ js, q'.pc j = .woken) ∧
      (q'.waitSet = [] ∨ notified.toList ++ js ≠ []) := by
  rcases PCQueue.notifyOne_cases h with ⟨rfl, hset, rfl⟩ | ⟨j, -, rfl, rfl⟩
  · exact ⟨hjs, Or.inl hset⟩
  · exact ⟨woken_wake hjs j, Or.inr (List.cons_ne_nil _ _)⟩

theorem done_of_moves {q q' : PCQueue} (h : q.Moves a q') (ha : PushesOrPops a) :
    q'.done = q.done := by
  cases h with
  | popSome _ _ _ hnotify => exact (PCQueue.notifyOne_frame hnotify).2.1
  | push _ hnotify => exact (PCQueue.notifyOne_frame hnotify).2.1
  | unblockFlag => exact absurd rfl ha.1
  | unblockNotify => exact absurd rfl ha.2.1
  | reset => exact absurd rfl ha.2.2
  | _ => rfl

/-- **One step.** Whoever takes a notification passes it on, unless it leaves no packet behind. -/
theorem Awake.step (hs : s.Awake) (h : s.step a = some s') (ha : PushesOrPops a) : s'.Awake := by
  have hset : s'.queue.WaitSetOk := by
    obtain ⟨q, hq, rfl⟩ := Option.map_eq_some_iff.mp h
    exact hs.waitSet.step hq
  obtain ⟨q, hmoves, rfl⟩ := exists_moves h
  have hlocked := hs.locked.step hmoves fun hreset ↦ absurd hreset ha.2.2
  have hdone : q.done = false := (done_of_moves hmoves ha).trans hs.done
  suffices hrest : (∀ i ∈ (s.record a q).notified, q.pc i = .woken) ∧
      (q.packets ≠ [] → q.waitSet = [] ∨ (s.record a q).notified ≠ [] ∨
        ∃ i, q.pc i = .checking ∨ q.pc i = .popping) from
    ⟨hlocked, hset, hdone, hrest.1, hrest.2⟩
  have hwoken := hs.notified
  cases hmoves with
  | @enter i hi =>
    refine ⟨woken_goto _ hwoken (by simp [hi]), fun hne ↦ ?_⟩
    refine (hs.awake hne).imp_right (Or.imp_right ?_)
    rintro ⟨j, hj⟩
    refine ⟨j, ?_⟩
    rwa [PCQueue.pc_goto, if_neg]
    rintro rfl
    simp [hi] at hj
  | @acquire i _ _ =>
    refine ⟨fun j hj ↦ ?_, fun _ ↦ Or.inr (Or.inr ⟨i, Or.inl ?_⟩)⟩
    · have hj := List.mem_filter.mp hj
      exact ((s.queue.pc_goto i j _).trans (if_neg (by simpa using hj.2))).trans (hwoken j hj.1)
    · exact (s.queue.pc_goto i i _).trans (if_pos rfl)
  | @mustWait i hi hwait =>
    rw [PCQueue.mustWait, Bool.and_eq_true, List.isEmpty_iff] at hwait
    exact ⟨woken_goto _ hwoken (by simp [hi]), fun hne ↦ absurd hwait.2 hne⟩
  | @mayPop i hi _ =>
    refine ⟨woken_goto _ hwoken (by simp [hi]), fun _ ↦ Or.inr (Or.inr ⟨i, Or.inr ?_⟩)⟩
    rw [PCQueue.pc_goto, if_pos rfl]
  -- a thread on its way to sleep still has the mutex, and has found the queue empty
  | @wait i hi =>
    exact ⟨woken_goto _ hwoken (by simp [hi]), fun hne ↦ absurd (hs.locked.waiting i hi) hne⟩
  | @spurious i hi =>
    have hblocked := (hs.waitSet.mem_iff i).mp hi
    refine ⟨fun j hj ↦ woken_wake hwoken i j (List.mem_cons_of_mem _ hj), fun hne ↦ ?_⟩
    rcases hs.awake hne with hnil | hnotified | ⟨j, hj⟩
    · rw [hnil] at hi
      cases hi
    · exact Or.inr (Or.inl hnotified)
    · refine Or.inr (Or.inr ⟨j, ?_⟩)
      rwa [PCQueue.pc_wake, if_neg]
      rintro rfl
      simp [hblocked] at hj
  | stopped _ hstop =>
    rw [hs.done] at hstop
    cases hstop
  | @popAll i _ hi _ hrest =>
    rw [record]
    simp only [PCQueue.notifies, hrest, or_true, if_true, List.nil_append]
    exact ⟨woken_goto _ hwoken (by simp [hi]), fun hne ↦ absurd rfl hne⟩
  -- packets are left, and the notification goes on to another thread
  | @popSome i notified _ hi hnot hrest hnotify =>
    rw [record]
    simp only [PCQueue.notifies, hnot, Bool.false_eq_true, hrest, or_false, if_false]
    obtain ⟨hon, hor⟩ := awake_notifyOne hnotify (woken_goto .out hwoken (by simp [hi]))
    exact ⟨hon, fun _ ↦ hor.imp_right Or.inl⟩
  | push _ hnotify =>
    obtain ⟨hon, hor⟩ := awake_notifyOne hnotify hwoken
    exact ⟨hon, fun _ ↦ hor.imp_right Or.inl⟩
  | unblockFlag => exact absurd rfl ha.1
  | unblockNotify => exact absurd rfl ha.2.1
  | reset => exact absurd rfl ha.2.2

/-- **No packet is left with everybody asleep.** For any number of threads and any interleaving of
`Push` and `BlockingPop`, with spurious wake-ups: whenever the mutex is free and there are packets,
the wait set is empty, or a thread was notified and has not taken the mutex again. -/
theorem no_packet_left_asleep (as : List QueueAction) (s : QueueLog)
    (hrun : Run (StepOf step) {} as s) (hacts : ∀ a ∈ as, PushesOrPops a)
    (hfree : s.queue.owner = none) (hne : s.queue.packets ≠ []) :
    s.queue.waitSet = [] ∨ ∃ i ∈ s.notified, s.queue.pc i = .woken := by
  have hguarded := hrun.guarded_of_forall (C := fun _ a ↦ PushesOrPops a) fun _ ↦ hacts
  have hs : s.Awake := hguarded.invariant awake_init fun _ _ _ hs hstep ↦ hs.step hstep.1 hstep.2
  rcases hs.awake hne with hset | hnotified | ⟨i, hi⟩
  · exact Or.inl hset
  · obtain ⟨i, hi⟩ := List.exists_mem_of_ne_nil _ hnotified
    exact Or.inr ⟨i, hi, hs.notified i hi⟩
  · refine absurd ?_ (hs.locked.not_inside_of_owner hfree i)
    exact hi.imp_right Or.inr

/-- A thread waits and is notified by the push. -/
theorem no_packet_left_asleep_pushed : ∃ s,
    Run (StepOf step) {} [.enter 0, .acquire 0, .check 0, .wait 0, .enter 1, .acquire 1, .check 1,
        .wait 1, .push {} (some 0)] s ∧
      s.queue.owner = none ∧ s.queue.packets ≠ [] ∧ s.queue.waitSet = [1] ∧
      (s.queue.waitSet = [] ∨ ∃ i ∈ s.notified, s.queue.pc i = .woken) := by
  obtain ⟨s, hrun, hs⟩ := exists_run_of_exec (show (exec step {} [.enter 0, .acquire 0, .check 0,
    .wait 0, .enter 1, .acquire 1, .check 1, .wait 1, .push {} (some 0)]).map
      (fun s ↦ (s.queue.owner, s.queue.packets, s.queue.waitSet)) = some (none, [{}], [1]) by
        decide)
  simp only [Prod.mk.injEq] at hs
  obtain ⟨howner, hpackets, hset⟩ := hs
  have hne : s.queue.packets ≠ [] := by simp [hpackets]
  refine ⟨s, hrun, howner, hne, hset, no_packet_left_asleep _ _ hrun ?_ howner hne⟩
  simp [PushesOrPops]

end QueueLog

end MemcacheRouter
