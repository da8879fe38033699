import Mathlib.Data.Finset.Prod
import MemcacheRouter.Routerlib.Completion

/-!
# The threads come to rest

How long the threads and their callers can go on when nothing new comes in. Every frame is read,
appended and counted once, every notification lets one thread go around its loop once more, and
every node takes one thread through `ProcessRequests` once. The cost of a state adds up what all
this can amount to, and every step pays for itself. So however the threads are scheduled, they come
to rest after a bounded number of steps, and then nobody waits in vain.
-/

open Transition

namespace MemcacheRouter.Routerlib

/-! ## The cost -/

/-- What a thread has to do for the node it works on. -/
def ThreadPc.cost : ThreadPc → ℕ
  | .reading job => 9 * job.expected.length + 8 * job.arrived.length + 1
  | .counting job _ => 9 * job.expected.length + 8 * job.arrived.length
  | .waiting | .crashed _ => 0

/-- What a thread has to do, outside `BlockingGetRequestNode`. -/
def WorkerPc.cost (thread : ThreadPc) : WorkerPc → ℕ
  | .top => 6
  | .got none => 1
  | .got (some _) => 8 + thread.cost
  | .working => 7 + thread.cost
  | .absent | .getting | .exited | .nullDereference => 0

/-- What a command costs that waits in a node. -/
def Command.cost (c : Command) : ℕ := 7 + 9 * c.numInstructions

def RequestNode.cost (n : RequestNode) : ℕ := (n.commands.map Command.cost).sum

/-- What the notification at shutdown costs. -/
def Stage.cost : Stage → ℕ
  | .flagged => 7
  | .absent | .running | .notified | .destroyed => 0

namespace Pipeline

variable {p p' : Pipeline} {t : ℕ × ℕ}

/-- To read a frame is cheaper than to expect it. -/
theorem Local.read_cost (hl : p.Local) {frames : List Bytes} {header : ProtocolHeader}
    (h : p.step (.read t frames header) = some p') (hb : p.Orderly (.read t frames header)) :
    ∃ pc, p'.threads = (p.goto t pc).threads ∧ pc.cost < (p.threads t).cost ∧
      p'.nodes = p.nodes ∧ p'.calling = p.calling := by
  rw [Pipeline.step, Pipeline.read] at h
  split at h
  · next job ht =>
    split_ifs at h with hcond
    obtain rfl := Option.some.inj h
    refine ⟨_, rfl, ?_, rfl, rfl⟩
    rw [Bool.and_eq_true, Bool.not_eq_true'] at hcond
    obtain ⟨todo, hok⟩ := hl.ok_reading ht
    obtain ⟨hne, -, -, hle⟩ := hb
    have hlen := hle job ht
    have hpos := List.length_pos_of_ne_nil hne
    rw [ht]
    simp only [ThreadPc.cost, hok.arrived_eq_nil hcond.1, List.length_zip, List.length_take,
      List.length_drop, List.length_nil]
    omega
  · cases h

theorem append_cost (h : p.step (.append t) = some p') :
    ∃ pc, p'.threads = (p.goto t pc).threads ∧ pc.cost < (p.threads t).cost ∧
      p'.nodes = p.nodes ∧ p'.calling = p.calling := by
  rw [step, Pipeline.append] at h
  split at h
  · next job ht =>
    split_ifs at h
    rw [ht]
    split at h
    · obtain rfl := Option.some.inj h
      exact ⟨_, rfl, Nat.succ_pos _, rfl, rfl⟩
    · obtain rfl := Option.some.inj h
      exact ⟨_, rfl, Nat.lt_succ_self _, rfl, rfl⟩
  · cases h

/-- To count a frame down pays for the notification. -/
theorem Local.count_cost (hl : p.Local) (h : p.step (.count t) = some p') :
    ∃ pc, p'.threads = (p.goto t pc).threads ∧ pc.cost + 3 < (p.threads t).cost ∧
      p'.nodes = p.nodes ∧ p'.calling = p.calling := by
  rw [Pipeline.step, Pipeline.count] at h
  split at h
  · next job d ht =>
    obtain ⟨todo, c, f, rest, -, harr, -⟩ := hl.ok_counting ht
    rw [ht]
    split at h
    · obtain rfl := Option.some.inj h
      refine ⟨_, rfl, ?_, rfl, rfl⟩
      simp only [ThreadPc.cost, harr, List.length_cons]
      omega
    · dsimp only at h
      split_ifs at h <;> obtain rfl := Option.some.inj h
      all_goals
        refine ⟨_, rfl, ?_, rfl, rfl⟩
        simp only [ThreadPc.cost, harr, List.length_cons, List.tail_cons]
        omega
  · cases h

end Pipeline

theorem RequestNode.cost_append (n : RequestNode) (c : Command) :
    (n.append c).cost = n.cost + c.cost := by
  simp [RequestNode.cost, RequestNode.append]

theorem sum_cost (cs : List Command) :
    (cs.map Command.cost).sum = 7 * cs.length + 9 * (answersTo cs).length := by
  induction cs with
  | nil => rfl
  | cons c cs ih =>
    have hanswers : (answersTo (c :: cs)).length = c.numInstructions + (answersTo cs).length := by
      simp [answersTo]
    rw [List.map_cons, List.sum_cons, ih, hanswers, List.length_cons, Command.cost]
    omega

/-- What a node costs that is taken. -/
theorem RequestNode.cost_start {n : RequestNode} (hn : n.commands ≠ []) :
    (ThreadPc.reading (Job.start n)).cost + 6 ≤ n.cost := by
  have hlen := List.length_pos_of_ne_nil hn
  rw [RequestNode.cost, sum_cost]
  simp only [ThreadPc.cost, Job.start, List.length_nil]
  omega

namespace Blocking

variable {s s' : Blocking} {a : BlockingAction} {v N : ℕ} {c : Command}

/-- The threads of the first `Server`s. -/
def workers (N : ℕ) : Finset (ℕ × ℕ) := Finset.range N ×ˢ Finset.range kNumThreads

def workCost (N : ℕ) (pc : ℕ × ℕ → WorkerPc) (threads : ℕ × ℕ → ThreadPc) : ℕ :=
  ∑ t ∈ workers N, (pc t).cost (threads t)

def queueCost (N : ℕ) (queue : ℕ → Monitor ℕ) : ℕ :=
  ∑ v ∈ Finset.range N, (queue v).load (Finset.range kNumThreads)

def nodeCost (N : ℕ) (nodes : ℕ → Option RequestNode) : ℕ :=
  ∑ v ∈ Finset.range N, ((nodes v).getD {}).cost

def stageCost (N : ℕ) (stage : ℕ → Stage) : ℕ := ∑ v ∈ Finset.range N, (stage v).cost

def callCost (calling : List Command) : ℕ := (calling.map fun c ↦ c.cost + 4).sum

def waitCost (N : ℕ) (waiters : ℕ → Monitor ℕ) : ℕ :=
  ∑ i ∈ Finset.range N, (waiters i).load (Finset.range N)

/-- A bound on how many steps there are to take. -/
def cost (N : ℕ) (s : Blocking) : ℕ :=
  workCost N s.pc s.pipeline.threads + queueCost N s.queue + nodeCost N s.pipeline.nodes +
    stageCost N s.stage + callCost s.pipeline.calling + waitCost N s.waiters

theorem workCost_change (pc pc' : ℕ × ℕ → WorkerPc) (threads threads' : ℕ × ℕ → ThreadPc)
    {t : ℕ × ℕ} (ht : t ∈ workers N)
    (h : ∀ u, u ≠ t → pc' u = pc u ∧ threads' u = threads u) :
    workCost N pc' threads' + (pc t).cost (threads t) =
      workCost N pc threads + (pc' t).cost (threads' t) :=
  sum_change (fun u ↦ (pc u).cost (threads u)) (fun u ↦ (pc' u).cost (threads' u)) ht
    fun u _ hne ↦ by rw [(h u hne).1, (h u hne).2]

theorem queueCost_update (hv : v < N) (queue : ℕ → Monitor ℕ) (m : Monitor ℕ) :
    queueCost N (Function.update queue v m) + (queue v).load (Finset.range kNumThreads) =
      queueCost N queue + m.load (Finset.range kNumThreads) :=
  sum_update (fun m ↦ m.load (Finset.range kNumThreads)) queue (Finset.mem_range.mpr hv) m

theorem nodeCost_update (hv : v < N) (nodes : ℕ → Option RequestNode) (n : Option RequestNode) :
    nodeCost N (Function.update nodes v n) + ((nodes v).getD {}).cost =
      nodeCost N nodes + (n.getD {}).cost :=
  sum_update (fun n ↦ (n.getD {}).cost) nodes (Finset.mem_range.mpr hv) n

theorem stageCost_update (hv : v < N) (stage : ℕ → Stage) (st : Stage) :
    stageCost N (Function.update stage v st) + (stage v).cost = stageCost N stage + st.cost :=
  sum_update Stage.cost stage (Finset.mem_range.mpr hv) st

theorem waitCost_update {i : ℕ} (hi : i < N) (waiters : ℕ → Monitor ℕ) (m : Monitor ℕ) :
    waitCost N (Function.update waiters i m) + (waiters i).load (Finset.range N) =
      waitCost N waiters + m.load (Finset.range N) :=
  sum_update (fun m ↦ m.load (Finset.range N)) waiters (Finset.mem_range.mpr hi) m

/-- Somebody is notified, whether or not he is counted. -/
theorem waitCost_le {i k : ℕ} (waiters : ℕ → Monitor ℕ) {m : Monitor ℕ}
    (hm : m.load (Finset.range N) ≤ (waiters i).load (Finset.range N) + k) :
    waitCost N (Function.update waiters i m) ≤ waitCost N waiters + k := by
  by_cases hi : i < N
  · have hwait := waitCost_update hi waiters m
    omega
  · refine (Finset.sum_congr rfl fun j hj ↦ ?_).le.trans (Nat.le_add_right _ _)
    rw [Function.update_of_ne]
    rintro rfl
    exact hi (Finset.mem_range.mp hj)

/-! ## Every step pays -/

/-- The `Server`s that exist, and those who have called `BlockingGetResponse`, are among the first
`N`. -/
structure Bounded (N : ℕ) (s : Blocking) : Prop where
  stage : ∀ v, s.stage v ≠ .absent → v < N
  waiters : ∀ i c, (s.waiters i).phase c ≠ .out → i < N ∧ c < N
  begun : ∀ c ∈ s.pipeline.begun, s.stage c.server ≠ .absent

/-- A thread that is there is one of those that are counted. -/
theorem Bounded.mem_workers (hb : s.Bounded N) (h : s.Inv) {t : ℕ × ℕ} (ht : s.pc t ≠ .absent) :
    t ∈ workers N := by
  rw [ne_eq, h.absent t, not_or] at ht
  exact Finset.mem_product.mpr
    ⟨Finset.mem_range.mpr (hb.stage t.1 ht.1), Finset.mem_range.mpr (not_le.mp ht.2)⟩

theorem Bounded.lt_of_mem {t : ℕ × ℕ} (ht : t ∈ workers N) :
    t.1 < N ∧ t.2 ∈ Finset.range kNumThreads :=
  ⟨Finset.mem_range.mp (Finset.mem_product.mp ht).1, (Finset.mem_product.mp ht).2⟩

theorem goto_off {t : ℕ × ℕ} {pc : WorkerPc} (u : ℕ × ℕ) (hne : u ≠ t) :
    (s.goto t pc).pc u = s.pc u := (pc_goto _ _ _ _).trans (if_neg hne)

/-- A thread goes on outside `BlockingGetRequestNode`. -/
theorem workCost_goto {t : ℕ × ℕ} (ht : t ∈ workers N) (pc : WorkerPc) :
    workCost N (s.goto t pc).pc s.pipeline.threads + (s.pc t).cost (s.pipeline.threads t) =
      workCost N s.pc s.pipeline.threads + pc.cost (s.pipeline.threads t) := by
  have hsum := workCost_change s.pc (s.goto t pc).pc s.pipeline.threads
    s.pipeline.threads ht fun u hne ↦ ⟨goto_off u hne, rfl⟩
  rwa [pc_goto, if_pos rfl] at hsum

/-- A thread goes on with its node. -/
theorem workCost_work {t : ℕ × ℕ} (ht : t ∈ workers N) (hpc : s.pc t = .working) {p : Pipeline}
    {thread : ThreadPc} (hthreads : p.threads = (s.pipeline.goto t thread).threads) :
    workCost N s.pc p.threads + (s.pipeline.threads t).cost =
      workCost N s.pc s.pipeline.threads + thread.cost := by
  have hsum := workCost_change s.pc s.pc s.pipeline.threads p.threads ht fun u hne ↦
    ⟨rfl, by rw [hthreads, Pipeline.threads_goto, if_neg hne]⟩
  rw [hpc, hthreads, Pipeline.threads_goto, if_pos rfl] at hsum
  simp only [WorkerPc.cost] at hsum
  rw [← hthreads] at hsum
  omega

theorem Bounded.mem_of_top (hb : s.Bounded N) (h : s.Inv) {t : ℕ × ℕ} {pc : WorkerPc}
    (ht : s.pc t = pc) (hpc : pc ≠ .absent) : t ∈ workers N :=
  hb.mem_workers h (ht ▸ hpc)

/-- A thread in `BlockingGetRequestNode`. -/
theorem Bounded.mem_of_phase (hb : s.Bounded N) (h : s.Inv) {t : ℕ × ℕ}
    (ht : (s.queue t.1).phase t.2 ≠ .out) : t ∈ workers N :=
  hb.mem_of_top h (h.getting ht).1 (fun hne ↦ nomatch hne)

/-- A step of a thread, in `ProcessRequests` or in the monitor of its `Server`. -/
theorem cost_lt_of_work (_ : s.Moves a s') (hnodes : s'.pipeline.nodes = s.pipeline.nodes)
    (hcalling : s'.pipeline.calling = s.pipeline.calling) (hstage : s'.stage = s.stage)
    (hwaiters : s'.waiters = s.waiters)
    (hlt : workCost N s'.pc s'.pipeline.threads + queueCost N s'.queue <
      workCost N s.pc s.pipeline.threads + queueCost N s.queue) : s'.cost N < s.cost N := by
  rw [cost, cost, hnodes, hcalling, hstage, hwaiters]
  omega

/-- A step of somebody who has called `BlockingGetResponse`. -/
theorem cost_lt_of_waiters {i : ℕ} {m : Monitor ℕ} (hi : i < N)
    (hload : m.load (Finset.range N) < (s.waiters i).load (Finset.range N)) :
    (s.setWaiters i m).cost N < s.cost N := by
  have hwait := waitCost_update hi s.waiters m
  show workCost N s.pc s.pipeline.threads + queueCost N s.queue + nodeCost N s.pipeline.nodes +
    stageCost N s.stage + callCost s.pipeline.calling +
    waitCost N (Function.update s.waiters i m) < s.cost N
  rw [cost]
  omega

/-- A thread goes on in the monitor of its `Server`. -/
theorem cost_lt_of_queue {m : Monitor ℕ} (hv : v < N)
    (hload : m.load (Finset.range kNumThreads) < (s.queue v).load (Finset.range kNumThreads)) :
    (s.setQueue v m).cost N < s.cost N := by
  have hqueue := queueCost_update hv s.queue m
  show workCost N s.pc s.pipeline.threads + queueCost N (Function.update s.queue v m) +
    nodeCost N s.pipeline.nodes + stageCost N s.stage + callCost s.pipeline.calling +
    waitCost N s.waiters < s.cost N
  rw [cost]
  omega

/-- **Every step pays for itself.** -/
theorem Inv.cost_step (h : s.Inv) (hb : s.Bounded N) (hm : s.Moves a s') (ha : s.Orderly a)
    (hinternal : Internal a) : s'.cost N < s.cost N := by
  have hlocal := h.invariant.1
  have hmoves := hm
  -- a thread at work gets cheaper
  have hworks : ∀ {t : ℕ × ℕ} {p : Pipeline} {thread : ThreadPc}, s.pc t = .working →
      p.threads = (s.pipeline.goto t thread).threads →
      workCost N s.pc p.threads + (s.pipeline.threads t).cost =
        workCost N s.pc s.pipeline.threads + thread.cost :=
    fun ht hthreads ↦ workCost_work (hb.mem_of_top h ht (by simp)) ht hthreads
  cases hm with
  | construct _ => exact hinternal.elim
  | increment _ _ => exact hinternal.elim
  | setDone _ => exact hinternal.elim
  | destroy _ _ => exact hinternal.elim
  | call _ => exact hinternal.elim
  | @enqueue c o m hv _ hc hm =>
    have hv : c.server < N := hb.stage _ hv.1
    have hqueue := queueCost_update hv s.queue m
    have hload := (h.queue c.server).ok.load_notifyOne (F := Finset.range kNumThreads) hm
    have hnode := nodeCost_update hv s.pipeline.nodes
      (some (((s.pipeline.nodes c.server).getD {}).append c))
    have hcalling : callCost s.pipeline.calling =
        (c.cost + 4) + callCost (s.pipeline.calling.erase c) := by
      rw [callCost, ((List.perm_cons_erase hc).map _).sum_eq, List.map_cons, List.sum_cons]
      rfl
    rw [Option.getD_some, RequestNode.cost_append] at hnode
    show workCost N s.pc s.pipeline.threads + queueCost N (Function.update s.queue c.server m) +
      nodeCost N (Function.update s.pipeline.nodes c.server _) + stageCost N s.stage +
      callCost (s.pipeline.calling.erase c) + waitCost N s.waiters < s.cost N
    rw [cost]
    omega
  | @exit t ht _ =>
    have hwork := workCost_goto (hb.mem_of_top h ht (by simp)) (s := s) .exited
    rw [ht] at hwork
    simp only [WorkerPc.cost] at hwork
    refine cost_lt_of_work hmoves rfl rfl rfl rfl ?_
    show workCost N (s.goto t .exited).pc s.pipeline.threads + queueCost N s.queue < _
    omega
  | @enter t m ht _ hm =>
    have hmem := hb.mem_of_top h ht (by simp)
    obtain ⟨hv, hi⟩ := Bounded.lt_of_mem hmem
    have hwork := workCost_goto hmem (s := s) .getting
    have hqueue := queueCost_update hv s.queue m
    have hload := Monitor.load_enter hi hm
    rw [ht] at hwork
    simp only [WorkerPc.cost] at hwork
    refine cost_lt_of_work hmoves rfl rfl rfl rfl ?_
    show workCost N (s.goto t .getting).pc s.pipeline.threads +
      queueCost N (Function.update s.queue t.1 m) < _
    omega
  | @queue v e m hm =>
    have hF : ∀ i, (s.queue v).phase i ≠ .out → i ∈ Finset.range kNumThreads := fun i hi ↦
      (Bounded.lt_of_mem (hb.mem_of_phase h (t := (v, i)) hi)).2
    have hspurious : ∀ i, e ≠ .spurious i := by
      rintro i rfl
      exact hinternal
    obtain ⟨i, hi⟩ := (h.queue v).ok.exists_of_move hm
    obtain ⟨hv, -⟩ := Bounded.lt_of_mem (hb.mem_of_phase h (t := (v, i)) hi)
    exact cost_lt_of_queue hv (Monitor.load_move hF hm hspurious)
  | @check t m hm =>
    have hphase := (Monitor.check_eq_some hm).1
    obtain ⟨hv, hi⟩ := Bounded.lt_of_mem (hb.mem_of_phase h (t := t) (by simp [hphase]))
    have hload := Monitor.load_check hi hm
    exact cost_lt_of_queue hv (by omega)
  | @empty t m _ hm =>
    have hmem := hb.mem_of_phase h (ne_out_of_leave hm)
    obtain ⟨hv, hi⟩ := Bounded.lt_of_mem hmem
    have hwork := workCost_goto hmem (s := s) (.got none)
    have hqueue := queueCost_update hv s.queue m
    have hload := Monitor.load_leave hi hm
    rw [(h.getting (ne_out_of_leave hm)).1] at hwork
    simp only [WorkerPc.cost] at hwork
    refine cost_lt_of_work hmoves rfl rfl rfl rfl ?_
    show workCost N (s.goto t (.got none)).pc s.pipeline.threads +
      queueCost N (Function.update s.queue t.1 m) < _
    omega
  | @take t m n _ hn hm =>
    have hmem := hb.mem_of_phase h (ne_out_of_leave hm)
    obtain ⟨hv, hi⟩ := Bounded.lt_of_mem hmem
    obtain ⟨hpc, hthread⟩ := h.getting (ne_out_of_leave hm)
    have hwork := workCost_change (N := N) s.pc (s.goto t (.got (some n))).pc
      s.pipeline.threads (s.pipeline.taken t n).threads hmem
      fun u hne ↦ ⟨goto_off u hne, (Pipeline.threads_taken _ _ _ _).trans (if_neg hne)⟩
    have hqueue := queueCost_update hv s.queue m
    have hload := Monitor.load_leave hi hm
    have hnode := nodeCost_update hv s.pipeline.nodes none
    have hstart := RequestNode.cost_start (h.started.nodes t.1 n hn)
    rw [hpc, pc_goto, if_pos rfl, Pipeline.threads_taken, if_pos rfl] at hwork
    rw [hn, Option.getD_some, Option.getD_none] at hnode
    simp only [WorkerPc.cost] at hwork
    show workCost N (s.goto t (.got (some n))).pc (s.pipeline.taken t n).threads +
      queueCost N (Function.update s.queue t.1 m) +
      nodeCost N (Function.update s.pipeline.nodes t.1 none) + stageCost N s.stage +
      callCost s.pipeline.calling + waitCost N s.waiters < s.cost N
    have hempty : ({} : RequestNode).cost = 0 := rfl
    rw [cost]
    omega
  | @drop t n ht _ =>
    have hwork := workCost_goto (hb.mem_of_top h ht (by simp)) (s := s) .exited
    have hpos : 0 < (WorkerPc.got n).cost (s.pipeline.threads t) := by
      rcases n with _ | n
      · exact Nat.one_pos
      · exact Nat.lt_of_lt_of_le (by decide) (Nat.le_add_right 8 _)
    rw [ht] at hwork
    simp only [WorkerPc.cost] at hwork hpos
    refine cost_lt_of_work hmoves rfl rfl rfl rfl ?_
    show workCost N (s.goto t .exited).pc s.pipeline.threads + queueCost N s.queue < _
    omega
  | @crash t ht _ =>
    have hwork := workCost_goto (hb.mem_of_top h ht (by simp)) (s := s) .nullDereference
    rw [ht] at hwork
    simp only [WorkerPc.cost] at hwork
    refine cost_lt_of_work hmoves rfl rfl rfl rfl ?_
    show workCost N (s.goto t .nullDereference).pc s.pipeline.threads + queueCost N s.queue < _
    omega
  | @send t n ht _ =>
    have hwork := workCost_goto (hb.mem_of_top h ht (by simp)) (s := s) .working
    rw [ht] at hwork
    simp only [WorkerPc.cost] at hwork
    refine cost_lt_of_work hmoves rfl rfl rfl rfl ?_
    show workCost N (s.goto t .working).pc s.pipeline.threads + queueCost N s.queue < _
    omega
  | read ht hp =>
    obtain ⟨thread, hthreads, hlt, hnodes, hcalling⟩ := hlocal.read_cost hp ha
    have hwork := hworks ht hthreads
    refine cost_lt_of_work hmoves hnodes hcalling rfl rfl ?_
    dsimp only
    omega
  | append ht _ hp =>
    obtain ⟨thread, hthreads, hlt, hnodes, hcalling⟩ := Pipeline.append_cost hp
    have hwork := hworks ht hthreads
    refine cost_lt_of_work hmoves hnodes hcalling rfl rfl ?_
    dsimp only
    omega
  | count ht _ hp =>
    obtain ⟨thread, hthreads, hlt, hnodes, hcalling⟩ := hlocal.count_cost hp
    have hwork := hworks ht hthreads
    refine cost_lt_of_work hmoves hnodes hcalling rfl rfl ?_
    dsimp only
    omega
  | @complete t o i m p ht _ _ hm hp =>
    obtain ⟨thread, hthreads, hlt, hnodes, hcalling⟩ := hlocal.count_cost hp
    have hwork := hworks ht hthreads
    have hwait := waitCost_le s.waiters ((h.waiters i).ok.load_notifyOne (F := Finset.range N) hm)
    show workCost N s.pc p.threads + queueCost N s.queue + nodeCost N p.nodes +
      stageCost N s.stage + callCost p.calling + waitCost N (Function.update s.waiters i m) <
      s.cost N
    rw [hnodes, hcalling, cost]
    omega
  | @finish t p ht hp =>
    obtain ⟨hthreads, hnodes, -⟩ := Pipeline.finish_effect hp
    have hwork := workCost_change (N := N) s.pc (s.goto t .top).pc
      s.pipeline.threads p.threads (hb.mem_of_top h ht (by simp))
      fun u hne ↦ ⟨goto_off u hne, by rw [hthreads, Pipeline.threads_goto, if_neg hne]⟩
    rw [ht, pc_goto, if_pos rfl] at hwork
    simp only [WorkerPc.cost] at hwork
    refine cost_lt_of_work hmoves hnodes (Pipeline.finish_calling hp) rfl rfl ?_
    show workCost N (s.goto t .top).pc p.threads + queueCost N s.queue < _
    omega
  | @notifyAll v hv =>
    have hlt : v < N := hb.stage v (by simp [hv])
    have hqueue := queueCost_update hlt s.queue (s.queue v).notifyAll
    have hload := (h.queue v).ok.load_notifyAll (F := Finset.range kNumThreads)
    have hstage := stageCost_update hlt s.stage .notified
    rw [hv] at hstage
    simp only [Stage.cost] at hstage
    rw [Finset.card_range, kNumThreads] at hload
    show workCost N s.pc s.pipeline.threads +
      queueCost N (Function.update s.queue v (s.queue v).notifyAll) + nodeCost N s.pipeline.nodes +
      stageCost N (Function.update s.stage v .notified) + callCost s.pipeline.calling +
      waitCost N s.waiters < s.cost N
    rw [cost]
    rw [kNumThreads] at hqueue
    omega
  | @waiters i e m hm =>
    have hspurious : ∀ c, e ≠ .spurious c := by
      rintro c rfl
      exact hinternal
    obtain ⟨c, hc⟩ := (h.waiters i).ok.exists_of_move hm
    refine cost_lt_of_waiters (hb.waiters i c hc).1 (Monitor.load_move (fun c hc ↦ ?_) hm hspurious)
    exact Finset.mem_range.mpr (hb.waiters i c hc).2
  | @callCheck i c m hm =>
    have hphase := (Monitor.check_eq_some hm).1
    obtain ⟨hi, hc⟩ := hb.waiters i c (by simp [hphase])
    have hload := Monitor.load_check (Finset.mem_range.mpr hc) hm
    exact cost_lt_of_waiters hi (by omega)
  | @callReturn i c m hm =>
    have hphase := (Monitor.leave_eq_some hm).1
    obtain ⟨hi, hc⟩ := hb.waiters i c (by simp [hphase])
    have hload := Monitor.load_leave (Finset.mem_range.mpr hc) hm
    exact cost_lt_of_waiters hi (by omega)

/-! ## Bounds -/

/-- A `Server` that exists goes on existing. -/
theorem Moves.stage_ne_absent (hm : s.Moves a s') (hv : s.stage v ≠ .absent) :
    s'.stage v ≠ .absent := by
  have hupdate : ∀ {w : ℕ} {st : Stage}, st ≠ .absent →
      Function.update s.stage w st v ≠ .absent := by
    intro w st hst
    rw [Function.update_apply]
    split_ifs
    · exact hst
    · exact hv
  cases hm with
  | construct _ => exact hupdate (by simp)
  | setDone _ => exact hupdate (by simp)
  | notifyAll _ => exact hupdate (by simp)
  | destroy _ _ => exact hupdate (by simp)
  | increment _ _ | enqueue _ _ _ _ | exit _ _ | enter _ _ _ | queue _ | check _ | empty _ _
  | take _ _ _ | drop _ _ | crash _ _ | send _ _ | read _ _ | append _ _ _ | count _ _ _
  | complete _ _ _ _ _ | finish _ _ | call _ | waiters _ | callCheck _ | callReturn _ => exact hv

/-- A command is begun for a `Server` that exists. -/
theorem Inv.begun_cases (h : s.Inv) (hm : s.Moves a s') (ha : s.Orderly a)
    (hc : c ∈ s'.pipeline.begun) : c ∈ s.pipeline.begun ∨ s.stage c.server ≠ .absent := by
  have hlocal := h.invariant.1
  cases hm with
  | increment hv _ =>
    rcases List.mem_append.mp hc with hc | hc
    · exact Or.inl hc
    · exact Or.inr (List.mem_singleton.mp hc ▸ hv.1)
  | read _ hp =>
    cases hlocal.moves hp ha
    exact Or.inl hc
  | append _ _ hp =>
    cases hlocal.moves hp trivial
    exact Or.inl hc
  | count _ _ hp => cases hlocal.moves hp trivial <;> exact Or.inl hc
  | complete _ _ _ _ hp => cases hlocal.moves hp trivial <;> exact Or.inl hc
  | finish _ hp =>
    cases hlocal.moves hp trivial
    exact Or.inl hc
  | construct _ | enqueue _ _ _ _ | exit _ _ | enter _ _ _ | queue _ | check _ | empty _ _
  | take _ _ _ | drop _ _ | crash _ _ | send _ _ | setDone _ | notifyAll _ | destroy _ _ | call _
  | waiters _ | callCheck _ | callReturn _ => exact Or.inl hc

/-- A bound on the `Server` or the caller that a step brings in. -/
def fresh : BlockingAction → ℕ
  | .construct v => v + 1
  | .call i c => max i c + 1
  | _ => 0

theorem Bounded.stage_step (hb : s.Bounded N) (hm : s.Moves a s') (hv : s'.stage v ≠ .absent) :
    v < max N (fresh a) := by
  suffices h : s.stage v ≠ .absent ∨ v < fresh a by
    rcases h with h | h
    · exact lt_max_of_lt_left (hb.stage v h)
    · exact lt_max_of_lt_right h
  cases hm with
  | @construct w _ =>
    change Function.update s.stage w .running v ≠ .absent at hv
    rw [Function.update_apply] at hv
    split_ifs at hv with heq
    · exact Or.inr (heq ▸ Nat.lt_succ_self v)
    · exact Or.inl hv
  | @setDone w hw =>
    change Function.update s.stage w .flagged v ≠ .absent at hv
    rw [Function.update_apply] at hv
    split_ifs at hv with heq
    · exact Or.inl (heq ▸ hw.1)
    · exact Or.inl hv
  | @notifyAll w hw =>
    change Function.update s.stage w .notified v ≠ .absent at hv
    rw [Function.update_apply] at hv
    split_ifs at hv with heq
    · exact Or.inl (by simp [heq, hw])
    · exact Or.inl hv
  | @destroy w hw _ =>
    change Function.update s.stage w .destroyed v ≠ .absent at hv
    rw [Function.update_apply] at hv
    split_ifs at hv with heq
    · exact Or.inl (by simp [heq, hw])
    · exact Or.inl hv
  | increment _ _ | enqueue _ _ _ _ | exit _ _ | enter _ _ _ | queue _ | check _ | empty _ _
  | take _ _ _ | drop _ _ | crash _ _ | send _ _ | read _ _ | append _ _ _ | count _ _ _
  | complete _ _ _ _ _ | finish _ _ | call _ | waiters _ | callCheck _ | callReturn _ =>
    exact Or.inl hv

theorem Bounded.waiters_step (hb : s.Bounded N) (h : s.Inv) (hm : s.Moves a s') {i d : ℕ}
    (hd : (s'.waiters i).phase d ≠ .out) : i < max N (fresh a) ∧ d < max N (fresh a) := by
  suffices hold : (s.waiters i).phase d ≠ .out ∨ i < fresh a ∧ d < fresh a by
    rcases hold with hold | hfresh
    · obtain ⟨hi, hd⟩ := hb.waiters i d hold
      exact ⟨lt_max_of_lt_left hi, lt_max_of_lt_left hd⟩
    · exact ⟨lt_max_of_lt_right hfresh.1, lt_max_of_lt_right hfresh.2⟩
  have hset : ∀ {j : ℕ} {m : Monitor ℕ},
      (∀ e, m.phase e = .out ↔ (s.waiters j).phase e = .out) →
      ((s.setWaiters j m).waiters i).phase d ≠ .out → (s.waiters i).phase d ≠ .out := by
    intro j m hout hne
    rw [waiters_setWaiters] at hne
    split_ifs at hne with heq
    · rw [heq]
      exact mt (hout d).mpr hne
    · exact hne
  cases hm with
  | @complete t o j m p _ _ _ hm _ =>
    exact Or.inl (hset (fun e ↦ ((h.waiters j).ok.shifts_notifyOne hm e).out_iff) hd)
  | @call j e m hm =>
    obtain ⟨-, rfl⟩ := Monitor.enter_eq_some hm
    rw [waiters_setWaiters] at hd
    split_ifs at hd with heq
    · rw [Monitor.phase_goto] at hd
      split_ifs at hd with hde
      · rw [heq, hde, fresh]
        exact Or.inr ⟨Nat.lt_succ_of_le (le_max_left j e), Nat.lt_succ_of_le (le_max_right j e)⟩
      · exact Or.inl (heq ▸ hd)
    · exact Or.inl hd
  | @waiters j e m hm =>
    exact Or.inl (hset (fun c ↦ ((h.waiters j).ok.shifts_move hm c).out_iff) hd)
  | @callCheck j e m hm =>
    refine Or.inl (hset (fun c ↦ ?_) hd)
    obtain ⟨hchecking, rfl⟩ := Monitor.check_eq_some hm
    rw [Monitor.phase_goto]
    split_ifs with heq hwait
    · simp [heq, hchecking]
    · simp [heq, hchecking]
    · exact Iff.rfl
  | @callReturn j e m hm =>
    refine Or.inl ?_
    obtain ⟨-, rfl⟩ := Monitor.leave_eq_some hm
    rw [waiters_setWaiters] at hd
    split_ifs at hd with heq
    · change ((s.waiters j).goto e .out).phase d ≠ .out at hd
      rw [Monitor.phase_goto] at hd
      split_ifs at hd
      · exact absurd rfl hd
      · exact heq ▸ hd
    · exact hd
  | construct _ | increment _ _ | enqueue _ _ _ _ | exit _ _ | enter _ _ _ | queue _ | check _
  | empty _ _ | take _ _ _ | drop _ _ | crash _ _ | send _ _ | read _ _ | append _ _ _
  | count _ _ _ | finish _ _ | setDone _ | notifyAll _ | destroy _ _ => exact Or.inl hd

theorem Bounded.step (hb : s.Bounded N) (h : s.Inv) (hm : s.Moves a s') (ha : s.Orderly a) :
    s'.Bounded (max N (fresh a)) where
  stage _ hv := hb.stage_step hm hv
  waiters _ _ hd := hb.waiters_step h hm hd
  begun c hc := by
    refine hm.stage_ne_absent ?_
    rcases h.begun_cases hm ha hc with hold | hv
    · exact hb.begun c hold
    · exact hv

theorem fresh_of_internal (ha : Internal a) : fresh a = 0 := by
  cases a <;> first | rfl | exact ha.elim

theorem bounded_of_run {as : List BlockingAction}
    (hrun : Run (Guarded (StepOf step) Orderly) {} as s) : ∃ N, s.Bounded N := by
  suffices h : s.Inv ∧ ∃ N, s.Bounded N from h.2
  refine hrun.invariant (I := fun s ↦ s.Inv ∧ ∃ N, s.Bounded N) ⟨inv_init, 0, ?_⟩ ?_
  · exact ⟨fun _ h ↦ absurd rfl h, fun _ _ h ↦ absurd rfl h, fun _ h ↦ nomatch h⟩
  · rintro s a s' ⟨h, N, hb⟩ ⟨hstep, ha⟩
    exact ⟨h.step hstep ha, _, hb.step h (moves_of_step hstep) ha⟩

/-! ## The end -/

/-- The steps that are not the beginning of something new. -/
def Continues (C : Blocking → BlockingAction → Prop) (s : Blocking) (a : BlockingAction) : Prop :=
  C s a ∧ Internal a

instance (s : Blocking) (a : BlockingAction) : Decidable (Continues Prompt s a) :=
  inferInstanceAs (Decidable (_ ∧ _))

theorem Bounded.kept (hb : s.Bounded N) (h : s.Inv) {bs : List BlockingAction}
    (hrun : Run (Guarded (StepOf Blocking.step) (Continues Orderly)) s bs s') :
    s'.Inv ∧ s'.Bounded N := by
  refine hrun.invariant (I := fun u ↦ u.Inv ∧ u.Bounded N) ⟨h, hb⟩ ?_
  rintro u a u' ⟨h, hb⟩ ⟨hstep, ha, hinternal⟩
  have hb' := hb.step h (moves_of_step hstep) ha
  rw [fresh_of_internal hinternal, Nat.max_zero] at hb'
  exact ⟨h.step hstep ha, hb'⟩

/-- **However the threads are scheduled, they come to rest.** -/
theorem Bounded.length_le (hb : s.Bounded N) (h : s.Inv) {bs : List BlockingAction}
    (hrun : Run (Guarded (StepOf Blocking.step) (Continues Orderly)) s bs s') :
    bs.length ≤ s.cost N := by
  have hle := hrun.length_add_le (μ := cost N) fun ms u a u' hu hstep ↦ by
    obtain ⟨h, hb⟩ := hb.kept h hu
    exact h.cost_step hb (moves_of_step hstep.1) hstep.2.1 hstep.2.2
  omega

/-- They do so because somebody can go on until then. -/
theorem Bounded.exists_quiescent (h : s.Inv) (hb : s.Bounded N) : ∃ bs s',
    Run (Guarded (StepOf Blocking.step) (Continues Orderly)) s bs s' ∧ s'.Quiescent := by
  induction hcost : s.cost N using Nat.strong_induction_on generalizing s with
  | _ n ih =>
    by_cases hq : s.Quiescent
    · exact ⟨[], s, Run.nil s, hq⟩
    · simp only [Quiescent, not_forall] at hq
      obtain ⟨a, hinternal, ha, hne⟩ := hq
      obtain ⟨u, hu⟩ := Option.ne_none_iff_exists'.mp hne
      have hstep : Guarded (StepOf Blocking.step) (Continues Orderly) s a u :=
        ⟨hu, ha, hinternal⟩
      obtain ⟨h', hb'⟩ := hb.kept h (Run.single hstep)
      have hlt := h.cost_step hb (moves_of_step hu) ha hinternal
      obtain ⟨bs, s', hrun, hq'⟩ := ih _ (hcost ▸ hlt) h' hb' rfl
      exact ⟨a :: bs, s', Run.cons hstep hrun, hq'⟩

theorem Continues.orderly (h : Continues Prompt s a) : Continues Orderly s a := ⟨h.1.1, h.2⟩

/-- What is done for a `Server`: its commands are answered, and its threads wait for the next. -/
def Serves (s : Blocking) (v : ℕ) : Prop :=
  (∀ c ∈ s.pipeline.begun, c.server = v → c ∈ s.pipeline.decremented ∧
    s.pipeline.numAppended c = c.numInstructions) ∧
  ∀ i < kNumThreads, i ∈ (s.queue v).waitSet

/-- **Every command is answered.** From any state that the callers and the threads of any `Server`s
can reach, they come to rest after a bounded number of steps if nothing new comes in, and not before
every command for a `Server` that was not shut down is answered. -/
theorem commands_complete {as : List BlockingAction}
    (hrun : Run (Guarded (StepOf step) Orderly) {} as s) :
    (∃ N, ∀ bs s', Run (Guarded (StepOf step) (Continues Orderly)) s bs s' → bs.length ≤ N) ∧
    (∃ bs s', Run (Guarded (StepOf step) (Continues Orderly)) s bs s' ∧ s'.Quiescent) ∧
    ∀ bs s', Run (Guarded (StepOf step) (Continues Orderly)) s bs s' → s'.Quiescent →
      ∀ v, s'.stage v = .running → s'.Serves v := by
  have h := inv_of_run hrun
  obtain ⟨N, hb⟩ := bounded_of_run hrun
  refine ⟨⟨s.cost N, fun bs s' hrun' ↦ hb.length_le h hrun'⟩, hb.exists_quiescent h, ?_⟩
  intro bs s' hrun' hq v hv
  obtain ⟨h', -⟩ := hb.kept h hrun'
  obtain ⟨hlocal, hlisted, haccounted⟩ := h'.invariant
  refine ⟨fun c hc hserver ↦ ?_, fun i hi ↦ hq.asleep h' hv hi⟩
  have hdecremented := hq.answered h' hc (hserver ▸ hv)
  exact ⟨hdecremented, haccounted.complete hlocal hlisted hdecremented⟩

/-- **Nobody waits in vain**, if no notification misses anybody: from any state that can be reached,
the threads and their callers take a bounded number of steps if nothing new comes in, and whenever
they have come to rest everything is settled. -/
theorem calls_return {as : List BlockingAction}
    (hrun : Run (Guarded (StepOf step) Prompt) {} as s) :
    ∃ N, ∀ bs s', Run (Guarded (StepOf step) (Continues Prompt)) s bs s' → bs.length ≤ N ∧
      (s'.Quiescent → s'.Settled) := by
  have hrun₀ : Run (Guarded (StepOf step) Orderly) {} as s :=
    hrun.mono fun _ _ _ hst ↦ ⟨hst.1, hst.2.1⟩
  obtain ⟨N, hb⟩ := bounded_of_run hrun₀
  refine ⟨s.cost N, fun bs s' hrun' ↦ ⟨?_, fun hq ↦ ?_⟩⟩
  · exact hb.length_le (inv_of_run hrun₀) (hrun'.mono fun _ _ _ hst ↦ ⟨hst.1, hst.2.orderly⟩)
  · obtain ⟨h', hn⟩ := noneMissed_of_run (hrun.append (hrun'.mono fun _ _ _ hst ↦ ⟨hst.1, hst.2.1⟩))
    exact hq.settled h' hn

/-- A command is added, and its caller waits for the answer. -/
def askRun : List BlockingAction :=
  [.construct 0, .increment 0 [1] 1 7, .call 7 3, .enqueue ⟨0, 0, [1], 1, 7⟩ none,
    .waiters 7 (.acquire 3), .callCheck 7 3, .waiters 7 (.wait 3)]

/-- One thread answers it, while the other waits for the next, and the caller gets the response. -/
def answerRun : List BlockingAction :=
  [.loop (0, 0), .queue 0 (.acquire 0), .check (0, 0), .leave (0, 0), .loop (0, 1), .test (0, 0),
    .read (0, 0) [Routerlib.getResponse] {}, .queue 0 (.acquire 1), .check (0, 1),
    .queue 0 (.wait 1), .append (0, 0), .count (0, 0) (some 3), .finish (0, 0),
    .waiters 7 (.acquire 3), .callCheck 7 3, .callReturn 7 3]

theorem exists_askRun : ∃ s : Blocking, Run (Guarded (StepOf step) Prompt) {} askRun s ∧
    ∃ s', Run (Guarded (StepOf step) (Continues Prompt)) s answerRun s' ∧
      s'.pipeline.decremented = [⟨0, 0, [1], 1, 7⟩] := by
  have hask : ((execChecked step (fun s a ↦ decide (s.Prompt a)) {} askRun).bind fun s ↦
      (execChecked step (fun s a ↦ decide (Continues Prompt s a)) s answerRun).map
        fun s ↦ s.pipeline.decremented) = some [⟨0, 0, [1], 1, 7⟩] := by decide
  obtain ⟨s, hs, hanswer⟩ := Option.bind_eq_some_iff.mp hask
  obtain ⟨s₁, hrun, rfl⟩ := exists_run_of_execChecked (f := id)
    (fun s a ↦ of_decide_eq_true (p := Prompt s a)) (by rw [hs]; rfl)
  obtain ⟨s', hrun', hs'⟩ := exists_run_of_execChecked
    (fun s a ↦ of_decide_eq_true (p := Continues Prompt s a)) hanswer
  exact ⟨_, hrun, s', hrun', hs'⟩

theorem commands_complete_asked : ∃ s : Blocking, Run (Guarded (StepOf step) Orderly) {} askRun s ∧
    ∃ bs s', Run (Guarded (StepOf step) (Continues Orderly)) s bs s' ∧ s'.Quiescent ∧
      (s'.stage 0 = .running → s'.Serves 0) := by
  obtain ⟨s, hrun, -⟩ := exists_askRun
  have hrun₀ : Run (Guarded (StepOf step) Orderly) {} askRun s :=
    hrun.mono fun _ _ _ hst ↦ ⟨hst.1, hst.2.1⟩
  obtain ⟨-, ⟨bs, s', hrun', hq⟩, hserves⟩ := commands_complete hrun₀
  exact ⟨s, hrun₀, bs, s', hrun', hq, hserves bs s' hrun' hq 0⟩

theorem calls_return_asked : ∃ (s : Blocking) (N : ℕ),
    Run (Guarded (StepOf step) Prompt) {} askRun s ∧ answerRun.length ≤ N ∧
    ∀ bs s', Run (Guarded (StepOf step) (Continues Prompt)) s bs s' → s'.Quiescent →
      s'.Settled := by
  obtain ⟨s, hrun, s', hrun', -⟩ := exists_askRun
  obtain ⟨N, hN⟩ := calls_return hrun
  exact ⟨s, N, hrun, (hN _ s' hrun').1, fun bs u hu hq ↦ (hN bs u hu).2 hq⟩

end Blocking

end MemcacheRouter.Routerlib
