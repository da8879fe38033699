import MemcacheRouter.Foundations.Monitor
import MemcacheRouter.Routerlib.Pending

/-!
# The blocking calls

The pipeline with its mutexes, its condition variables and its shutdown. A `Server` is constructed
with its threads. They wait in `BlockingGetRequestNode` for a node or for `done_`, and those who
call `BlockingGetResponse` wait for a counter. `AddCommand` and `DecrementPending` hold the mutex
and notify one thread. The destructor, and `SetDone` with it, hold no mutex: they set `done_` and
notify all threads in two steps. The destructor then joins the threads, and the `Server` is gone.

What the threads do with a node is in `Pipeline`, and a run of this system is a run of that one
(`Inv.run`). At shutdown a thread deletes the node it has just taken. In the pipeline it is then
a thread that does not go on.

The callers are trusted in three things. Nobody calls a `Server` that is gone, or is still in
`AddCommand` when it goes (`Orderly`). A `ResponseState` outlives the commands added for it. And
nobody calls `ResponseState::Reset`, which the code itself does not call either.
-/

open Transition

namespace MemcacheRouter.Routerlib

/-- `kNumThreads`. -/
def kNumThreads : ℕ := 2

/-- How far a `Server` has got. -/
inductive Stage where
  | absent | running | flagged | notified | destroyed
  deriving DecidableEq, Repr

/-- `done_` is set from `flagged` on. -/
def Stage.done : Stage → Bool
  | .absent | .running => false
  | .flagged | .notified | .destroyed => true

/-- The `Server` is there. -/
def Stage.Alive (st : Stage) : Prop := st ≠ .absent ∧ st ≠ .destroyed

instance (st : Stage) : Decidable st.Alive := inferInstanceAs (Decidable (_ ∧ _))

deriving instance DecidableEq for RequestNode

/-- Where a thread is in `Server::ProcessRequests`, once it is connected. -/
inductive WorkerPc where
  | absent
  /-- About to test `!done_` in the outer loop. -/
  | top
  /-- In `BlockingGetRequestNode`. -/
  | getting
  /-- About to test `done_`, with what `BlockingGetRequestNode` has returned. -/
  | got (n : Option RequestNode)
  /-- Sending and reading, as the pipeline has it. -/
  | working
  | exited
  /-- `n->request` was read, and `n` is `NULL`. -/
  | nullDereference
  deriving DecidableEq

/-- The pipeline with what its threads wait for. -/
structure Blocking where
  pipeline : Pipeline := {}
  stage : ℕ → Stage := fun _ ↦ .absent
  pc : ℕ × ℕ → WorkerPc := fun _ ↦ .absent
  /-- `m_` and `cond_` of a `Server`, for its threads. -/
  queue : ℕ → Monitor ℕ := fun _ ↦ {}
  /-- `m_` and `cond_` of a `ResponseState`, for those who call `BlockingGetResponse`. -/
  waiters : ℕ → Monitor ℕ := fun _ ↦ {}
  /-- The commands of the nodes that were deleted at shutdown. -/
  dropped : List Command := []

/-- The steps. A notification carries the thread that it wakes. -/
inductive BlockingAction where
  | construct (server : ℕ)
  | increment (server : ℕ) (bytes : Bytes) (numInstructions state : ℕ)
  | enqueue (c : Command) (notified : Option ℕ)
  | loop (t : ℕ × ℕ)
  | queue (server : ℕ) (e : Monitor.Move ℕ)
  | check (t : ℕ × ℕ)
  | leave (t : ℕ × ℕ)
  | test (t : ℕ × ℕ)
  | read (t : ℕ × ℕ) (frames : List Bytes) (header : ProtocolHeader)
  | append (t : ℕ × ℕ)
  | count (t : ℕ × ℕ) (notified : Option ℕ)
  | finish (t : ℕ × ℕ)
  | setDone (server : ℕ)
  | notifyAll (server : ℕ)
  | destroy (server : ℕ)
  | call (state caller : ℕ)
  | waiters (state : ℕ) (e : Monitor.Move ℕ)
  | callCheck (state caller : ℕ)
  | callReturn (state caller : ℕ)

/-- The `ResponseState` whose mutex the next half of a turn takes: `AddResponse` does, and
`DecrementPending` if the command is complete. -/
def ThreadPc.locks : ThreadPc → Option ℕ
  | .reading job =>
    match job.cursor.deliver job.node.states with
    | .ok d => some d.target
    | .error _ => none
  | .counting job d =>
    match job.cursor.count d with
    | .ok (true, _) => some d.target
    | _ => none
  | _ => none

namespace Blocking

/-- `done_`. -/
def done (s : Blocking) (server : ℕ) : Bool := (s.stage server).done

def goto (s : Blocking) (t : ℕ × ℕ) (pc : WorkerPc) : Blocking :=
  { s with pc := Function.update s.pc t pc }

def setQueue (s : Blocking) (server : ℕ) (m : Monitor ℕ) : Blocking :=
  { s with queue := Function.update s.queue server m }

def setWaiters (s : Blocking) (state : ℕ) (m : Monitor ℕ) : Blocking :=
  { s with waiters := Function.update s.waiters state m }

/-- `Server::Server` and `InitThreads`. -/
def construct (s : Blocking) (server : ℕ) : Option Blocking :=
  if s.stage server = .absent then
    some { s with
      stage := Function.update s.stage server .running
      pc := fun t ↦ if t.1 = server ∧ t.2 < kNumThreads then .top else s.pc t }
  else none

/-- The first half of `Server::AddCommand`. -/
def increment (s : Blocking) (server : ℕ) (bytes : Bytes) (numInstructions state : ℕ) :
    Option Blocking :=
  if (s.stage server).Alive ∧ (s.waiters state).owner = none then
    some { s with pipeline := s.pipeline.increment server bytes numInstructions state }
  else none

/-- The second half of `Server::AddCommand`, which wakes up a thread. -/
def enqueue (s : Blocking) (c : Command) (notified : Option ℕ) : Option Blocking :=
  if (s.stage c.server).Alive ∧ (s.queue c.server).owner = none then do
    let p ← s.pipeline.enqueue c
    let m ← (s.queue c.server).notifyOne notified
    some { s.setQueue c.server m with pipeline := p }
  else none

/-- The outer loop: `BlockingGetRequestNode` is called, unless `done_` is set. -/
def loop (s : Blocking) (t : ℕ × ℕ) : Option Blocking :=
  match s.pc t with
  | .top =>
    if s.done t.1 then some (s.goto t .exited)
    else ((s.queue t.1).enter t.2).map fun m ↦ (s.goto t .getting).setQueue t.1 m
  | _ => none

/-- The loop condition of `BlockingGetRequestNode`. -/
def mustWait (s : Blocking) (server : ℕ) : Bool :=
  !s.done server && (s.pipeline.nodes server).isNone

def check (s : Blocking) (t : ℕ × ℕ) : Option Blocking :=
  ((s.queue t.1).check t.2 (s.mustWait t.1)).map (s.setQueue t.1)

/-- The end of `BlockingGetRequestNode`. -/
def leave (s : Blocking) (t : ℕ × ℕ) : Option Blocking :=
  ((s.queue t.1).leave t.2).map fun m ↦
    if s.done t.1 then (s.goto t (.got none)).setQueue t.1 m
    else match s.pipeline.nodes t.1 with
      | none => (s.goto t (.got none)).setQueue t.1 m
      | some n =>
        { (s.goto t (.got (some n))).setQueue t.1 m with pipeline := s.pipeline.taken t n }

/-- `if (done_)`: the thread deletes what it has and exits, or sends the request. -/
def test (s : Blocking) (t : ℕ × ℕ) : Option Blocking :=
  match s.pc t with
  | .got n =>
    if s.done t.1 then
      some { s.goto t .exited with dropped := s.dropped ++ (n.map RequestNode.commands).getD [] }
    else match n with
      | none => some (s.goto t .nullDereference)
      | some _ => some (s.goto t .working)
  | _ => none

/-- The pipeline moves, for a thread at work. -/
def work (s : Blocking) (t : ℕ × ℕ) (p : Option Pipeline) : Option Blocking :=
  match s.pc t with
  | .working => p.map fun p ↦ { s with pipeline := p }
  | _ => none

/-- The first half of a turn. -/
def append (s : Blocking) (t : ℕ × ℕ) : Option Blocking :=
  if ∀ i, (s.pipeline.threads t).locks = some i → (s.waiters i).owner = none then
    s.work t (s.pipeline.append t)
  else none

/-- The second half of a turn. -/
def count (s : Blocking) (t : ℕ × ℕ) (notified : Option ℕ) : Option Blocking :=
  match (s.pipeline.threads t).locks with
  | none => s.work t (s.pipeline.count t)
  | some i =>
    if (s.waiters i).owner = none then
      ((s.waiters i).notifyOne notified).bind fun m ↦ (s.setWaiters i m).work t (s.pipeline.count t)
    else none

/-- The node is deleted, and the thread goes back to the outer loop. -/
def finish (s : Blocking) (t : ℕ × ℕ) : Option Blocking :=
  (s.work t (s.pipeline.finish t)).map fun s ↦ s.goto t .top

/-- The first step of `SetDone` and of the destructor. -/
def setDone (s : Blocking) (server : ℕ) : Option Blocking :=
  if (s.stage server).Alive then
    some { s with stage := Function.update s.stage server .flagged }
  else none

/-- The second step. -/
def notifyAll (s : Blocking) (server : ℕ) : Option Blocking :=
  if s.stage server = .flagged then
    some { s.setQueue server (s.queue server).notifyAll with
      stage := Function.update s.stage server .notified }
  else none

/-- Every thread of a `Server` has exited, so that the destructor returns. -/
def Stopped (s : Blocking) (server : ℕ) : Prop := ∀ i < kNumThreads, s.pc (server, i) = .exited

instance (s : Blocking) (server : ℕ) : Decidable (s.Stopped server) :=
  inferInstanceAs (Decidable (∀ _ < _, _))

/-- The end of the destructor, which has joined the threads. A node that nobody has taken is not
deleted. -/
def destroy (s : Blocking) (server : ℕ) : Option Blocking :=
  if s.stage server = .notified ∧ s.Stopped server then
    some { s with stage := Function.update s.stage server .destroyed }
  else none

/-- `BlockingGetResponse` returns. -/
def callReturn (s : Blocking) (state caller : ℕ) : Option Blocking :=
  ((s.waiters state).leave caller).map (s.setWaiters state)

/-- One step. -/
def step (s : Blocking) : BlockingAction → Option Blocking
  | .construct v => s.construct v
  | .increment v bytes n i => s.increment v bytes n i
  | .enqueue c notified => s.enqueue c notified
  | .loop t => s.loop t
  | .queue v e => ((s.queue v).move e).map (s.setQueue v)
  | .check t => s.check t
  | .leave t => s.leave t
  | .test t => s.test t
  | .read t frames header => s.work t (s.pipeline.read t frames header)
  | .append t => s.append t
  | .count t notified => s.count t notified
  | .finish t => s.finish t
  | .setDone v => s.setDone v
  | .notifyAll v => s.notifyAll v
  | .destroy v => s.destroy v
  | .call i c => ((s.waiters i).enter c).map (s.setWaiters i)
  | .waiters i e => ((s.waiters i).move e).map (s.setWaiters i)
  | .callCheck i c =>
    ((s.waiters i).check c (decide (0 < (s.pipeline.heap i).numLeft))).map (s.setWaiters i)
  | .callReturn i c => s.callReturn i c

/-- The connections work, a command has at least one instruction, and no call of `AddCommand` is
under way when a `Server` is destroyed. -/
def Orderly (s : Blocking) : BlockingAction → Prop
  | .increment v bytes n i => s.pipeline.Orderly (.increment v bytes n i)
  | .read t frames header => s.pipeline.Orderly (.read t frames header)
  | .destroy v => ∀ c ∈ s.pipeline.calling, c.server ≠ v
  | _ => True

instance (s : Blocking) (a : BlockingAction) : Decidable (s.Orderly a) :=
  match a with
  | .increment v bytes n i =>
    inferInstanceAs (Decidable (s.pipeline.Orderly (.increment v bytes n i)))
  | .read t frames header =>
    inferInstanceAs (Decidable (s.pipeline.Orderly (.read t frames header)))
  | .destroy v => inferInstanceAs (Decidable (∀ c ∈ s.pipeline.calling, c.server ≠ v))
  | .construct _ | .enqueue _ _ | .loop _ | .queue _ _ | .check _ | .leave _ | .test _ | .append _
  | .count _ _ | .finish _ | .setDone _ | .notifyAll _ | .call _ _ | .waiters _ _ | .callCheck _ _
  | .callReturn _ _ => inferInstanceAs (Decidable True)

/-! ## What a step can do -/

/-- What a step can do. -/
inductive Moves (s : Blocking) : BlockingAction → Blocking → Prop
  | construct {v} (hv : s.stage v = .absent) :
      Moves s (.construct v) { s with
        stage := Function.update s.stage v .running
        pc := fun t ↦ if t.1 = v ∧ t.2 < kNumThreads then .top else s.pc t }
  | increment {v bytes n i} (hv : (s.stage v).Alive) (hfree : (s.waiters i).owner = none) :
      Moves s (.increment v bytes n i) { s with pipeline := s.pipeline.increment v bytes n i }
  | enqueue {c o m} (hv : (s.stage c.server).Alive) (hfree : (s.queue c.server).owner = none)
      (hc : c ∈ s.pipeline.calling) (hm : (s.queue c.server).notifyOne o = some m) :
      Moves s (.enqueue c o) { s.setQueue c.server m with pipeline := s.pipeline.enqueued c }
  | exit {t} (ht : s.pc t = .top) (hdone : s.done t.1 = true) :
      Moves s (.loop t) (s.goto t .exited)
  | enter {t m} (ht : s.pc t = .top) (hdone : s.done t.1 = false)
      (hm : (s.queue t.1).enter t.2 = some m) :
      Moves s (.loop t) ((s.goto t .getting).setQueue t.1 m)
  | queue {v e m} (hm : (s.queue v).move e = some m) : Moves s (.queue v e) (s.setQueue v m)
  | check {t m} (hm : (s.queue t.1).check t.2 (s.mustWait t.1) = some m) :
      Moves s (.check t) (s.setQueue t.1 m)
  | empty {t m} (hempty : s.done t.1 = true ∨ s.pipeline.nodes t.1 = none)
      (hm : (s.queue t.1).leave t.2 = some m) :
      Moves s (.leave t) ((s.goto t (.got none)).setQueue t.1 m)
  | take {t m n} (hdone : s.done t.1 = false) (hn : s.pipeline.nodes t.1 = some n)
      (hm : (s.queue t.1).leave t.2 = some m) :
      Moves s (.leave t)
        { (s.goto t (.got (some n))).setQueue t.1 m with pipeline := s.pipeline.taken t n }
  | drop {t n} (ht : s.pc t = .got n) (hdone : s.done t.1 = true) :
      Moves s (.test t)
        { s.goto t .exited with dropped := s.dropped ++ (n.map RequestNode.commands).getD [] }
  | crash {t} (ht : s.pc t = .got none) (hdone : s.done t.1 = false) :
      Moves s (.test t) (s.goto t .nullDereference)
  | send {t n} (ht : s.pc t = .got (some n)) (hdone : s.done t.1 = false) :
      Moves s (.test t) (s.goto t .working)
  | read {t frames header p} (ht : s.pc t = .working)
      (hp : s.pipeline.step (.read t frames header) = some p) :
      Moves s (.read t frames header) { s with pipeline := p }
  | append {t p} (ht : s.pc t = .working)
      (hfree : ∀ i, (s.pipeline.threads t).locks = some i → (s.waiters i).owner = none)
      (hp : s.pipeline.step (.append t) = some p) : Moves s (.append t) { s with pipeline := p }
  | count {t o p} (ht : s.pc t = .working) (hlocks : (s.pipeline.threads t).locks = none)
      (hp : s.pipeline.step (.count t) = some p) : Moves s (.count t o) { s with pipeline := p }
  | complete {t o i m p} (ht : s.pc t = .working) (hlocks : (s.pipeline.threads t).locks = some i)
      (hfree : (s.waiters i).owner = none) (hm : (s.waiters i).notifyOne o = some m)
      (hp : s.pipeline.step (.count t) = some p) :
      Moves s (.count t o) { s.setWaiters i m with pipeline := p }
  | finish {t p} (ht : s.pc t = .working) (hp : s.pipeline.step (.finish t) = some p) :
      Moves s (.finish t) { s.goto t .top with pipeline := p }
  | setDone {v} (hv : (s.stage v).Alive) :
      Moves s (.setDone v) { s with stage := Function.update s.stage v .flagged }
  | notifyAll {v} (hv : s.stage v = .flagged) :
      Moves s (.notifyAll v) { s.setQueue v (s.queue v).notifyAll with
        stage := Function.update s.stage v .notified }
  | destroy {v} (hv : s.stage v = .notified) (hstopped : s.Stopped v) :
      Moves s (.destroy v) { s with stage := Function.update s.stage v .destroyed }
  | call {i c m} (hm : (s.waiters i).enter c = some m) : Moves s (.call i c) (s.setWaiters i m)
  | waiters {i e m} (hm : (s.waiters i).move e = some m) : Moves s (.waiters i e) (s.setWaiters i m)
  | callCheck {i c m}
      (hm : (s.waiters i).check c (decide (0 < (s.pipeline.heap i).numLeft)) = some m) :
      Moves s (.callCheck i c) (s.setWaiters i m)
  | callReturn {i c m} (hm : (s.waiters i).leave c = some m) :
      Moves s (.callReturn i c) (s.setWaiters i m)

variable {s s' : Blocking} {a : BlockingAction}

theorem work_eq_some {t : ℕ × ℕ} {p : Option Pipeline} (h : s.work t p = some s') :
    s.pc t = .working ∧ ∃ p', p = some p' ∧ s' = { s with pipeline := p' } := by
  rw [work] at h
  split at h
  · next ht =>
    obtain ⟨p', hp, rfl⟩ := Option.map_eq_some_iff.mp h
    exact ⟨ht, p', hp, rfl⟩
  · cases h

theorem moves_of_loop {t : ℕ × ℕ} (h : s.loop t = some s') : s.Moves (.loop t) s' := by
  rw [loop] at h
  split at h
  · next ht =>
    split_ifs at h with hdone
    · exact Option.some.inj h ▸ .exit ht hdone
    · obtain ⟨m, hm, rfl⟩ := Option.map_eq_some_iff.mp h
      exact .enter ht (Bool.not_eq_true _ ▸ hdone) hm
  · cases h

theorem moves_of_leave {t : ℕ × ℕ} (h : s.leave t = some s') : s.Moves (.leave t) s' := by
  obtain ⟨m, hm, rfl⟩ := Option.map_eq_some_iff.mp h
  dsimp only
  split_ifs with hdone
  · exact .empty (Or.inl hdone) hm
  · split
    · next hnone => exact .empty (Or.inr hnone) hm
    · next n hn => exact .take (Bool.not_eq_true _ ▸ hdone) hn hm

theorem moves_of_test {t : ℕ × ℕ} (h : s.test t = some s') : s.Moves (.test t) s' := by
  rw [test] at h
  split at h
  · next n ht =>
    split_ifs at h with hdone
    · exact Option.some.inj h ▸ .drop ht hdone
    · rw [Bool.not_eq_true] at hdone
      split at h
      · exact Option.some.inj h ▸ .crash ht hdone
      · exact Option.some.inj h ▸ .send ht hdone
  · cases h

theorem moves_of_count {t : ℕ × ℕ} {o : Option ℕ} (h : s.count t o = some s') :
    s.Moves (.count t o) s' := by
  rw [count] at h
  split at h
  · next hlocks =>
    obtain ⟨ht, p, hp, rfl⟩ := work_eq_some h
    exact .count ht hlocks hp
  · next i hlocks =>
    split_ifs at h with hfree
    obtain ⟨m, hm, hwork⟩ := Option.bind_eq_some_iff.mp h
    obtain ⟨ht, p, hp, rfl⟩ := work_eq_some hwork
    exact .complete ht hlocks hfree hm hp

/-- **What a step can do.** -/
theorem moves_of_step (h : s.step a = some s') : s.Moves a s' := by
  rcases a with v | ⟨v, bytes, n, i⟩ | ⟨c, o⟩ | t | ⟨v, e⟩ | t | t | t | ⟨t, frames, header⟩ | t |
    ⟨t, o⟩ | t | v | v | v | ⟨i, c⟩ | ⟨i, e⟩ | ⟨i, c⟩ | ⟨i, c⟩
  case construct =>
    rw [step, Blocking.construct] at h
    split_ifs at h with hv
    exact Option.some.inj h ▸ .construct hv
  case increment =>
    rw [step, Blocking.increment] at h
    split_ifs at h with hv
    exact Option.some.inj h ▸ .increment hv.1 hv.2
  case enqueue =>
    rw [step, Blocking.enqueue] at h
    split_ifs at h with hcond
    obtain ⟨p, hp, h⟩ := Option.bind_eq_some_iff.mp h
    obtain ⟨m, hm, h⟩ := Option.bind_eq_some_iff.mp h
    rw [Pipeline.enqueue] at hp
    split_ifs at hp with hc
    obtain rfl := Option.some.inj hp
    exact Option.some.inj h ▸ .enqueue hcond.1 hcond.2 hc hm
  case loop => exact moves_of_loop h
  case queue =>
    obtain ⟨m, hm, rfl⟩ := Option.map_eq_some_iff.mp h
    exact .queue hm
  case check =>
    obtain ⟨m, hm, rfl⟩ := Option.map_eq_some_iff.mp h
    exact .check hm
  case leave => exact moves_of_leave h
  case test => exact moves_of_test h
  case read =>
    obtain ⟨ht, p, hp, rfl⟩ := work_eq_some h
    exact .read ht hp
  case append =>
    rw [step, Blocking.append] at h
    split_ifs at h with hfree
    obtain ⟨ht, p, hp, rfl⟩ := work_eq_some h
    exact .append ht hfree hp
  case count => exact moves_of_count h
  case finish =>
    obtain ⟨u, hwork, rfl⟩ := Option.map_eq_some_iff.mp h
    obtain ⟨ht, p, hp, rfl⟩ := work_eq_some hwork
    exact .finish ht hp
  case setDone =>
    rw [step, Blocking.setDone] at h
    split_ifs at h with hv
    exact Option.some.inj h ▸ .setDone hv
  case notifyAll =>
    rw [step, Blocking.notifyAll] at h
    split_ifs at h with hv
    exact Option.some.inj h ▸ .notifyAll hv
  case destroy =>
    rw [step, Blocking.destroy] at h
    split_ifs at h with hcond
    exact Option.some.inj h ▸ .destroy hcond.1 hcond.2
  case call =>
    obtain ⟨m, hm, rfl⟩ := Option.map_eq_some_iff.mp h
    exact .call hm
  case waiters =>
    obtain ⟨m, hm, rfl⟩ := Option.map_eq_some_iff.mp h
    exact .waiters hm
  case callCheck =>
    obtain ⟨m, hm, rfl⟩ := Option.map_eq_some_iff.mp h
    exact .callCheck hm
  case callReturn =>
    obtain ⟨m, hm, rfl⟩ := Option.map_eq_some_iff.mp h
    exact .callReturn hm

end Blocking

/-! ## What holds of every thread -/

/-- Where a thread is in `ProcessRequests`, in the pipeline and in the monitor of its `Server`. -/
def WorkerPc.Ok (done : Bool) (thread : ThreadPc) (phase : Phase) : WorkerPc → Prop
  | .absent | .top => thread = .waiting ∧ phase = .out
  | .getting => thread = .waiting ∧ phase ≠ .out
  | .got none => thread = .waiting ∧ phase = .out ∧ done = true
  | .got (some n) => thread = .reading (Job.start n) ∧ phase = .out
  | .working => thread ≠ .waiting ∧ phase = .out
  | .exited => (thread = .waiting ∨ ∃ n, thread = .reading (Job.start n)) ∧ phase = .out ∧
      done = true
  | .nullDereference => False

theorem WorkerPc.Ok.mono {done done' : Bool} {thread : ThreadPc} {phase phase' : Phase}
    {pc : WorkerPc} (h : pc.Ok done thread phase) (hdone : done = true → done' = true)
    (hphase : phase' = .out ↔ phase = .out) : pc.Ok done' thread phase' := by
  rcases pc with _ | _ | _ | (_ | n) | _ | _ | _
  · exact ⟨h.1, hphase.mpr h.2⟩
  · exact ⟨h.1, hphase.mpr h.2⟩
  · exact ⟨h.1, mt hphase.mp h.2⟩
  · exact ⟨h.1, hphase.mpr h.2.1, hdone h.2.2⟩
  · exact ⟨h.1, hphase.mpr h.2⟩
  · exact ⟨h.1, hphase.mpr h.2⟩
  · exact ⟨h.1, hphase.mpr h.2.1, hdone h.2.2⟩
  · exact h

/-- The threads of a `Server` wait for a reason, and go on for one, and none of them sleeps
unnoticed while there is a node. -/
structure QueueOk (m : Monitor ℕ) (done : Bool) (node : Option RequestNode) : Prop where
  ok : m.Ok
  waiting : ∀ i, m.phase i = .waiting → node = none
  inside : ∀ i, m.phase i = .inside → done = true ∨ node ≠ none
  stirred : done = false → node ≠ none → m.Stirred

/-- Those who call `BlockingGetResponse` wait for a reason, and go on for one. -/
structure WaitersOk (m : Monitor ℕ) (numLeft : ℤ) : Prop where
  ok : m.Ok
  waiting : ∀ c, m.phase c = .waiting → 0 < numLeft
  inside : ∀ c, m.phase c = .inside → numLeft ≤ 0

namespace QueueOk

variable {m m' : Monitor ℕ} {done : Bool} {node : Option RequestNode} {i : ℕ}

theorem init : QueueOk {} false none where
  ok := Monitor.ok_init
  waiting _ h := nomatch h
  inside _ h := nomatch h
  stirred _ _ := Or.inl rfl

/-- A command was appended to the node. -/
theorem enqueue (h : QueueOk m done node) (hfree : m.owner = none) {o : Option ℕ}
    (hm : m.notifyOne o = some m') (n : RequestNode) : QueueOk m' done (some n) where
  ok := h.ok.notifyOne hm
  waiting j hj := by
    have hholds := h.ok.not_holds hfree j
    rw [(h.ok.shifts_notifyOne hm j).waiting hj] at hholds
    cases hholds
  inside _ _ := Or.inr (Option.some_ne_none n)
  stirred _ _ := Monitor.stirred_notifyOne hm

theorem enter (h : QueueOk m done node) (hm : m.enter i = some m') : QueueOk m' done node where
  ok := h.ok.enter hm
  waiting j hj := h.waiting j (Monitor.phase_of_enter hm (by simp) hj)
  inside j hj := h.inside j (Monitor.phase_of_enter hm (by simp) hj)
  stirred hdone hnode := (h.stirred hdone hnode).enter hm

theorem move (h : QueueOk m done node) {e : Monitor.Move ℕ} (hm : m.move e = some m') :
    QueueOk m' done node where
  ok := h.ok.move hm
  waiting j hj := h.waiting j ((h.ok.shifts_move hm j).waiting hj)
  inside j hj := h.inside j ((h.ok.shifts_move hm j).inside hj)
  stirred hdone hnode := (h.stirred hdone hnode).move h.ok hm fun j hj ↦ hnode (h.waiting j hj)

theorem check (h : QueueOk m done node) (hm : m.check i (!done && node.isNone) = some m') :
    QueueOk m' done node where
  ok := h.ok.check hm
  waiting j hj := by
    rcases Monitor.phase_of_check hm hj with hj | hj
    · exact h.waiting j hj
    · split_ifs at hj with hwait
      rw [Bool.and_eq_true, Option.isNone_iff_eq_none] at hwait
      exact hwait.2
  inside j hj := by
    rcases Monitor.phase_of_check hm hj with hj | hj
    · exact h.inside j hj
    · split_ifs at hj with hwait
      rw [Bool.and_eq_true, Option.isNone_iff_eq_none, Bool.not_eq_true', not_and] at hwait
      rcases done with _ | _
      · exact Or.inr (hwait rfl)
      · exact Or.inl rfl
  stirred hdone hnode := by
    have hgo : (!done && node.isNone) = false := by
      rw [Bool.and_eq_false_iff, Option.isNone_eq_false_iff, Option.isSome_iff_ne_none]
      exact Or.inr hnode
    rw [hgo] at hm
    exact (h.stirred hdone hnode).check hm

/-- The thread that was inside leaves, and it leaves no node behind, unless `done_` is set. -/
theorem leave (h : QueueOk m done node) (hm : m.leave i = some m') {node' : Option RequestNode}
    (hnode : node' = none ∨ done = true ∧ node' = node) : QueueOk m' done node' where
  ok := h.ok.leave hm
  waiting j hj := by
    have hholds := h.ok.not_holds_leave hm j
    rw [hj] at hholds
    cases hholds
  inside j hj := by
    have hholds := h.ok.not_holds_leave hm j
    rw [hj] at hholds
    cases hholds
  stirred hdone hne := by
    rcases hnode with hnone | ⟨htrue, -⟩
    · exact absurd hnone hne
    · rw [hdone] at htrue
      cases htrue

theorem setDone (h : QueueOk m done node) : QueueOk m true node where
  ok := h.ok
  waiting := h.waiting
  inside _ _ := Or.inl rfl
  stirred hdone _ := nomatch hdone

theorem notifyAll (h : QueueOk m true node) : QueueOk m.notifyAll true node where
  ok := h.ok.notifyAll
  waiting j hj := h.waiting j ((h.ok.shifts_notifyAll j).waiting hj)
  inside _ _ := Or.inl rfl
  stirred hdone _ := nomatch hdone

end QueueOk

namespace WaitersOk

variable {m m' : Monitor ℕ} {numLeft : ℤ} {c : ℕ}

theorem init : WaitersOk {} 0 where
  ok := Monitor.ok_init
  waiting _ h := nomatch h
  inside _ h := nomatch h

/-- The counter is changed while the mutex is free. -/
theorem of_free (h : WaitersOk m numLeft) (hfree : m.owner = none) (n : ℤ) : WaitersOk m n where
  ok := h.ok
  waiting c hc := by
    have hholds := h.ok.not_holds hfree c
    rw [hc] at hholds
    cases hholds
  inside c hc := by
    have hholds := h.ok.not_holds hfree c
    rw [hc] at hholds
    cases hholds

theorem of_shifts (h : WaitersOk m numLeft) (hok : m'.Ok)
    (hshifts : ∀ c, Monitor.Shifts (m.phase c) (m'.phase c)) : WaitersOk m' numLeft where
  ok := hok
  waiting c hc := h.waiting c ((hshifts c).waiting hc)
  inside c hc := h.inside c ((hshifts c).inside hc)

theorem enter (h : WaitersOk m numLeft) (hm : m.enter c = some m') : WaitersOk m' numLeft where
  ok := h.ok.enter hm
  waiting d hd := h.waiting d (Monitor.phase_of_enter hm (by simp) hd)
  inside d hd := h.inside d (Monitor.phase_of_enter hm (by simp) hd)

theorem check (h : WaitersOk m numLeft) (hm : m.check c (decide (0 < numLeft)) = some m') :
    WaitersOk m' numLeft where
  ok := h.ok.check hm
  waiting d hd := by
    rcases Monitor.phase_of_check hm hd with hd | hd
    · exact h.waiting d hd
    · split_ifs at hd with hwait
      exact of_decide_eq_true hwait
  inside d hd := by
    rcases Monitor.phase_of_check hm hd with hd | hd
    · exact h.inside d hd
    · split_ifs at hd with hwait
      rw [decide_eq_true_iff] at hwait
      exact not_lt.mp hwait

theorem leave (h : WaitersOk m numLeft) (hm : m.leave c = some m') : WaitersOk m' numLeft where
  ok := h.ok.leave hm
  waiting d hd := h.waiting d (Monitor.phase_of_leave hm (by simp) hd).2
  inside d hd := h.inside d (Monitor.phase_of_leave hm (by simp) hd).2

end WaitersOk

/-! ## The pipeline inside -/

namespace Pipeline

variable {p p' : Pipeline} {t : ℕ × ℕ}

theorem read_effect {frames : List Bytes} {header : ProtocolHeader}
    (h : p.step (.read t frames header) = some p') :
    ∃ pc, p'.threads = (p.goto t pc).threads ∧ pc ≠ .waiting ∧ p'.nodes = p.nodes ∧
      p'.heap = p.heap := by
  rw [step, Pipeline.read] at h
  split at h
  · split_ifs at h
    obtain rfl := Option.some.inj h
    exact ⟨_, rfl, by simp, rfl, rfl⟩
  · cases h

theorem append_effect (h : p.step (.append t) = some p') :
    ∃ pc, p'.threads = (p.goto t pc).threads ∧ pc ≠ .waiting ∧ p'.nodes = p.nodes ∧
      ∀ i, (p'.heap i).numLeft = (p.heap i).numLeft := by
  rw [step, Pipeline.append] at h
  split at h
  · split_ifs at h
    split at h
    · obtain rfl := Option.some.inj h
      exact ⟨_, rfl, by simp, rfl, fun _ ↦ rfl⟩
    · next d _ =>
      obtain rfl := Option.some.inj h
      refine ⟨_, rfl, by simp, rfl, fun i ↦ ?_⟩
      show (Function.update p.heap d.target _ i).numLeft = _
      rw [Function.update_apply]
      split_ifs with hi
      · rw [hi]
        rfl
      · rfl
  · cases h

theorem count_effect (h : p.step (.count t) = some p') :
    ∃ pc, p'.threads = (p.goto t pc).threads ∧ pc ≠ .waiting ∧ p'.nodes = p.nodes ∧
      p'.heap = (p.threads t).locks.elim p.heap fun i ↦
        Function.update p.heap i (p.heap i).decrementPending := by
  rw [step, Pipeline.count] at h
  split at h
  · next job d ht =>
    rw [ht, ThreadPc.locks]
    split at h
    · next hcount =>
      obtain rfl := Option.some.inj h
      exact ⟨_, rfl, by simp, rfl, by rw [hcount]; rfl⟩
    · next completes cursor hcount =>
      dsimp only at h
      rw [hcount]
      split_ifs at h with hcompletes <;> obtain rfl := Option.some.inj h
      · exact ⟨_, rfl, by simp, rfl, by rw [hcompletes]; rfl⟩
      · rw [Bool.not_eq_true] at hcompletes
        exact ⟨_, rfl, by simp, rfl, by rw [hcompletes]; rfl⟩
  · cases h

theorem finish_effect (h : p.step (.finish t) = some p') :
    p'.threads = (p.goto t .waiting).threads ∧ p'.nodes = p.nodes ∧ p'.heap = p.heap := by
  rw [step, Pipeline.finish] at h
  split at h
  · split_ifs at h
    obtain rfl := Option.some.inj h
    exact ⟨rfl, rfl, rfl⟩
  · cases h

/-! What a thread does with its node is not the callers' business. -/

theorem read_calling {frames : List Bytes} {header : ProtocolHeader}
    (h : p.step (.read t frames header) = some p') : p'.calling = p.calling := by
  rw [step, Pipeline.read] at h
  split at h
  · split_ifs at h
    obtain rfl := Option.some.inj h
    rfl
  · cases h

theorem append_calling (h : p.step (.append t) = some p') : p'.calling = p.calling := by
  rw [step, Pipeline.append] at h
  split at h
  · split_ifs at h
    split at h <;> obtain rfl := Option.some.inj h <;> rfl
  · cases h

theorem count_calling (h : p.step (.count t) = some p') : p'.calling = p.calling := by
  rw [step, Pipeline.count] at h
  split at h
  · split at h
    · obtain rfl := Option.some.inj h
      rfl
    · dsimp only at h
      split_ifs at h <;> obtain rfl := Option.some.inj h <;> rfl
  · cases h

theorem finish_calling (h : p.step (.finish t) = some p') : p'.calling = p.calling := by
  rw [step, Pipeline.finish] at h
  split at h
  · split_ifs at h
    obtain rfl := Option.some.inj h
    rfl
  · cases h

end Pipeline

namespace Blocking

variable {s s' : Blocking} {a : BlockingAction}

theorem queue_setQueue (s : Blocking) (v w : ℕ) (m : Monitor ℕ) :
    (s.setQueue v m).queue w = if w = v then m else s.queue w := Function.update_apply _ _ _ _

theorem waiters_setWaiters (s : Blocking) (i j : ℕ) (m : Monitor ℕ) :
    (s.setWaiters i m).waiters j = if j = i then m else s.waiters j :=
  Function.update_apply _ _ _ _

theorem pc_goto (s : Blocking) (t t' : ℕ × ℕ) (pc : WorkerPc) :
    (s.goto t pc).pc t' = if t' = t then pc else s.pc t' := Function.update_apply _ _ _ _

/-- `done_` is never taken back. -/
theorem Moves.done (h : s.Moves a s') {v : ℕ} (hv : s.done v = true) : s'.done v = true := by
  have hupdate : ∀ {w : ℕ} {st : Stage}, st.done = true →
      (Function.update s.stage w st v).done = true := by
    intro w st hst
    rw [Function.update_apply]
    split_ifs
    · exact hst
    · exact hv
  cases h with
  | @construct w hw =>
    show (Function.update s.stage w .running v).done = true
    rw [Function.update_of_ne]
    · exact hv
    · rintro rfl
      rw [Blocking.done, hw] at hv
      cases hv
  | setDone _ => exact hupdate rfl
  | notifyAll _ => exact hupdate rfl
  | destroy _ _ => exact hupdate rfl
  | increment _ _ | enqueue _ _ _ _ | exit _ _ | enter _ _ _ | queue _ | check _ | empty _ _
  | take _ _ _ | drop _ _ | crash _ _ | send _ _ | read _ _ | append _ _ _ | count _ _ _
  | complete _ _ _ _ _ | finish _ _ | call _ | waiters _ | callCheck _ | callReturn _ => exact hv

/-- What holds throughout: the pipeline is in a state that it can reach by itself, and every thread
is where it belongs. -/
structure Inv (s : Blocking) : Prop where
  run : ∃ as, Run (Guarded (StepOf Pipeline.step) Pipeline.Orderly) {} as s.pipeline
  absent : ∀ t, s.pc t = .absent ↔ s.stage t.1 = .absent ∨ kNumThreads ≤ t.2
  worker : ∀ t, (s.pc t).Ok (s.done t.1) (s.pipeline.threads t) ((s.queue t.1).phase t.2)
  queue : ∀ v, QueueOk (s.queue v) (s.done v) (s.pipeline.nodes v)
  waiters : ∀ i, WaitersOk (s.waiters i) (s.pipeline.heap i).numLeft
  /-- Nobody uses a `Server` that is gone. -/
  calling : ∀ c ∈ s.pipeline.calling, (s.stage c.server).Alive
  stopped : ∀ v, s.stage v = .destroyed → s.Stopped v

theorem inv_init : Inv {} where
  run := ⟨[], Run.nil _⟩
  absent _ := iff_of_true rfl (Or.inl rfl)
  worker _ := ⟨rfl, rfl⟩
  queue _ := QueueOk.init
  waiters _ := WaitersOk.init
  calling _ h := nomatch h
  stopped _ h := nomatch h

/-- A step of the pipeline, or none. -/
def Follows (s s' : Blocking) : Prop :=
  s'.pipeline = s.pipeline ∨
    ∃ b, s.pipeline.step b = some s'.pipeline ∧ s.pipeline.Orderly b

theorem Inv.getting (h : s.Inv) {t : ℕ × ℕ} (ht : (s.queue t.1).phase t.2 ≠ .out) :
    s.pc t = .getting ∧ s.pipeline.threads t = .waiting := by
  have hworker := h.worker t
  rcases hpc : s.pc t with _ | _ | _ | (_ | n) | _ | _ | _ <;> rw [hpc] at hworker
  · exact absurd hworker.2 ht
  · exact absurd hworker.2 ht
  · exact ⟨rfl, hworker.1⟩
  · exact absurd hworker.2.1 ht
  · exact absurd hworker.2 ht
  · exact absurd hworker.2 ht
  · exact absurd hworker.2.1 ht
  · exact hworker.elim

theorem ne_out_of_leave {m m' : Monitor ℕ} {i : ℕ} (h : m.leave i = some m') :
    m.phase i ≠ .out := by
  rw [(Monitor.leave_eq_some h).1]
  exact fun hne ↦ nomatch hne

/-- **What a step does to the pipeline.** -/
theorem Inv.follows (h : s.Inv) (hm : s.Moves a s') (ha : s.Orderly a) : s.Follows s' := by
  cases hm with
  | increment _ _ => exact Or.inr ⟨.increment _ _ _ _, rfl, ha⟩
  | @enqueue c _ _ _ _ hc _ =>
    refine Or.inr ⟨.enqueue c, ?_, trivial⟩
    rw [Pipeline.step, Pipeline.enqueue, if_pos hc]
  | @take t m n _ hn hm =>
    refine Or.inr ⟨.take t, ?_, trivial⟩
    rw [Pipeline.step, Pipeline.take, (h.getting (ne_out_of_leave hm)).2, hn]
  | read _ hp => exact Or.inr ⟨.read _ _ _, hp, ha⟩
  | append _ _ hp => exact Or.inr ⟨.append _, hp, trivial⟩
  | count _ _ hp => exact Or.inr ⟨.count _, hp, trivial⟩
  | complete _ _ _ _ hp => exact Or.inr ⟨.count _, hp, trivial⟩
  | finish _ hp => exact Or.inr ⟨.finish _, hp, trivial⟩
  | construct _ | exit _ _ | enter _ _ _ | queue _ | check _ | empty _ _ | drop _ _ | crash _ _
  | send _ _ | setDone _ | notifyAll _ | destroy _ _ | call _ | waiters _ | callCheck _
  | callReturn _ => exact Or.inl rfl

theorem Inv.run_step (h : s.Inv) (hm : s.Moves a s') (ha : s.Orderly a) :
    ∃ as, Run (Guarded (StepOf Pipeline.step) Pipeline.Orderly) {} as s'.pipeline := by
  obtain ⟨as, hrun⟩ := h.run
  rcases h.follows hm ha with heq | ⟨b, hb, horderly⟩
  · exact ⟨as, heq ▸ hrun⟩
  · exact ⟨as ++ [b], hrun.snoc ⟨hb, horderly⟩⟩

theorem Inv.absent_step (h : s.Inv) (hm : s.Moves a s') (t : ℕ × ℕ) :
    s'.pc t = .absent ↔ s'.stage t.1 = .absent ∨ kNumThreads ≤ t.2 := by
  -- a thread that moves was there, and is
  have hgoto : ∀ {t' : ℕ × ℕ} {pc : WorkerPc}, s.pc t' ≠ .absent → pc ≠ .absent →
      ((s.goto t' pc).pc t = .absent ↔ s.stage t.1 = .absent ∨ kNumThreads ≤ t.2) := by
    intro t' pc hold hpc
    rw [pc_goto]
    split_ifs with ht
    · rw [ht, ← h.absent t']
      exact iff_of_false hpc hold
    · exact h.absent t
  have hpc : ∀ {t' : ℕ × ℕ} {pc : WorkerPc}, s.pc t' = pc → pc ≠ .absent → s.pc t' ≠ .absent :=
    fun heq hne ↦ heq ▸ hne
  -- a server that moves on was there, and is
  have hstage : ∀ {v : ℕ} {st : Stage}, s.stage v ≠ .absent → st ≠ .absent →
      (s.pc t = .absent ↔ Function.update s.stage v st t.1 = .absent ∨ kNumThreads ≤ t.2) := by
    intro v st hold hst
    rw [h.absent t, Function.update_apply]
    split_ifs with hv
    · rw [hv]
      simp [hold, hst]
    · exact Iff.rfl
  cases hm with
  | @construct v hv =>
    show (if t.1 = v ∧ t.2 < kNumThreads then WorkerPc.top else s.pc t) = .absent ↔
      Function.update s.stage v .running t.1 = .absent ∨ _
    rw [Function.update_apply]
    split_ifs with ht hv' hv'
    · exact iff_of_false (fun hne ↦ nomatch hne) (by simpa using ht.2)
    · exact absurd ht.1 hv'
    · rw [h.absent t, hv', hv]
      have hle : kNumThreads ≤ t.2 := not_lt.mp fun hlt ↦ ht ⟨hv', hlt⟩
      simp [hle]
    · exact h.absent t
  | exit ht _ => exact hgoto (hpc ht (by simp)) (by simp)
  | enter ht _ _ => exact hgoto (hpc ht (by simp)) (by simp)
  | empty _ hm => exact hgoto (hpc (h.getting (ne_out_of_leave hm)).1 (by simp)) (by simp)
  | take _ _ hm => exact hgoto (hpc (h.getting (ne_out_of_leave hm)).1 (by simp)) (by simp)
  | drop ht _ => exact hgoto (hpc ht (by simp)) (by simp)
  | crash ht _ => exact hgoto (hpc ht (by simp)) (by simp)
  | send ht _ => exact hgoto (hpc ht (by simp)) (by simp)
  | finish ht _ => exact hgoto (hpc ht (by simp)) (by simp)
  | setDone hv => exact hstage hv.1 (by simp)
  | notifyAll hv => exact hstage (by simp [hv]) (by simp)
  | destroy hv _ => exact hstage (by simp [hv]) (by simp)
  | increment _ _ | enqueue _ _ _ _ | queue _ | check _ | read _ _ | append _ _ _ | count _ _ _
  | complete _ _ _ _ _ | call _ | waiters _ | callCheck _ | callReturn _ => exact h.absent t

/-- A thread that did not move. -/
theorem Inv.worker_of_eq (h : s.Inv) (hm : s.Moves a s') {t : ℕ × ℕ} (hpc : s'.pc t = s.pc t)
    (hthread : s'.pipeline.threads t = s.pipeline.threads t)
    (hphase : (s'.queue t.1).phase t.2 = .out ↔ (s.queue t.1).phase t.2 = .out) :
    (s'.pc t).Ok (s'.done t.1) (s'.pipeline.threads t) ((s'.queue t.1).phase t.2) := by
  rw [hpc, hthread]
  exact (h.worker t).mono hm.done hphase

/-- The threads of a `Server` are out or not as they were. -/
theorem out_setQueue {v : ℕ} {m : Monitor ℕ}
    (hout : ∀ i, m.phase i = .out ↔ (s.queue v).phase i = .out) (t : ℕ × ℕ) :
    ((s.setQueue v m).queue t.1).phase t.2 = .out ↔ (s.queue t.1).phase t.2 = .out := by
  rw [queue_setQueue]
  split_ifs with ht
  · rw [ht]
    exact hout t.2
  · exact Iff.rfl

/-- The other threads of a `Server` are where they were when a thread has moved. -/
theorem phase_setQueue {t t' : ℕ × ℕ} {m : Monitor ℕ}
    (hm : ∀ i, i ≠ t.2 → m.phase i = (s.queue t.1).phase i) (ht : t' ≠ t) :
    ((s.setQueue t.1 m).queue t'.1).phase t'.2 = (s.queue t'.1).phase t'.2 := by
  rw [queue_setQueue]
  split_ifs with hv
  · rw [hv]
    exact hm t'.2 fun hi ↦ ht (Prod.ext hv hi)
  · rfl

/-- A thread at work stays at work. -/
theorem Inv.worker_of_work (h : s.Inv) (hm : s.Moves a s') {t : ℕ × ℕ} {pc : ThreadPc}
    (ht : s.pc t = .working) (hpc : s'.pc = s.pc) (hqueue : s'.queue = s.queue)
    (hthreads : s'.pipeline.threads = (s.pipeline.goto t pc).threads) (hne : pc ≠ .waiting)
    (t' : ℕ × ℕ) :
    (s'.pc t').Ok (s'.done t'.1) (s'.pipeline.threads t') ((s'.queue t'.1).phase t'.2) := by
  by_cases heq : t' = t
  · have hworker := h.worker t
    rw [ht] at hworker
    rw [heq, hpc, ht, hthreads, hqueue, Pipeline.threads_goto, if_pos rfl]
    exact ⟨hne, hworker.2⟩
  · refine h.worker_of_eq hm (by rw [hpc]) ?_ (by rw [hqueue])
    rw [hthreads, Pipeline.threads_goto, if_neg heq]

/-- A thread goes on in `ProcessRequests`, out of the monitor of its `Server`. -/
theorem Inv.worker_of_goto (h : s.Inv) (hm : s.Moves a s') {t : ℕ × ℕ} (pc : WorkerPc)
    (hpc : s'.pc = (s.goto t pc).pc) (hqueue : s'.queue = s.queue)
    (hthreads : ∀ t', t' ≠ t → s'.pipeline.threads t' = s.pipeline.threads t')
    (ht : pc.Ok (s'.done t.1) (s'.pipeline.threads t) ((s.queue t.1).phase t.2)) (t' : ℕ × ℕ) :
    (s'.pc t').Ok (s'.done t'.1) (s'.pipeline.threads t') ((s'.queue t'.1).phase t'.2) := by
  by_cases heq : t' = t
  · rw [heq, hpc, hqueue, pc_goto, if_pos rfl]
    exact ht
  · refine h.worker_of_eq hm ?_ (hthreads t' heq) (by rw [hqueue])
    rw [hpc, pc_goto, if_neg heq]

/-- A thread enters or leaves the monitor of its `Server`. -/
theorem Inv.worker_of_monitor (h : s.Inv) (hm : s.Moves a s') {t : ℕ × ℕ} (pc : WorkerPc)
    {m : Monitor ℕ} (hpc : s'.pc = (s.goto t pc).pc) (hqueue : s'.queue = (s.setQueue t.1 m).queue)
    (hothers : ∀ i, i ≠ t.2 → m.phase i = (s.queue t.1).phase i)
    (hthreads : ∀ t', t' ≠ t → s'.pipeline.threads t' = s.pipeline.threads t')
    (ht : pc.Ok (s'.done t.1) (s'.pipeline.threads t) (m.phase t.2)) (t' : ℕ × ℕ) :
    (s'.pc t').Ok (s'.done t'.1) (s'.pipeline.threads t') ((s'.queue t'.1).phase t'.2) := by
  by_cases heq : t' = t
  · rw [heq, hpc, hqueue, pc_goto, if_pos rfl, queue_setQueue, if_pos rfl]
    exact ht
  · refine h.worker_of_eq hm ?_ (hthreads t' heq) ?_
    · rw [hpc, pc_goto, if_neg heq]
    · rw [hqueue, phase_setQueue hothers heq]

/-- **Every thread stays where it belongs.** -/
theorem Inv.worker_step (h : s.Inv) (hm : s.Moves a s') (t' : ℕ × ℕ) :
    (s'.pc t').Ok (s'.done t'.1) (s'.pipeline.threads t') ((s'.queue t'.1).phase t'.2) := by
  have hmoves := hm
  cases hm with
  | @construct v hv =>
    by_cases ht : t'.1 = v ∧ t'.2 < kNumThreads
    · have hold := h.worker t'
      rw [(h.absent t').mpr (Or.inl (ht.1 ▸ hv))] at hold
      show (if t'.1 = v ∧ t'.2 < kNumThreads then WorkerPc.top else s.pc t').Ok _ _ _
      rw [if_pos ht]
      exact hold
    · exact h.worker_of_eq hmoves (if_neg ht) rfl Iff.rfl
  | increment _ _ => exact h.worker_of_eq hmoves rfl rfl Iff.rfl
  | @enqueue c o m _ _ _ hm =>
    refine h.worker_of_eq hmoves rfl rfl (out_setQueue (fun i ↦ ?_) t')
    exact ((h.queue c.server).ok.shifts_notifyOne hm i).out_iff
  | @exit t ht hdone =>
    have hold := h.worker t
    rw [ht] at hold
    exact h.worker_of_goto hmoves .exited rfl rfl (fun _ _ ↦ rfl)
      ⟨Or.inl hold.1, hold.2, hdone⟩ t'
  | @enter t m ht _ hm =>
    have hold := h.worker t
    rw [ht] at hold
    obtain ⟨-, rfl⟩ := Monitor.enter_eq_some hm
    refine h.worker_of_monitor hmoves .getting rfl rfl (fun i hi ↦ ?_) (fun _ _ ↦ rfl)
      ⟨hold.1, ?_⟩ t'
    · rw [Monitor.phase_goto, if_neg hi]
    · rw [Monitor.phase_goto, if_pos rfl]
      exact fun hne ↦ nomatch hne
  | @queue v e m hm =>
    exact h.worker_of_eq hmoves rfl rfl
      (out_setQueue (fun i ↦ ((h.queue v).ok.shifts_move hm i).out_iff) t')
  | @check t m hm =>
    refine h.worker_of_eq hmoves rfl rfl (out_setQueue (fun i ↦ ?_) t')
    obtain ⟨hi, rfl⟩ := Monitor.check_eq_some hm
    rw [Monitor.phase_goto]
    split_ifs with heq hwait
    · simp [heq, hi]
    · simp [heq, hi]
    · exact Iff.rfl
  | @empty t m hempty hm =>
    obtain ⟨-, hthread⟩ := h.getting (ne_out_of_leave hm)
    obtain ⟨hi, rfl⟩ := Monitor.leave_eq_some hm
    -- a thread that leaves without a node was let out by `done_`
    have hdone : s.done t.1 = true := by
      rcases hempty with hdone | hnone
      · exact hdone
      · exact ((h.queue t.1).inside t.2 hi).resolve_right fun hne ↦ hne hnone
    refine h.worker_of_monitor hmoves (.got none) rfl rfl (fun i hne ↦ ?_) (fun _ _ ↦ rfl)
      ⟨hthread, ?_, hdone⟩ t'
    · exact (Monitor.phase_goto _ _ _ _).trans (if_neg hne)
    · exact (Monitor.phase_goto _ _ _ _).trans (if_pos rfl)
  | @take t m n _ _ hm =>
    obtain ⟨hi, rfl⟩ := Monitor.leave_eq_some hm
    refine h.worker_of_monitor hmoves (.got (some n)) rfl rfl (fun i hne ↦ ?_)
      (fun t' hne ↦ ?_) ⟨?_, ?_⟩ t'
    · exact (Monitor.phase_goto _ _ _ _).trans (if_neg hne)
    · exact (Pipeline.threads_taken _ _ _ _).trans (if_neg hne)
    · exact (Pipeline.threads_taken _ _ _ _).trans (if_pos rfl)
    · exact (Monitor.phase_goto _ _ _ _).trans (if_pos rfl)
  | @drop t n ht hdone =>
    have hold := h.worker t
    rw [ht] at hold
    refine h.worker_of_goto hmoves .exited rfl rfl (fun _ _ ↦ rfl) ?_ t'
    rcases n with _ | n
    · exact ⟨Or.inl hold.1, hold.2.1, hdone⟩
    · exact ⟨Or.inr ⟨n, hold.1⟩, hold.2, hdone⟩
  -- a thread without a node has seen `done_`, which nobody takes back
  | @crash t ht hdone =>
    have hold := h.worker t
    rw [ht] at hold
    exact absurd (hold.2.2.symm.trans hdone) (by simp)
  | @send t n ht _ =>
    have hold := h.worker t
    rw [ht] at hold
    refine h.worker_of_goto hmoves .working rfl rfl (fun _ _ ↦ rfl) ⟨?_, hold.2⟩ t'
    change s.pipeline.threads t ≠ .waiting
    rw [hold.1]
    exact fun hne ↦ nomatch hne
  | read ht hp =>
    obtain ⟨pc, hthreads, hne, -, -⟩ := Pipeline.read_effect hp
    exact h.worker_of_work hmoves ht rfl rfl hthreads hne t'
  | append ht _ hp =>
    obtain ⟨pc, hthreads, hne, -, -⟩ := Pipeline.append_effect hp
    exact h.worker_of_work hmoves ht rfl rfl hthreads hne t'
  | count ht _ hp =>
    obtain ⟨pc, hthreads, hne, -, -⟩ := Pipeline.count_effect hp
    exact h.worker_of_work hmoves ht rfl rfl hthreads hne t'
  | complete ht _ _ _ hp =>
    obtain ⟨pc, hthreads, hne, -, -⟩ := Pipeline.count_effect hp
    exact h.worker_of_work hmoves ht rfl rfl hthreads hne t'
  | @finish t p ht hp =>
    obtain ⟨hthreads, -, -⟩ := Pipeline.finish_effect hp
    have hold := h.worker t
    rw [ht] at hold
    refine h.worker_of_goto hmoves .top rfl rfl (fun t' hne ↦ ?_) ⟨?_, hold.2⟩ t'
    · exact (congrFun hthreads t').trans ((Pipeline.threads_goto _ _ _ _).trans (if_neg hne))
    · exact (congrFun hthreads t).trans ((Pipeline.threads_goto _ _ _ _).trans (if_pos rfl))
  | setDone _ | destroy _ _ => exact h.worker_of_eq hmoves rfl rfl Iff.rfl
  | @notifyAll v _ =>
    exact h.worker_of_eq hmoves rfl rfl
      (out_setQueue (fun i ↦ ((h.queue v).ok.shifts_notifyAll i).out_iff) t')
  | call _ | waiters _ | callCheck _ | callReturn _ =>
    exact h.worker_of_eq hmoves rfl rfl Iff.rfl

/-- The other `Server`s are not concerned when one of them is. -/
theorem Inv.queue_of_set (h : s.Inv) (_ : s.Moves a s') {v : ℕ} {m : Monitor ℕ}
    (hqueue : s'.queue = (s.setQueue v m).queue)
    (hothers : ∀ w, w ≠ v → s'.done w = s.done w ∧ s'.pipeline.nodes w = s.pipeline.nodes w)
    (hv : QueueOk m (s'.done v) (s'.pipeline.nodes v)) (w : ℕ) :
    QueueOk (s'.queue w) (s'.done w) (s'.pipeline.nodes w) := by
  rw [hqueue, queue_setQueue]
  split_ifs with hw
  · rw [hw]
    exact hv
  · obtain ⟨hdone, hnodes⟩ := hothers w hw
    rw [hdone, hnodes]
    exact h.queue w

theorem Inv.queue_of_nodes (h : s.Inv) (_ : s.Moves a s') (hqueue : s'.queue = s.queue)
    (hstage : s'.stage = s.stage) (hnodes : s'.pipeline.nodes = s.pipeline.nodes) (w : ℕ) :
    QueueOk (s'.queue w) (s'.done w) (s'.pipeline.nodes w) := by
  rw [hqueue, hnodes, Blocking.done, hstage]
  exact h.queue w

/-- **The threads of every `Server` go on waiting for a reason.** -/
theorem Inv.queue_step (h : s.Inv) (hm : s.Moves a s') (w : ℕ) :
    QueueOk (s'.queue w) (s'.done w) (s'.pipeline.nodes w) := by
  have hmoves := hm
  cases hm with
  | @construct v hv =>
    have hold := h.queue w
    have hdone : (Function.update s.stage v .running w).done = s.done w := by
      rw [Function.update_apply]
      split_ifs with hw
      · rw [Blocking.done, hw, hv]
        rfl
      · rfl
    rw [← hdone] at hold
    exact hold
  | increment _ _ => exact h.queue_of_nodes hmoves rfl rfl rfl w
  | @enqueue c o m _ hfree _ hm =>
    refine h.queue_of_set hmoves rfl (fun w hw ↦ ⟨rfl, ?_⟩) ?_ w
    · exact (Pipeline.nodes_enqueued _ _ _).trans (if_neg hw)
    · change QueueOk m (s.done c.server) ((s.pipeline.enqueued c).nodes c.server)
      rw [Pipeline.nodes_enqueued, if_pos rfl]
      exact (h.queue c.server).enqueue hfree hm _
  | enter _ _ hm => exact h.queue_of_set hmoves rfl (fun _ _ ↦ ⟨rfl, rfl⟩) ((h.queue _).enter hm) w
  | queue hm => exact h.queue_of_set hmoves rfl (fun _ _ ↦ ⟨rfl, rfl⟩) ((h.queue _).move hm) w
  | check hm => exact h.queue_of_set hmoves rfl (fun _ _ ↦ ⟨rfl, rfl⟩) ((h.queue _).check hm) w
  | @empty t m hempty hm =>
    refine h.queue_of_set hmoves rfl (fun _ _ ↦ ⟨rfl, rfl⟩) ((h.queue t.1).leave hm ?_) w
    rcases hempty with hdone | hnone
    · exact Or.inr ⟨hdone, rfl⟩
    · exact Or.inl hnone
  | @take t m n _ _ hm =>
    refine h.queue_of_set hmoves rfl (fun w hw ↦ ⟨rfl, ?_⟩) ((h.queue t.1).leave hm (Or.inl ?_)) w
    · exact (Pipeline.nodes_taken _ _ _ _).trans (if_neg hw)
    · exact (Pipeline.nodes_taken _ _ _ _).trans (if_pos rfl)
  | read _ hp =>
    obtain ⟨_, -, -, hnodes, -⟩ := Pipeline.read_effect hp
    exact h.queue_of_nodes hmoves rfl rfl hnodes w
  | append _ _ hp =>
    obtain ⟨_, -, -, hnodes, -⟩ := Pipeline.append_effect hp
    exact h.queue_of_nodes hmoves rfl rfl hnodes w
  | count _ _ hp =>
    obtain ⟨_, -, -, hnodes, -⟩ := Pipeline.count_effect hp
    exact h.queue_of_nodes hmoves rfl rfl hnodes w
  | complete _ _ _ _ hp =>
    obtain ⟨_, -, -, hnodes, -⟩ := Pipeline.count_effect hp
    exact h.queue_of_nodes hmoves rfl rfl hnodes w
  | finish _ hp => exact h.queue_of_nodes hmoves rfl rfl (Pipeline.finish_effect hp).2.1 w
  | @setDone v _ =>
    have hold := h.queue w
    show QueueOk (s.queue w) (Function.update s.stage v .flagged w).done (s.pipeline.nodes w)
    rw [Function.update_apply]
    split_ifs
    · exact hold.setDone
    · exact hold
  | @notifyAll v hv =>
    refine h.queue_of_set hmoves rfl (fun w hw ↦ ⟨?_, rfl⟩) ?_ w
    · show (Function.update s.stage v .notified w).done = _
      rw [Function.update_of_ne hw]
      rfl
    · show QueueOk _ (Function.update s.stage v .notified v).done _
      rw [Function.update_self]
      exact (h.queue v).setDone.notifyAll
  | @destroy v hv _ =>
    have hold := h.queue w
    have hdone : (Function.update s.stage v .destroyed w).done = s.done w := by
      rw [Function.update_apply]
      split_ifs with hw
      · rw [Blocking.done, hw, hv]
        rfl
      · rfl
    rw [← hdone] at hold
    exact hold
  | exit _ _ | drop _ _ | crash _ _ | send _ _ | call _ | waiters _ | callCheck _ | callReturn _ =>
    exact h.queue w

theorem Inv.waiters_of_set (h : s.Inv) (_ : s.Moves a s') {i : ℕ} {m : Monitor ℕ}
    (hwaiters : s'.waiters = (s.setWaiters i m).waiters)
    (hothers : ∀ j, j ≠ i → (s'.pipeline.heap j).numLeft = (s.pipeline.heap j).numLeft)
    (hi : WaitersOk m (s'.pipeline.heap i).numLeft) (j : ℕ) :
    WaitersOk (s'.waiters j) (s'.pipeline.heap j).numLeft := by
  rw [hwaiters, waiters_setWaiters]
  split_ifs with hj
  · rw [hj]
    exact hi
  · rw [hothers j hj]
    exact h.waiters j

theorem Inv.waiters_of_heap (h : s.Inv) (_ : s.Moves a s') (hwaiters : s'.waiters = s.waiters)
    (hleft : ∀ j, (s'.pipeline.heap j).numLeft = (s.pipeline.heap j).numLeft) (j : ℕ) :
    WaitersOk (s'.waiters j) (s'.pipeline.heap j).numLeft := by
  rw [hwaiters, hleft]
  exact h.waiters j

/-- **Those who call `BlockingGetResponse` go on waiting for a reason.** -/
theorem Inv.waiters_step (h : s.Inv) (hm : s.Moves a s') (j : ℕ) :
    WaitersOk (s'.waiters j) (s'.pipeline.heap j).numLeft := by
  have hmoves := hm
  cases hm with
  | @increment v bytes n i _ hfree =>
    show WaitersOk (s.waiters j) (Function.update s.pipeline.heap i _ j).numLeft
    rw [Function.update_apply]
    split_ifs with hj
    · rw [hj]
      exact (h.waiters i).of_free hfree _
    · exact h.waiters j
  | read _ hp =>
    obtain ⟨_, -, -, -, hheap⟩ := Pipeline.read_effect hp
    exact h.waiters_of_heap hmoves rfl (fun j ↦ congrArg (fun heap ↦ (heap j).numLeft) hheap) j
  | append _ _ hp =>
    obtain ⟨_, -, -, -, hleft⟩ := Pipeline.append_effect hp
    exact h.waiters_of_heap hmoves rfl hleft j
  | count _ hlocks hp =>
    obtain ⟨_, -, -, -, hheap⟩ := Pipeline.count_effect hp
    rw [hlocks] at hheap
    exact h.waiters_of_heap hmoves rfl (fun j ↦ congrArg (fun heap ↦ (heap j).numLeft) hheap) j
  | @complete t o i m p _ hlocks hfree hm hp =>
    obtain ⟨_, -, -, -, hheap⟩ := Pipeline.count_effect hp
    rw [hlocks] at hheap
    refine h.waiters_of_set hmoves rfl (fun j hj ↦ ?_) ?_ j
    · show (p.heap j).numLeft = _
      rw [hheap, Option.elim_some, Function.update_of_ne hj]
    · exact ((h.waiters i).of_free hfree _).of_shifts ((h.waiters i).ok.notifyOne hm)
        fun c ↦ (h.waiters i).ok.shifts_notifyOne hm c
  | finish _ hp =>
    exact h.waiters_of_heap hmoves rfl
      (fun j ↦ congrArg (fun heap ↦ (heap j).numLeft) (Pipeline.finish_effect hp).2.2) j
  | call hm => exact h.waiters_of_set hmoves rfl (fun _ _ ↦ rfl) ((h.waiters _).enter hm) j
  | @waiters i e m hm =>
    exact h.waiters_of_set hmoves rfl (fun _ _ ↦ rfl) ((h.waiters i).of_shifts
      ((h.waiters i).ok.move hm) fun c ↦ (h.waiters i).ok.shifts_move hm c) j
  | callCheck hm => exact h.waiters_of_set hmoves rfl (fun _ _ ↦ rfl) ((h.waiters _).check hm) j
  | callReturn hm => exact h.waiters_of_set hmoves rfl (fun _ _ ↦ rfl) ((h.waiters _).leave hm) j
  | construct _ | enqueue _ _ _ _ | exit _ _ | enter _ _ _ | queue _ | check _ | empty _ _
  | take _ _ _ | drop _ _ | crash _ _ | send _ _ | setDone _ | notifyAll _ | destroy _ _ =>
    exact h.waiters j

/-- Nobody takes a thread that has exited any further. -/
theorem Inv.exited_step (h : s.Inv) (hm : s.Moves a s') {t : ℕ × ℕ} (ht : s.pc t = .exited) :
    s'.pc t = .exited ∧ s'.pipeline.threads t = s.pipeline.threads t := by
  have hout : (s.queue t.1).phase t.2 = .out := by
    have hworker := h.worker t
    rw [ht] at hworker
    exact hworker.2.1
  -- whoever moves in this step is not at its end
  have hne : ∀ {t' : ℕ × ℕ}, s.pc t' ≠ .exited → t ≠ t' := by
    rintro t' hpc rfl
    exact hpc ht
  have hgoto : ∀ {t' : ℕ × ℕ} {pc : WorkerPc}, t ≠ t' → (s.goto t' pc).pc t = .exited :=
    fun hne ↦ (pc_goto _ _ _ _).trans ((if_neg hne).trans ht)
  have hthread : ∀ {t' : ℕ × ℕ} {pc : ThreadPc}, t ≠ t' →
      (s.pipeline.goto t' pc).threads t = s.pipeline.threads t :=
    fun hne ↦ (Pipeline.threads_goto _ _ _ _).trans (if_neg hne)
  have hleave : ∀ {t' : ℕ × ℕ} {m : Monitor ℕ}, (s.queue t'.1).leave t'.2 = some m → t ≠ t' := by
    rintro t' m hm rfl
    exact ne_out_of_leave hm hout
  have hwork : ∀ {t' : ℕ × ℕ} {pc : ThreadPc} {p : Pipeline}, s.pc t' = .working →
      p.threads = (s.pipeline.goto t' pc).threads → p.threads t = s.pipeline.threads t := by
    intro t' pc p hpc hthreads
    rw [hthreads]
    exact hthread (hne (by simp [hpc]))
  cases hm with
  | @construct w hw =>
    refine ⟨?_, rfl⟩
    show (if _ then WorkerPc.top else s.pc t) = _
    rw [if_neg, ht]
    rintro ⟨rfl, -⟩
    have habsent := (h.absent t).mpr (Or.inl hw)
    rw [ht] at habsent
    cases habsent
  | exit hpc _ => exact ⟨hgoto (hne (by simp [hpc])), rfl⟩
  | enter hpc _ _ => exact ⟨hgoto (hne (by simp [hpc])), rfl⟩
  | empty _ hm => exact ⟨hgoto (hleave hm), rfl⟩
  | take _ _ hm => exact ⟨hgoto (hleave hm), hthread (hleave hm)⟩
  | drop hpc _ => exact ⟨hgoto (hne (by simp [hpc])), rfl⟩
  | crash hpc _ => exact ⟨hgoto (hne (by simp [hpc])), rfl⟩
  | send hpc _ => exact ⟨hgoto (hne (by simp [hpc])), rfl⟩
  | read hpc hp =>
    obtain ⟨_, hthreads, -⟩ := Pipeline.read_effect hp
    exact ⟨ht, hwork hpc hthreads⟩
  | append hpc _ hp =>
    obtain ⟨_, hthreads, -⟩ := Pipeline.append_effect hp
    exact ⟨ht, hwork hpc hthreads⟩
  | count hpc _ hp =>
    obtain ⟨_, hthreads, -⟩ := Pipeline.count_effect hp
    exact ⟨ht, hwork hpc hthreads⟩
  | complete hpc _ _ _ hp =>
    obtain ⟨_, hthreads, -⟩ := Pipeline.count_effect hp
    exact ⟨ht, hwork hpc hthreads⟩
  | finish hpc hp =>
    exact ⟨hgoto (hne (by simp [hpc])), hwork hpc (Pipeline.finish_effect hp).1⟩
  | increment _ _ | enqueue _ _ _ _ | queue _ | check _ | setDone _ | notifyAll _ | destroy _ _
  | call _ | waiters _ | callCheck _ | callReturn _ => exact ⟨ht, rfl⟩

/-- A `Server` that is there stays, unless it is destroyed. -/
theorem Moves.alive (hm : s.Moves a s') {v : ℕ} (hv : (s.stage v).Alive) (ha : a ≠ .destroy v) :
    (s'.stage v).Alive := by
  have hupdate : ∀ {w : ℕ} {st : Stage}, st.Alive → (Function.update s.stage w st v).Alive := by
    intro w st hst
    rw [Function.update_apply]
    split_ifs
    · exact hst
    · exact hv
  cases hm with
  | construct _ => exact hupdate (by decide)
  | setDone _ => exact hupdate (by decide)
  | notifyAll _ => exact hupdate (by decide)
  | @destroy w _ _ =>
    show (Function.update s.stage w .destroyed v).Alive
    rw [Function.update_of_ne]
    · exact hv
    · rintro rfl
      exact ha rfl
  | increment _ _ | enqueue _ _ _ _ | exit _ _ | enter _ _ _ | queue _ | check _ | empty _ _
  | take _ _ _ | drop _ _ | crash _ _ | send _ _ | read _ _ | append _ _ _ | count _ _ _
  | complete _ _ _ _ _ | finish _ _ | call _ | waiters _ | callCheck _ | callReturn _ => exact hv

/-- Who is in `AddCommand` was there, or has just called it. -/
theorem Moves.calling (hm : s.Moves a s') {c : Command} (hc : c ∈ s'.pipeline.calling) :
    c ∈ s.pipeline.calling ∨ (s.stage c.server).Alive ∧ a ≠ .destroy c.server := by
  cases hm with
  | increment hv _ =>
    rcases List.mem_cons.mp hc with rfl | hc
    · exact Or.inr ⟨hv, by simp⟩
    · exact Or.inl hc
  | enqueue _ _ _ _ => exact Or.inl (List.mem_of_mem_erase hc)
  | read _ hp => exact Or.inl (Pipeline.read_calling hp ▸ hc)
  | append _ _ hp => exact Or.inl (Pipeline.append_calling hp ▸ hc)
  | count _ _ hp => exact Or.inl (Pipeline.count_calling hp ▸ hc)
  | complete _ _ _ _ hp => exact Or.inl (Pipeline.count_calling hp ▸ hc)
  | finish _ hp => exact Or.inl (Pipeline.finish_calling hp ▸ hc)
  | construct _ | exit _ _ | enter _ _ _ | queue _ | check _ | empty _ _ | take _ _ _ | drop _ _
  | crash _ _ | send _ _ | setDone _ | notifyAll _ | destroy _ _ | call _ | waiters _ | callCheck _
  | callReturn _ => exact Or.inl hc

theorem Inv.calling_step (h : s.Inv) (hm : s.Moves a s') (ha : s.Orderly a) :
    ∀ c ∈ s'.pipeline.calling, (s'.stage c.server).Alive := by
  intro c hc
  rcases hm.calling hc with hold | ⟨hv, hne⟩
  · refine hm.alive (h.calling c hold) ?_
    rintro rfl
    exact ha c hold rfl
  · exact hm.alive hv hne

/-- A `Server` that is gone was there a step before, without its threads, or was gone. -/
theorem Moves.destroyed (hm : s.Moves a s') {v : ℕ} (hv : s'.stage v = .destroyed) :
    s.stage v = .destroyed ∨ s.Stopped v := by
  have hupdate : ∀ {w : ℕ} {st : Stage}, st ≠ .destroyed →
      Function.update s.stage w st v = .destroyed → s.stage v = .destroyed := by
    intro w st hst hv
    rw [Function.update_apply] at hv
    split_ifs at hv
    · exact absurd hv hst
    · exact hv
  cases hm with
  | construct _ => exact Or.inl (hupdate (by decide) hv)
  | setDone _ => exact Or.inl (hupdate (by decide) hv)
  | notifyAll _ => exact Or.inl (hupdate (by decide) hv)
  | @destroy w _ hstopped =>
    change Function.update s.stage w .destroyed v = .destroyed at hv
    rw [Function.update_apply] at hv
    split_ifs at hv with heq
    · exact Or.inr (heq ▸ hstopped)
    · exact Or.inl hv
  | increment _ _ | enqueue _ _ _ _ | exit _ _ | enter _ _ _ | queue _ | check _ | empty _ _
  | take _ _ _ | drop _ _ | crash _ _ | send _ _ | read _ _ | append _ _ _ | count _ _ _
  | complete _ _ _ _ _ | finish _ _ | call _ | waiters _ | callCheck _ | callReturn _ =>
    exact Or.inl hv

theorem Inv.stopped_step (h : s.Inv) (hm : s.Moves a s') {v : ℕ} (hv : s.Stopped v) :
    s'.Stopped v :=
  fun i hi ↦ (h.exited_step hm (hv i hi)).1

theorem Inv.destroyed_step (h : s.Inv) (hm : s.Moves a s') (v : ℕ)
    (hv : s'.stage v = .destroyed) : s'.Stopped v :=
  h.stopped_step hm ((hm.destroyed hv).elim (h.stopped v) id)

/-- **One step.** -/
theorem Inv.step (h : s.Inv) (hstep : s.step a = some s') (ha : s.Orderly a) : s'.Inv := by
  have hm := moves_of_step hstep
  exact ⟨h.run_step hm ha, h.absent_step hm, h.worker_step hm, h.queue_step hm, h.waiters_step hm,
    h.calling_step hm ha, h.destroyed_step hm⟩

theorem inv_of_run {as : List BlockingAction}
    (hrun : Run (Guarded (StepOf step) Orderly) {} as s) : s.Inv :=
  hrun.invariant inv_init fun _ _ _ h hstep ↦ h.step hstep.1 hstep.2

end Blocking

end MemcacheRouter.Routerlib
