import MemcacheRouter.Router.PCQueue
import MemcacheRouter.Router.Servers

/-!
# The router

The main loop, the workers and what they share: the packet queue, the flags that stop the workers,
`server_list_m_`, and the channel from the workers back to the main loop. The main loop receives
messages, answers some of them itself, queues the others and forwards the answers of the workers;
and it stops and restarts the workers when the server list changes.

Here the queue is atomic: `BlockingPop` returns when `done_` is set or there are packets, and takes
the batch in one step, which is what its critical section does. The results of the operations on
memcached come with the steps, since who is answered does not depend on them. ZeroMQ delivers a
multipart message whole and once; the answers of different workers arrive in any order.

To tell who is answered, a packet in the router carries the number of the message it came in, and
so does a reply. Neither is read by any step.
-/

open Transition

namespace MemcacheRouter

/-! ## Frames -/

/-- The protocol buffer library: how an `Instruction` is parsed and serialised. -/
structure Codec where
  parse : Bytes → Instruction
  serialize : Instruction → Bytes

/-- A codec for the messages in a table. -/
def Codec.ofTable (table : List (Bytes × Instruction)) : Codec where
  parse data := (table.lookup data).getD {}
  serialize instruction := ((table.find? fun x ↦ x.2 = instruction).map Prod.fst).getD []

/-- The loop of `ReceiveOnePacket` over the frames of a message. -/
def receiveFrames (codec : Codec) : Bool → Packet → List Bytes → Packet
  | _, p, [] => p
  | isData, p, frame :: frames =>
    if isData then receiveFrames codec true { p with instruction := codec.parse frame } frames
    else if frame = [] then receiveFrames codec true p frames
    else receiveFrames codec false { p with frameIds := p.frameIds ++ [frame] } frames

/-- `MemcacheRouter::ReceiveOnePacket`. -/
def receiveOnePacket (codec : Codec) (multiFrame : Bool) (message : List Bytes) : Packet :=
  receiveFrames codec (!multiFrame) {} message

/-- `MemcacheRouter::SendFrames`. -/
def sendFrames (p : Packet) : List Bytes := p.frameIds ++ [[]]

/-- `MemcacheRouter::SendEmptyPacket`. -/
def sendEmptyPacket (p : Packet) : List Bytes := sendFrames p ++ [[]]

/-- `MemcacheRouter::SendAndDeletePacket`. -/
def sendAndDeletePacket (codec : Codec) (p : Packet) : List Bytes :=
  sendFrames p ++ [codec.serialize p.instruction]

/-! ## State -/

/-- A packet and the message on `router_` that it came in; what comes in on `async_` has none. -/
structure Job where
  id : Option ℕ
  packet : Packet
  deriving DecidableEq

/-- A message to a client, and the message that it answers. -/
structure Reply where
  id : Option ℕ
  frames : List Bytes
  deriving DecidableEq

/-- How far a worker has got in `ProcessPackets`. -/
inductive WorkerState where
  /-- About to take `server_list_m_`. -/
  | starting
  /-- In `client.Init`, with the lock. -/
  | initialising
  /-- About to test `done_`. -/
  | looping
  /-- In `BlockingPop`. -/
  | popping
  /-- The packets of the batch that are still to be looked at, and the GET packets put aside. -/
  | processing (todo gets : List Job)
  | exited
  deriving DecidableEq

/-- How far the main loop has got. -/
inductive MainState where
  | polling
  /-- A message was received on `router_`. -/
  | dispatching (j : Job)
  /-- About to push onto the queue. -/
  | pushing (j : Job)
  /-- In `SetMemcacheServers`, about to take `server_list_m_`. -/
  | locking (j : Job)
  | comparing (j : Job)
  /-- In `BlockingWait`: about to set `done_`. -/
  | stopping (j : Job)
  /-- In `UnblockAll`: about to set the queue's `done_`. -/
  | flagging (j : Job)
  /-- In `UnblockAll`: about to notify. -/
  | notifying (j : Job)
  /-- In `ThreadPool::Reset`: about to join the thread `i`. -/
  | joining (j : Job) (i : ℕ)
  | replacing (j : Job)
  /-- In `InitThreads`: about to reset `done_`. -/
  | restarting (j : Job)
  /-- In `InitThreads`: about to reset the queue. -/
  | resetting (j : Job)
  /-- In `InitThreads`: about to start the thread `i`. -/
  | spawning (j : Job) (i : ℕ)
  | unlocking (j : Job)
  /-- Out of `SetMemcacheServers`, about to answer. -/
  | answering (j : Job)
  deriving DecidableEq

/-- Who holds `server_list_m_`. -/
inductive Owner where
  | main
  | worker (i : ℕ)
  deriving DecidableEq

/-- The router. The last four fields record what has happened: the messages received on `router_`,
the replies sent there, and the packets that were taken from the queue and those of them that were
dealt with. -/
structure Router where
  main : MainState := .polling
  queue : List Job := []
  queueDone : Bool := false
  done : Bool := false
  workers : List WorkerState := []
  lock : Option Owner := none
  serverList : Option Packet := none
  output : List Reply := []
  received : List (List Bytes) := []
  sent : List Reply := []
  taken : List Job := []
  finished : List Job := []

/-- The steps of the main loop and of the workers. A result is what an operation on memcached, or
the statistics, make of the instruction. -/
inductive RouterAction where
  | receive (message : List Bytes)
  | receiveAsync (message : List Bytes)
  | forward (n : ℕ)
  | main (result : Instruction)
  | worker (i : ℕ) (result : Instruction)

/-! ## Steps -/

namespace Router

/-- The main loop sends a reply to a client. -/
def send (r : Router) (j : Job) (frames : List Bytes) : Router :=
  { r with sent := r.sent ++ [⟨j.id, frames⟩] }

/-- What the main loop does with a packet from `router_`. -/
def dispatch (codec : Codec) (r : Router) (j : Job) (result : Instruction) : Option Router :=
  match j.packet.getType with
  | .ok .serverList => some { r with main := .locking j }
  | .ok .set => some { r.send j (sendEmptyPacket j.packet) with main := .pushing j }
  | .ok .stats => some { r.send j
      (sendAndDeletePacket codec { j.packet with instruction := result }) with main := .polling }
  | .ok .get => some { r with main := .pushing j }
  | .ok .increment => some { r with main := .pushing j }
  | .error _ => none

/-- The next step of the main loop. -/
def mainStep (codec : Codec) (numThreads : ℕ) (r : Router) (result : Instruction) :
    Option Router :=
  match r.main with
  | .polling => none
  | .dispatching j => r.dispatch codec j result
  | .pushing j => some { r with main := .polling, queue := r.queue ++ [j] }
  | .locking j =>
    if r.lock = none then some { r with main := .comparing j, lock := some .main } else none
  | .comparing j =>
    match isServerListMatching r.serverList j.packet with
    | .ok true => some { r with main := .unlocking j }
    | .ok false => some { r with main := .stopping j }
    | .error _ => none
  | .stopping j => some { r with main := .flagging j, done := true }
  | .flagging j => some { r with main := .notifying j, queueDone := true }
  | .notifying j => some { r with main := .joining j 0 }
  | .joining j i =>
    -- The join of a thread that is still running blocks.
    match r.workers[i]? with
    | none => some { r with main := .replacing j, workers := [] }
    | some .exited => some { r with main := .joining j (i + 1) }
    | some _ => none
  | .replacing j => some { r with main := .restarting j, serverList := some j.packet }
  | .restarting j => some { r with main := .resetting j, done := false }
  | .resetting j => some { r with main := .spawning j 0, queueDone := false }
  | .spawning j i =>
    if i < numThreads then
      some { r with main := .spawning j (i + 1), workers := r.workers ++ [.starting] }
    else some { r with main := .unlocking j }
  | .unlocking j => some { r with main := .answering j, lock := none }
  | .answering j => some { r.send j (sendEmptyPacket j.packet) with main := .polling }

/-- Worker `i` goes on to `w`. -/
def goto (r : Router) (i : ℕ) (w : WorkerState) : Router :=
  { r with workers := r.workers.set i w }

/-- What a worker does with a packet of its batch. -/
def handle (codec : Codec) (r : Router) (i : ℕ) (j : Job) (todo gets : List Job)
    (result : Instruction) : Option Router :=
  match j.packet.getType with
  | .ok .set => some { r.goto i (.processing todo gets) with finished := r.finished ++ [j] }
  | .ok .increment => some { r.goto i (.processing todo gets) with
      output := r.output ++
        [⟨j.id, sendAndDeletePacket codec { j.packet with instruction := result }⟩]
      finished := r.finished ++ [j] }
  | .ok .get => some (r.goto i (.processing todo (gets ++ [j])))
  -- The source has no branch for the other types: such a packet would be lost.
  | .ok _ => some (r.goto i (.processing todo gets))
  | .error _ => none

/-- The next step of worker `i`. -/
def workerStep (codec : Codec) (r : Router) (i : ℕ) (result : Instruction) : Option Router :=
  match r.workers[i]? with
  | none => none
  | some .starting =>
    if r.lock = none then some { r.goto i .initialising with lock := some (.worker i) } else none
  | some .initialising => some { r.goto i .looping with lock := none }
  | some .looping => some (r.goto i (if r.done then .exited else .popping))
  | some .popping =>
    -- `BlockingPop` gives up without a packet when the queue is being stopped.
    if r.queueDone then some (r.goto i (.processing [] []))
    else if r.queue = [] then none
    else some { r.goto i (.processing (popBatch Job.packet r.queue).1 []) with
      queue := (popBatch Job.packet r.queue).2
      taken := r.taken ++ (popBatch Job.packet r.queue).1 }
  | some (.processing (j :: todo) gets) => r.handle codec i j todo gets result
  | some (.processing [] (j :: gets)) => some { r.goto i (.processing [] gets) with
      output := r.output ++
        [⟨j.id, sendAndDeletePacket codec { j.packet with instruction := result }⟩]
      finished := r.finished ++ [j] }
  | some (.processing [] []) => some (r.goto i .looping)
  | some .exited => none

/-- One step of the router. The main loop receives and forwards only when it polls. -/
def step (codec : Codec) (numThreads : ℕ) (r : Router) : RouterAction → Option Router
  | .receive message =>
    if r.main = .polling then some { r with
      main := .dispatching ⟨some r.received.length, receiveOnePacket codec true message⟩
      received := r.received ++ [message] }
    else none
  | .receiveAsync message =>
    if r.main = .polling ∧ (receiveOnePacket codec false message).isSet then some { r with
      main := .pushing ⟨none, receiveOnePacket codec false message⟩ }
    else none
  | .forward n =>
    if r.main = .polling then
      match r.output[n]? with
      | some reply => some { r with sent := r.sent ++ [reply], output := r.output.eraseIdx n }
      | none => none
    else none
  | .main result => r.mainStep codec numThreads result
  | .worker i result => r.workerStep codec i result

end Router

/-! ## What a step can do -/

/-- The packets of a worker's batch. -/
def WorkerState.jobs : WorkerState → List Job
  | processing todo gets => todo ++ gets
  | _ => []

/-- The SERVER_LIST packet that the main loop is working on. -/
def MainState.serving : MainState → Option Job
  | polling => none
  | dispatching _ => none
  | pushing _ => none
  | locking j => some j
  | comparing j => some j
  | stopping j => some j
  | flagging j => some j
  | notifying j => some j
  | joining j _ => some j
  | replacing j => some j
  | restarting j => some j
  | resetting j => some j
  | spawning j _ => some j
  | unlocking j => some j
  | answering j => some j

/-- The steps of `SetMemcacheServers` that leave the workers alone: from where to where, and who
holds `server_list_m_` then. -/
inductive Router.Serves (r : Router) : MainState → MainState → Option Owner → Prop
  | acquire {j} (hlock : r.lock = none) : Serves r (.locking j) (.comparing j) (some .main)
  | matching {j} (hmatch : isServerListMatching r.serverList j.packet = .ok true) :
      Serves r (.comparing j) (.unlocking j) r.lock
  | differing {j} (hmatch : isServerListMatching r.serverList j.packet = .ok false) :
      Serves r (.comparing j) (.stopping j) r.lock
  | setDone {j} : Serves r (.stopping j) (.flagging j) r.lock
  | setQueueDone {j} : Serves r (.flagging j) (.notifying j) r.lock
  | notify {j} : Serves r (.notifying j) (.joining j 0) r.lock
  | replace {j} : Serves r (.replacing j) (.restarting j) r.lock
  | resetDone {j} : Serves r (.restarting j) (.resetting j) r.lock
  | resetQueue {j} : Serves r (.resetting j) (.spawning j 0) r.lock
  | spawned {j i} : Serves r (.spawning j i) (.unlocking j) r.lock
  | release {j} : Serves r (.unlocking j) (.answering j) none

/-- The steps of worker `i` without a batch: from where to where, and who holds `server_list_m_`
then. -/
inductive Router.Controls (r : Router) (i : ℕ) :
    WorkerState → WorkerState → Option Owner → Prop
  | acquire (hlock : r.lock = none) : Controls r i .starting .initialising (some (.worker i))
  | release : Controls r i .initialising .looping none
  | exit (hdone : r.done = true) : Controls r i .looping .exited r.lock
  | enter (hdone : r.done = false) : Controls r i .looping .popping r.lock
  | unblocked (hdone : r.queueDone = true) : Controls r i .popping (.processing [] []) r.lock
  | again : Controls r i (.processing [] []) .looping r.lock

/-- What a step can do. -/
inductive Router.Moves (codec : Codec) (r : Router) : RouterAction → Router → Prop
  | receive {message} (h : r.main = .polling) : Moves codec r (.receive message) { r with
      main := .dispatching ⟨some r.received.length, receiveOnePacket codec true message⟩
      received := r.received ++ [message] }
  | receiveAsync {message} (h : r.main = .polling)
      (hset : (receiveOnePacket codec false message).isSet = true) :
      Moves codec r (.receiveAsync message) { r with
        main := .pushing ⟨none, receiveOnePacket codec false message⟩ }
  | forward {n reply} (h : r.main = .polling) (hn : r.output[n]? = some reply) :
      Moves codec r (.forward n) { r with
        sent := r.sent ++ [reply], output := r.output.eraseIdx n }
  | dispatchList {j result} (h : r.main = .dispatching j)
      (ht : j.packet.getType = .ok .serverList) :
      Moves codec r (.main result) { r with main := .locking j }
  | dispatchSet {j result} (h : r.main = .dispatching j) (ht : j.packet.getType = .ok .set) :
      Moves codec r (.main result) { r.send j (sendEmptyPacket j.packet) with main := .pushing j }
  | dispatchStats {j result} (h : r.main = .dispatching j) (ht : j.packet.getType = .ok .stats) :
      Moves codec r (.main result) { r.send j
        (sendAndDeletePacket codec { j.packet with instruction := result }) with main := .polling }
  | dispatchQueue {j result} (h : r.main = .dispatching j)
      (ht : j.packet.getType = .ok .get ∨ j.packet.getType = .ok .increment) :
      Moves codec r (.main result) { r with main := .pushing j }
  | push {j result} (h : r.main = .pushing j) :
      Moves codec r (.main result) { r with main := .polling, queue := r.queue ++ [j] }
  | serve {result main queueDone done lock serverList} (h : r.Serves r.main main lock) :
      Moves codec r (.main result) { r with
        main := main, queueDone := queueDone, done := done, lock := lock, serverList := serverList }
  | join {j i result} (h : r.main = .joining j i) (hi : r.workers[i]? = some .exited) :
      Moves codec r (.main result) { r with main := .joining j (i + 1) }
  | clear {j i result} (h : r.main = .joining j i) (hi : r.workers[i]? = none) :
      Moves codec r (.main result) { r with main := .replacing j, workers := [] }
  | spawn {j i result} (h : r.main = .spawning j i) : Moves codec r (.main result) { r with
      main := .spawning j (i + 1), workers := r.workers ++ [.starting] }
  | answerList {j result} (h : r.main = .answering j) :
      Moves codec r (.main result) { r.send j (sendEmptyPacket j.packet) with main := .polling }
  | control {i w w' lock result} (hi : r.workers[i]? = some w) (h : r.Controls i w w' lock) :
      Moves codec r (.worker i result) { r.goto i w' with lock := lock }
  | pop {i result} (hi : r.workers[i]? = some .popping) (hdone : r.queueDone = false)
      (hqueue : r.queue ≠ []) :
      Moves codec r (.worker i result) { r.goto i (.processing (popBatch Job.packet r.queue).1 [])
        with
        queue := (popBatch Job.packet r.queue).2
        taken := r.taken ++ (popBatch Job.packet r.queue).1 }
  | handleSet {i j todo gets result} (hi : r.workers[i]? = some (.processing (j :: todo) gets))
      (ht : j.packet.getType = .ok .set) : Moves codec r (.worker i result)
        { r.goto i (.processing todo gets) with finished := r.finished ++ [j] }
  | handleIncr {i j todo gets result} (hi : r.workers[i]? = some (.processing (j :: todo) gets))
      (ht : j.packet.getType = .ok .increment) : Moves codec r (.worker i result)
        { r.goto i (.processing todo gets) with
          output := r.output ++
            [⟨j.id, sendAndDeletePacket codec { j.packet with instruction := result }⟩]
          finished := r.finished ++ [j] }
  | handleGet {i j todo gets result} (hi : r.workers[i]? = some (.processing (j :: todo) gets))
      (ht : j.packet.getType = .ok .get) :
      Moves codec r (.worker i result) (r.goto i (.processing todo (gets ++ [j])))
  | handleOther {i j todo gets result} (hi : r.workers[i]? = some (.processing (j :: todo) gets))
      (ht : j.packet.getType = .ok .serverList ∨ j.packet.getType = .ok .stats) :
      Moves codec r (.worker i result) (r.goto i (.processing todo gets))
  | answerGet {i j gets result} (hi : r.workers[i]? = some (.processing [] (j :: gets))) :
      Moves codec r (.worker i result) { r.goto i (.processing [] gets) with
        output := r.output ++
          [⟨j.id, sendAndDeletePacket codec { j.packet with instruction := result }⟩]
        finished := r.finished ++ [j] }

namespace Router

variable {codec : Codec} {numThreads : ℕ} {r r' : Router} {a : RouterAction}

/-- All these steps are about one SERVER_LIST packet. -/
theorem Serves.serving {m main : MainState} {lock : Option Owner} (h : r.Serves m main lock) :
    ∃ j, m.serving = some j ∧ main.serving = some j := by
  cases h <;> exact ⟨_, rfl, rfl⟩

/-- Joining begins with the first thread. -/
theorem Serves.eq_zero_of_joining {m : MainState} {j : Job} {i : ℕ} {lock : Option Owner}
    (h : r.Serves m (.joining j i) lock) : i = 0 := by
  cases h
  rfl

theorem Controls.jobs {i : ℕ} {w w' : WorkerState} {lock : Option Owner}
    (h : r.Controls i w w' lock) : w.jobs = [] ∧ w'.jobs = [] := by
  cases h <;> exact ⟨rfl, rfl⟩

theorem Controls.ne_exited {i : ℕ} {w w' : WorkerState} {lock : Option Owner}
    (h : r.Controls i w w' lock) : w ≠ .exited := by
  cases h <;> simp

theorem mem_workers_goto {i : ℕ} {w' x : WorkerState} (h : x ∈ (r.goto i w').workers) :
    x ∈ r.workers ∨ x = w' :=
  List.mem_or_eq_of_mem_set h

theorem moves_of_mainStep {result : Instruction}
    (h : r.mainStep codec numThreads result = some r') : r.Moves codec (.main result) r' := by
  rw [mainStep] at h
  split at h
  · cases h
  · next j hj =>
    rw [dispatch] at h
    split at h
    · next ht =>
      cases h
      exact .dispatchList hj ht
    · next ht =>
      cases h
      exact .dispatchSet hj ht
    · next ht =>
      cases h
      exact .dispatchStats hj ht
    · next ht =>
      cases h
      exact .dispatchQueue hj (Or.inl ht)
    · next ht =>
      cases h
      exact .dispatchQueue hj (Or.inr ht)
    · cases h
  · next j hj =>
    cases h
    exact .push hj
  · next j hj =>
    split_ifs at h with hlock
    cases h
    exact .serve (hj ▸ .acquire hlock)
  · next j hj =>
    split at h
    · next hmatch =>
      cases h
      exact .serve (hj ▸ .matching hmatch)
    · next hmatch =>
      cases h
      exact .serve (hj ▸ .differing hmatch)
    · cases h
  · next j hj =>
    cases h
    exact .serve (hj ▸ .setDone)
  · next j hj =>
    cases h
    exact .serve (hj ▸ .setQueueDone)
  · next j hj =>
    cases h
    exact .serve (hj ▸ .notify)
  · next j i hj =>
    split at h
    · next hi =>
      cases h
      exact .clear hj hi
    · next hi =>
      cases h
      exact .join hj hi
    · cases h
  · next j hj =>
    cases h
    exact .serve (hj ▸ .replace)
  · next j hj =>
    cases h
    exact .serve (hj ▸ .resetDone)
  · next j hj =>
    cases h
    exact .serve (hj ▸ .resetQueue)
  · next j i hj =>
    split_ifs at h
    · cases h
      exact .spawn hj
    · cases h
      exact .serve (hj ▸ .spawned)
  · next j hj =>
    cases h
    exact .serve (hj ▸ .release)
  · next j hj =>
    cases h
    exact .answerList hj

theorem moves_of_workerStep {i : ℕ} {result : Instruction}
    (h : r.workerStep codec i result = some r') : r.Moves codec (.worker i result) r' := by
  rw [workerStep] at h
  split at h
  · cases h
  · next hi =>
    split_ifs at h with hlock
    cases h
    exact .control hi (.acquire hlock)
  · next hi =>
    cases h
    exact .control hi .release
  · next hi =>
    cases h
    by_cases hdone : r.done = true
    · rw [if_pos hdone]
      exact .control hi (.exit hdone)
    · rw [if_neg hdone]
      exact .control hi (.enter (Bool.eq_false_iff.mpr hdone))
  · next hi =>
    split_ifs at h with hdone hqueue
    · cases h
      exact .control hi (.unblocked hdone)
    · cases h
      exact .pop hi (Bool.eq_false_iff.mpr hdone) hqueue
  · next j todo gets hi =>
    rw [handle] at h
    split at h
    · next ht =>
      cases h
      exact .handleSet hi ht
    · next ht =>
      cases h
      exact .handleIncr hi ht
    · next ht =>
      cases h
      exact .handleGet hi ht
    · next t hset hincr hget ht =>
      cases h
      refine .handleOther hi ?_
      cases t with
      | get => exact absurd rfl hget
      | set => exact absurd rfl hset
      | increment => exact absurd rfl hincr
      | serverList => exact Or.inl ht
      | stats => exact Or.inr ht
    · cases h
  · next j gets hi =>
    cases h
    exact .answerGet hi
  · next hi =>
    cases h
    exact .control hi .again
  · cases h

/-- **Inversion of a step.** -/
theorem moves_of_step (h : r.step codec numThreads a = some r') : r.Moves codec a r' := by
  cases a with
  | receive message =>
    rw [step] at h
    split_ifs at h with hpoll
    cases h
    exact .receive hpoll
  | receiveAsync message =>
    rw [step] at h
    split_ifs at h with hpoll
    cases h
    exact .receiveAsync hpoll.1 hpoll.2
  | forward n =>
    rw [step] at h
    split_ifs at h with hpoll
    split at h
    · next reply hn =>
      cases h
      exact .forward hpoll hn
    · cases h
  | main result => exact moves_of_mainStep h
  | worker i result => exact moves_of_workerStep h

end Router

end MemcacheRouter
