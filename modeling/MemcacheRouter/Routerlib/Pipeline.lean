import MemcacheRouter.Foundations.Transition
import MemcacheRouter.Routerlib.ReadLoop

/-!
# Commands in the pipeline

Any number of callers add commands to any number of `Server`s, and the threads of each `Server` take
what has accumulated, send it in one request and hand the responses out. A command is counted in its
`ResponseState` before it is enqueued, and it is counted down after the last of its frames was
appended; in between it passes from its caller to the node of the `Server`, and from there to a
thread. The steps are those between which another thread can act: the two halves of `AddCommand`,
taking the node, a `read`, and the two halves of a turn of the inner loop.

The connections are assumed to work: a `read` returns whole frames, one for every instruction in the
order of the request. What the frames answer is known to the model only. The threads go by their
counters, and the invariant is that these agree.
-/

open Transition

namespace MemcacheRouter.Routerlib

/-- A call of `AddCommand`, numbered in the order in which the calls begin. -/
structure Command where
  id : ℕ
  server : ℕ
  bytes : Bytes
  numInstructions : ℕ
  state : ℕ
  deriving DecidableEq, Repr

/-- `struct RequestNode`, with the commands that were appended to it. -/
structure RequestNode where
  request : Bytes := []
  states : List ℕ := []
  /-- They are `int`s, below `2 ^ 31`. -/
  numInstructions : List ℤ := []
  commands : List Command := []

/-- The node after `AddCommand`. -/
def RequestNode.append (n : RequestNode) (c : Command) : RequestNode where
  request := n.request ++ c.bytes
  states := n.states ++ [c.state]
  numInstructions := n.numInstructions ++ [(c.numInstructions : ℤ)]
  commands := n.commands ++ [c]

/-- What a thread works on: a node, whose counters are counted down in the cursor. -/
structure Job where
  node : RequestNode
  cursor : Cursor
  /-- The frames of the chunk that are not handed out yet, each with the command it answers. -/
  arrived : List (Command × Bytes) := []
  /-- The commands that the connection still has to answer, once for every frame. -/
  expected : List Command

/-- The frames that a request asks for, each as the command it answers. -/
def answersTo (commands : List Command) : List Command :=
  commands.flatMap fun c ↦ List.replicate c.numInstructions c

/-- A thread before the first `read` for a node. -/
def Job.start (n : RequestNode) : Job where
  node := n
  cursor := { numInstructions := n.numInstructions }
  expected := answersTo n.commands

/-- Where a thread of a `Server` is. -/
inductive ThreadPc where
  /-- In `BlockingGetRequestNode`. -/
  | waiting
  /-- Between two turns of the inner loop, or about to `read`. -/
  | reading (job : Job)
  /-- In the middle of a turn, after `AddResponse`. -/
  | counting (job : Job) (d : Delivery)
  | crashed (e : Crash)

/-- A call of `AddResponse`: the frame it is for and the command that the frame answers, and what
the thread has appended to which `ResponseState`. -/
structure Appended where
  answers : Option (Command × Bytes)
  target : ℕ
  bytes : Bytes

/-- The `Server`s and their threads, and the `ResponseState`s. A thread is a pair of its `Server`
and its number. -/
structure Pipeline where
  heap : States := fun _ ↦ {}
  nodes : ℕ → Option RequestNode := fun _ ↦ none
  threads : ℕ × ℕ → ThreadPc := fun _ ↦ .waiting
  /-- The calls of `AddCommand` that have begun. -/
  begun : List Command := []
  /-- Those that have not enqueued their command yet. -/
  calling : List Command := []
  /-- The commands of the nodes that were deleted. -/
  deleted : List Command := []
  appended : List Appended := []
  /-- The commands that were at hand in the calls of `DecrementPending`. -/
  decremented : List Command := []

/-- The steps. -/
inductive PipelineAction where
  | increment (server : ℕ) (bytes : Bytes) (numInstructions state : ℕ)
  | enqueue (c : Command)
  | take (t : ℕ × ℕ)
  | read (t : ℕ × ℕ) (frames : List Bytes) (header : ProtocolHeader)
  | append (t : ℕ × ℕ)
  | count (t : ℕ × ℕ)
  | finish (t : ℕ × ℕ)
  | getResponse (state : ℕ)

namespace Pipeline

/-- Move a thread. -/
def goto (s : Pipeline) (t : ℕ × ℕ) (pc : ThreadPc) : Pipeline :=
  { s with threads := Function.update s.threads t pc }

/-- The first half of `Server::AddCommand`: `IncrementPending`. -/
def increment (s : Pipeline) (server : ℕ) (bytes : Bytes) (numInstructions state : ℕ) : Pipeline :=
  let c : Command := ⟨s.begun.length, server, bytes, numInstructions, state⟩
  { s with
    heap := Function.update s.heap state (s.heap state).incrementPending
    begun := s.begun ++ [c]
    calling := c :: s.calling }

/-- The command is appended to the node of its `Server`, which is created if there is none. -/
def enqueued (s : Pipeline) (c : Command) : Pipeline :=
  { s with
    nodes := Function.update s.nodes c.server (some (((s.nodes c.server).getD {}).append c))
    calling := s.calling.erase c }

/-- The second half of `Server::AddCommand`, under the mutex. -/
def enqueue (s : Pipeline) (c : Command) : Option Pipeline :=
  if c ∈ s.calling then some (s.enqueued c) else none

/-- `node_` is taken by a thread. -/
def taken (s : Pipeline) (t : ℕ × ℕ) (n : RequestNode) : Pipeline :=
  { s.goto t (.reading (Job.start n)) with nodes := Function.update s.nodes t.1 none }

/-- `Server::BlockingGetRequestNode` returns the node, and the request is sent. -/
def take (s : Pipeline) (t : ℕ × ℕ) : Option Pipeline :=
  match s.threads t, s.nodes t.1 with
  | .waiting, some n => some (s.taken t n)
  | _, _ => none

/-- `read` returns some frames. The loop comes to it at the beginning, and when a chunk is used up
and not every command is answered. -/
def read (s : Pipeline) (t : ℕ × ℕ) (frames : List Bytes) (header : ProtocolHeader) :
    Option Pipeline :=
  match s.threads t with
  | .reading job =>
    if !job.cursor.more &&
        (job.cursor.response = [] || job.cursor.stateIdx < job.node.states.length) then
      some (s.goto t (.reading { job with
        cursor := { job.cursor with response := frames.flatten, pos := 0, header := header }
        arrived := (job.expected.take frames.length).zip frames
        expected := job.expected.drop frames.length }))
    else none
  | _ => none

/-- The first half of a turn: `AddResponse`. -/
def append (s : Pipeline) (t : ℕ × ℕ) : Option Pipeline :=
  match s.threads t with
  | .reading job =>
    if job.cursor.more then
      match job.cursor.deliver job.node.states with
      | .error e => some (s.goto t (.crashed e))
      | .ok d => some { s.goto t (.counting job d) with
          heap := Function.update s.heap d.target ((s.heap d.target).addResponse d.bytes)
          appended := s.appended ++ [⟨job.arrived.head?, d.target, d.bytes⟩] }
    else none
  | _ => none

/-- The second half of a turn: the instruction is counted down, and the command may be complete. -/
def count (s : Pipeline) (t : ℕ × ℕ) : Option Pipeline :=
  match s.threads t with
  | .counting job d =>
    match job.cursor.count d with
    | .error e => some (s.goto t (.crashed e))
    | .ok (completes, cursor) =>
      let s' := s.goto t (.reading { job with cursor := cursor, arrived := job.arrived.tail })
      if completes then
        some { s' with
          heap := Function.update s.heap d.target (s.heap d.target).decrementPending
          decremented := s.decremented ++ job.arrived.head?.toList.map Prod.fst }
      else some s'
  | _ => none

/-- The node of a thread is deleted. -/
def finished (s : Pipeline) (t : ℕ × ℕ) (job : Job) : Pipeline :=
  { s.goto t .waiting with deleted := s.deleted ++ job.node.commands }

/-- The reading loop ends, and the node is deleted. -/
def finish (s : Pipeline) (t : ℕ × ℕ) : Option Pipeline :=
  match s.threads t with
  | .reading job =>
    if !job.cursor.more && job.cursor.response ≠ [] &&
        job.node.states.length ≤ job.cursor.stateIdx then
      some (s.finished t job)
    else none
  | _ => none

/-- `ResponseState::BlockingGetResponse` returns. -/
def getResponse (s : Pipeline) (state : ℕ) : Option Pipeline :=
  if 0 < (s.heap state).numLeft then none else some s

/-- One step. -/
def step (s : Pipeline) : PipelineAction → Option Pipeline
  | .increment server bytes numInstructions state =>
    some (s.increment server bytes numInstructions state)
  | .enqueue c => s.enqueue c
  | .take t => s.take t
  | .read t frames header => s.read t frames header
  | .append t => s.append t
  | .count t => s.count t
  | .finish t => s.finish t
  | .getResponse state => s.getResponse state

theorem threads_goto (s : Pipeline) (t t' : ℕ × ℕ) (pc : ThreadPc) :
    (s.goto t pc).threads t' = if t' = t then pc else s.threads t' := Function.update_apply _ _ _ _

theorem nodes_enqueued (s : Pipeline) (c : Command) (v : ℕ) :
    (s.enqueued c).nodes v = if v = c.server then some (((s.nodes c.server).getD {}).append c)
      else s.nodes v := Function.update_apply _ _ _ _

theorem nodes_taken (s : Pipeline) (t : ℕ × ℕ) (n : RequestNode) (v : ℕ) :
    (s.taken t n).nodes v = if v = t.1 then none else s.nodes v := Function.update_apply _ _ _ _

theorem threads_taken (s : Pipeline) (t t' : ℕ × ℕ) (n : RequestNode) :
    (s.taken t n).threads t' = if t' = t then .reading (Job.start n) else s.threads t' :=
  s.threads_goto t t' _

theorem threads_finished (s : Pipeline) (t t' : ℕ × ℕ) (job : Job) :
    (s.finished t job).threads t' = if t' = t then .waiting else s.threads t' :=
  s.threads_goto t t' _

/-- The connection of a thread returns one or more whole frames, no more than it still owes, and no
more than the buffer holds; and a command has at least one instruction. -/
def Orderly (s : Pipeline) : PipelineAction → Prop
  | .increment _ _ numInstructions _ => 1 ≤ numInstructions
  | .read t frames _ => frames ≠ [] ∧ (∀ f ∈ frames, ResponseFrame f) ∧
      frames.flatten.length ≤ kBufferLen ∧
      ∀ job, s.threads t = .reading job → frames.length ≤ job.expected.length
  | _ => True

instance (s : Pipeline) (a : PipelineAction) : Decidable (s.Orderly a) :=
  match a with
  | .increment _ _ numInstructions _ => inferInstanceAs (Decidable (1 ≤ numInstructions))
  | .read t frames _ =>
    have : Decidable (∀ job, s.threads t = .reading job → frames.length ≤ job.expected.length) :=
      match s.threads t with
      | .reading job => decidable_of_iff (frames.length ≤ job.expected.length)
          ⟨fun h _ hjob ↦ ThreadPc.reading.inj hjob ▸ h, fun h ↦ h job rfl⟩
      | .waiting | .counting _ _ | .crashed _ => .isTrue fun _ hjob ↦ nomatch hjob
    inferInstanceAs (Decidable (_ ∧ _ ∧ _ ∧ _))
  | .enqueue _ | .take _ | .append _ | .count _ | .finish _ | .getResponse _ =>
    inferInstanceAs (Decidable True)

end Pipeline

/-! ## One thread -/

/-- A node is the concatenation of its commands, in one order. -/
structure RequestNode.Joins (n : RequestNode) : Prop where
  request : n.request = (n.commands.map Command.bytes).flatten
  states : n.states = n.commands.map Command.state
  numInstructions : n.numInstructions = n.commands.map fun c ↦ (c.numInstructions : ℤ)

theorem RequestNode.joins_empty : Joins {} := ⟨rfl, rfl, rfl⟩

theorem RequestNode.Joins.append {n : RequestNode} (h : n.Joins) (c : Command) :
    (n.append c).Joins := by
  refine ⟨?_, ?_, ?_⟩
  · simp [RequestNode.append, h.request]
  · simp [RequestNode.append, h.states]
  · simp [RequestNode.append, h.numInstructions]

/-- The counters of a thread agree with what the connection returns: `todo` has the commands that
are not complete, each with the number of its frames that are not counted yet. -/
structure Job.Ok (job : Job) (todo : List (Command × ℕ)) : Prop where
  joins : job.node.Joins
  owes : job.cursor.Owes job.node.states (todo.map fun x ↦ (x.1.state, x.2))
  rest : todo.map Prod.fst = job.node.commands.drop job.cursor.stateIdx
  pos : ∀ x ∈ todo, 0 < x.2
  queue : job.arrived.map Prod.fst ++ job.expected = todo.flatMap fun x ↦ List.replicate x.2 x.1
  frames : ∀ e ∈ job.arrived, ResponseFrame e.2
  nonneg : 0 ≤ job.cursor.pos
  drop : job.cursor.response.drop job.cursor.pos.toNat = (job.arrived.map Prod.snd).flatten
  length : job.cursor.response.length ≤ kBufferLen

namespace Job.Ok

variable {job : Job} {todo : List (Command × ℕ)} {c : Command} {f : Bytes}
  {rest : List (Command × Bytes)}

/-- A node that was just taken. -/
theorem start {n : RequestNode} (hn : n.Joins) (hpos : ∀ c ∈ n.commands, 0 < c.numInstructions) :
    (Job.start n).Ok (n.commands.map fun c ↦ (c, c.numInstructions)) where
  joins := hn
  owes := by
    refine ⟨?_, ?_⟩
    · rw [List.map_map, List.map_map]
      exact hn.states
    · rw [List.map_map, List.map_map]
      exact hn.numInstructions
  rest := by
    rw [List.map_map]
    exact List.map_id _
  pos := by
    intro x hx
    obtain ⟨c, hc, rfl⟩ := List.mem_map.mp hx
    exact hpos c hc
  queue := by
    rw [List.flatMap_map]
    rfl
  frames := fun e he ↦ absurd he List.not_mem_nil
  nonneg := le_rfl
  drop := rfl
  length := Nat.zero_le _

/-- The next frame is for the next command. -/
theorem head (h : job.Ok todo) (harr : job.arrived = (c, f) :: rest) :
    (∃ k todo', todo = (c, k + 1) :: todo') ∧
      job.cursor.At f (rest.map Prod.snd).flatten := by
  refine ⟨?_, ⟨h.frames (c, f) (harr ▸ List.mem_cons_self), h.nonneg, ?_, h.length⟩⟩
  · have hqueue := h.queue
    rw [harr] at hqueue
    rcases todo with _ | ⟨⟨c', k⟩, todo⟩
    · cases hqueue
    · obtain ⟨k, rfl⟩ := Nat.exists_eq_add_one.mpr (h.pos _ List.mem_cons_self)
      rw [List.flatMap_cons, List.replicate_succ] at hqueue
      obtain rfl : c = c' := (List.cons.inj hqueue).1
      exact ⟨k, todo, rfl⟩
  · rw [h.drop, harr]
    rfl

theorem exists_head (h : job.Ok todo) (hmore : job.cursor.more = true) :
    ∃ c f rest, job.arrived = (c, f) :: rest := by
  rcases harr : job.arrived with _ | ⟨⟨c, f⟩, rest⟩
  · have hdrop := h.drop
    rw [harr, List.map_nil, List.flatten_nil, List.drop_eq_nil_iff] at hdrop
    rw [Cursor.more, Bool.and_eq_true, decide_eq_true_iff, decide_eq_true_iff] at hmore
    omega
  · exact ⟨c, f, rest, rfl⟩

theorem arrived_eq_nil (h : job.Ok todo) (hmore : job.cursor.more = false) : job.arrived = [] := by
  rcases harr : job.arrived with _ | ⟨⟨c, f⟩, rest⟩
  · rfl
  · rw [(h.head harr).2.more] at hmore
    cases hmore

/-- `read` returns frames of the next commands. -/
theorem read (h : job.Ok todo) (hmore : job.cursor.more = false) {frames : List Bytes}
    (hframes : ∀ f ∈ frames, ResponseFrame f) (hlen : frames.flatten.length ≤ kBufferLen)
    (hle : frames.length ≤ job.expected.length) (header : ProtocolHeader) :
    Job.Ok { job with
      cursor := { job.cursor with response := frames.flatten, pos := 0, header := header }
      arrived := (job.expected.take frames.length).zip frames
      expected := job.expected.drop frames.length } todo where
  joins := h.joins
  owes := ⟨h.owes.states, h.owes.counts⟩
  rest := h.rest
  pos := h.pos
  queue := by
    have hqueue := h.queue
    rw [h.arrived_eq_nil hmore] at hqueue
    rw [List.map_fst_zip (by rw [List.length_take]; omega), List.take_append_drop]
    exact hqueue
  frames := fun e he ↦ hframes e.2 (List.of_mem_zip he).2
  nonneg := le_rfl
  drop := by
    rw [List.map_snd_zip (by rw [List.length_take]; omega)]
    rfl
  length := hlen

/-- The next frame is counted down. -/
theorem counted {k : ℕ} (h : job.Ok ((c, k + 1) :: todo)) (harr : job.arrived = (c, f) :: rest) :
    ∃ cursor, job.cursor.count ⟨c.state, f, job.cursor.pos + f.length, ProtocolHeader.ofBytes f⟩
        = .ok (k = 0, cursor) ∧
      cursor.stateIdx = (if k = 0 then job.cursor.stateIdx + 1 else job.cursor.stateIdx) ∧
      Job.Ok { job with cursor := cursor, arrived := rest }
        (if k = 0 then todo else (c, k) :: todo) := by
  have hat := (h.head harr).2
  obtain ⟨cursor, hcount, howes, hidx, hpos, hresponse⟩ := Cursor.Owes.count h.owes hat
  -- with its last frame the command goes from the list of what is to do
  refine ⟨cursor, hcount, hidx, ⟨h.joins, ?_, ?_, ?_, ?_, ?_, ?_, ?_, ?_⟩⟩
  · split_ifs at howes ⊢
    · exact howes
    · exact howes
  · have hrest := h.rest
    dsimp only
    rw [hidx]
    split_ifs
    · rw [← List.tail_drop, ← hrest]
      rfl
    · exact hrest
  · intro x hx
    split_ifs at hx with hk
    · exact h.pos x (List.mem_cons_of_mem _ hx)
    · rcases List.mem_cons.mp hx with rfl | hx
      · exact Nat.pos_of_ne_zero hk
      · exact h.pos x (List.mem_cons_of_mem _ hx)
  · have hqueue := h.queue
    rw [harr, List.flatMap_cons, List.replicate_succ] at hqueue
    refine (List.cons.inj hqueue).2.trans ?_
    split_ifs with hk
    · rw [hk]
      rfl
    · rfl
  · exact fun e he ↦ h.frames e (harr ▸ List.mem_cons_of_mem _ he)
  · exact hpos ▸ add_nonneg h.nonneg (Int.natCast_nonneg _)
  · dsimp only
    rw [hpos, hresponse, Int.toNat_add h.nonneg (Int.natCast_nonneg _), Int.toNat_natCast,
      ← List.drop_drop, hat.drop, List.drop_left]
  · exact hresponse ▸ h.length

end Job.Ok

/-- The next frame is for a command of the node. -/
theorem Job.Ok.mem_commands {job : Job} {todo : List (Command × ℕ)} {c : Command} {f : Bytes}
    {rest : List (Command × Bytes)} (h : job.Ok todo) (harr : job.arrived = (c, f) :: rest) :
    c ∈ job.node.commands := by
  obtain ⟨⟨k, todo', rfl⟩, -⟩ := h.head harr
  have hmem : c ∈ ((c, k + 1) :: todo').map Prod.fst := List.mem_cons_self
  rw [h.rest] at hmem
  exact List.mem_of_mem_drop hmem

/-- What a turn hands out when it comes to a frame that answers `c`. -/
def Job.delivery (job : Job) (c : Command) (f : Bytes) : Delivery :=
  ⟨c.state, f, job.cursor.pos + f.length, ProtocolHeader.ofBytes f⟩

/-- A thread whose counters agree with what the connection returns. -/
def ThreadPc.Ok : ThreadPc → Prop
  | .waiting => True
  | .reading job => ∃ todo, job.Ok todo
  | .counting job d => ∃ todo c f rest, job.Ok todo ∧ job.arrived = (c, f) :: rest ∧
      d = job.delivery c f
  | .crashed _ => False

namespace Pipeline

variable {s s' : Pipeline} {a : PipelineAction}

/-- A frame that answers `c` was appended to the `ResponseState` of `c`. -/
def handed (s : Pipeline) (t : ℕ × ℕ) (job : Job) (c : Command) (f : Bytes) : Pipeline :=
  { s.goto t (.counting job (job.delivery c f)) with
    heap := Function.update s.heap c.state ((s.heap c.state).addResponse f)
    appended := s.appended ++ [⟨some (c, f), c.state, f⟩] }

/-- `DecrementPending` was called for `c`. -/
def completed (s : Pipeline) (t : ℕ × ℕ) (job : Job) (c : Command) : Pipeline :=
  { s.goto t (.reading job) with
    heap := Function.update s.heap c.state (s.heap c.state).decrementPending
    decremented := s.decremented ++ [c] }

theorem heap_handed (s : Pipeline) (t : ℕ × ℕ) (job : Job) (c : Command) (f : Bytes) (i : ℕ) :
    (s.handed t job c f).heap i = if i = c.state then (s.heap c.state).addResponse f
      else s.heap i := Function.update_apply _ _ _ _

theorem heap_completed (s : Pipeline) (t : ℕ × ℕ) (job : Job) (c : Command) (i : ℕ) :
    (s.completed t job c).heap i = if i = c.state then (s.heap c.state).decrementPending
      else s.heap i := Function.update_apply _ _ _ _

/-- What holds of every node and of every thread by itself. -/
structure Local (s : Pipeline) : Prop where
  instructions : ∀ c ∈ s.begun, 0 < c.numInstructions
  calling : ∀ c ∈ s.calling, c ∈ s.begun
  nodes : ∀ v n, s.nodes v = some n → n.Joins ∧ ∀ c ∈ n.commands, c ∈ s.begun
  threads : ∀ t, (s.threads t).Ok

/-- What a step can do, as long as the threads are right: it does not crash, and what it hands out
is for the command at hand. -/
inductive Moves (s : Pipeline) : PipelineAction → Pipeline → Prop
  | increment {server bytes numInstructions state} (hpos : 0 < numInstructions) :
      Moves s (.increment server bytes numInstructions state)
        (s.increment server bytes numInstructions state)
  | enqueue {c} (hc : c ∈ s.calling) : Moves s (.enqueue c) (s.enqueued c)
  | take {t n} (ht : s.threads t = .waiting) (hn : s.nodes t.1 = some n) :
      Moves s (.take t) (s.taken t n)
  | read {t frames header job todo} {job' : Job} (ht : s.threads t = .reading job)
      (hok : job'.Ok todo) (hnode : job'.node = job.node)
      (hidx : job'.cursor.stateIdx = job.cursor.stateIdx)
      (hqueue : job'.arrived.map Prod.fst ++ job'.expected
        = job.arrived.map Prod.fst ++ job.expected) :
      Moves s (.read t frames header) (s.goto t (.reading job'))
  | append {t job todo c f rest} (ht : s.threads t = .reading job) (hok : job.Ok todo)
      (harr : job.arrived = (c, f) :: rest) :
      Moves s (.append t) (s.handed t job c f)
  | count {t job todo c f rest d cursor} (ht : s.threads t = .counting job d)
      (harr : job.arrived = (c, f) :: rest)
      (hok : ({ job with cursor := cursor, arrived := rest } : Job).Ok todo)
      (hidx : cursor.stateIdx = job.cursor.stateIdx) :
      Moves s (.count t) (s.goto t (.reading { job with cursor := cursor, arrived := rest }))
  | complete {t job todo c f rest d cursor} (ht : s.threads t = .counting job d)
      (harr : job.arrived = (c, f) :: rest)
      (hok : ({ job with cursor := cursor, arrived := rest } : Job).Ok todo)
      (hidx : cursor.stateIdx = job.cursor.stateIdx + 1)
      (hc : job.node.commands[job.cursor.stateIdx]? = some c) :
      Moves s (.count t) (s.completed t { job with cursor := cursor, arrived := rest } c)
  | finish {t job} (ht : s.threads t = .reading job)
      (hend : job.node.commands.length ≤ job.cursor.stateIdx)
      (hqueue : job.arrived.map Prod.fst ++ job.expected = []) :
      Moves s (.finish t) (s.finished t job)
  | getResponse {state} (hleft : (s.heap state).numLeft ≤ 0) : Moves s (.getResponse state) s

theorem Local.ok_reading (hs : s.Local) {t : ℕ × ℕ} {job : Job} (ht : s.threads t = .reading job) :
    ∃ todo, job.Ok todo := by
  have hthread := hs.threads t
  rwa [ht] at hthread

theorem Local.ok_counting (hs : s.Local) {t : ℕ × ℕ} {job : Job} {d : Delivery}
    (ht : s.threads t = .counting job d) : ∃ todo c f rest, job.Ok todo ∧
      job.arrived = (c, f) :: rest ∧ d = job.delivery c f := by
  have hthread := hs.threads t
  rwa [ht] at hthread

theorem Local.moves_append (hs : s.Local) {t : ℕ × ℕ} (h : s.append t = some s') :
    s.Moves (.append t) s' := by
  rw [Pipeline.append] at h
  split at h
  · next job ht =>
    split_ifs at h with hmore
    obtain ⟨todo, hok⟩ := hs.ok_reading ht
    obtain ⟨c, f, rest, harr⟩ := hok.exists_head hmore
    obtain ⟨⟨k, todo', rfl⟩, hat⟩ := hok.head harr
    have hdeliver : job.cursor.deliver job.node.states = .ok (job.delivery c f) :=
      hat.deliver (Cursor.Owes.head hok.owes).1
    rw [hdeliver, harr] at h
    obtain rfl := Option.some.inj h
    exact .append ht hok harr
  · cases h

theorem Local.moves_count (hs : s.Local) {t : ℕ × ℕ} (h : s.count t = some s') :
    s.Moves (.count t) s' := by
  rw [Pipeline.count] at h
  split at h
  · next job d ht =>
    obtain ⟨todo, c, f, rest, hok, harr, rfl⟩ := hs.ok_counting ht
    obtain ⟨⟨k, todo', rfl⟩, -⟩ := hok.head harr
    obtain ⟨cursor, hcount, hidx, hok'⟩ := hok.counted harr
    rw [Job.delivery, hcount, harr] at h
    by_cases hk : k = 0
    · rw [if_pos hk] at hidx hok'
      simp only [hk, decide_true, if_true] at h
      obtain rfl := Option.some.inj h
      apply Moves.complete ht harr hok' hidx
      have hhead := congrArg (fun l : List Command ↦ l[0]?) hok.rest
      simp only [List.getElem?_drop, Nat.add_zero] at hhead
      exact hhead.symm
    · rw [if_neg hk] at hidx hok'
      simp only [hk, decide_false, Bool.false_eq_true, if_false] at h
      obtain rfl := Option.some.inj h
      exact .count ht harr hok' hidx
  · cases h

/-- **What a step can do.** -/
theorem Local.moves (hs : s.Local) (h : s.step a = some s') (ha : s.Orderly a) : s.Moves a s' := by
  rcases a with ⟨server, bytes, n, state⟩ | c | t | ⟨t, frames, header⟩ | t | t | t | state
  · obtain rfl := Option.some.inj h
    exact .increment ha
  · rw [step, enqueue] at h
    split_ifs at h with hc
    exact Option.some.inj h ▸ .enqueue hc
  · rw [step, take] at h
    split at h
    · next n ht hn => exact Option.some.inj h ▸ .take ht hn
    · cases h
  · rw [step, Pipeline.read] at h
    split at h
    · next job ht =>
      obtain ⟨todo, hok⟩ := hs.ok_reading ht
      split_ifs at h with hcond
      rw [Bool.and_eq_true, Bool.not_eq_true'] at hcond
      obtain ⟨-, hframes, hlen, hle⟩ := ha
      have hok' := hok.read hcond.1 hframes hlen (hle job ht) header
      refine Option.some.inj h ▸ .read ht hok' rfl rfl ?_
      rw [hok'.queue, hok.queue]
    · cases h
  · exact hs.moves_append h
  · exact hs.moves_count h
  · rw [step, finish] at h
    split at h
    · next job ht =>
      obtain ⟨todo, hok⟩ := hs.ok_reading ht
      split_ifs at h with hcond
      rw [Bool.and_eq_true, decide_eq_true_iff] at hcond
      have hend : job.node.commands.length ≤ job.cursor.stateIdx := by
        have hle := hcond.2
        rwa [hok.joins.states, List.length_map] at hle
      -- behind the last command nothing is to do, so no frame is outstanding
      have htodo : todo = [] := by
        have hrest := hok.rest
        rwa [List.drop_eq_nil_of_le hend, List.map_eq_nil_iff] at hrest
      have hqueue := hok.queue
      rw [htodo, List.flatMap_nil] at hqueue
      exact Option.some.inj h ▸ .finish ht hend hqueue
    · cases h
  · rw [step, getResponse] at h
    split_ifs at h with hleft
    exact Option.some.inj h ▸ .getResponse (not_lt.mp hleft)

theorem local_init : Local {} where
  instructions := by simp
  calling := by simp
  nodes := by simp
  threads _ := trivial

/-- A thread is moved to where it is right. -/
theorem Local.ok_goto (hs : s.Local) {t : ℕ × ℕ} {pc : ThreadPc} (hpc : pc.Ok) (t' : ℕ × ℕ) :
    ((s.goto t pc).threads t').Ok := by
  rw [threads_goto]
  split_ifs
  · exact hpc
  · exact hs.threads t'

/-- A step that moves one thread to where it is right, and nothing else of what `Local` is about. -/
theorem Local.goto (hs : s.Local) {t : ℕ × ℕ} (pc : ThreadPc) (hpc : pc.Ok)
    (hbegun : s'.begun = s.begun) (hcalling : s'.calling = s.calling) (hnodes : s'.nodes = s.nodes)
    (hthreads : s'.threads = (s.goto t pc).threads) : s'.Local where
  instructions := hbegun ▸ hs.instructions
  calling := by
    rw [hbegun, hcalling]
    exact hs.calling
  nodes := by
    rw [hbegun, hnodes]
    exact hs.nodes
  threads t' := hthreads ▸ hs.ok_goto hpc t'

/-- The node that a command is appended to. -/
theorem Local.joins_append (hs : s.Local) {c : Command} (hc : c ∈ s.calling) :
    (((s.nodes c.server).getD {}).append c).Joins ∧
      ∀ c' ∈ (((s.nodes c.server).getD {}).append c).commands, c' ∈ s.begun := by
  have hnode : ((s.nodes c.server).getD {}).Joins ∧
      ∀ c' ∈ ((s.nodes c.server).getD {}).commands, c' ∈ s.begun := by
    rcases hold : s.nodes c.server with _ | n
    · exact ⟨RequestNode.joins_empty, by simp⟩
    · exact hs.nodes _ n hold
  refine ⟨hnode.1.append c, fun c' hc' ↦ ?_⟩
  rcases List.mem_append.mp hc' with hc' | hc'
  · exact hnode.2 c' hc'
  · exact List.mem_singleton.mp hc' ▸ hs.calling c hc

/-- **One step keeps every node and every thread right.** -/
theorem Local.step (hs : s.Local) (h : s.Moves a s') : s'.Local := by
  cases h with
  | increment hpos =>
    refine ⟨fun c hc ↦ ?_, fun c hc ↦ ?_, fun v n hn ↦ ?_, hs.threads⟩
    · rcases List.mem_append.mp hc with hc | hc
      · exact hs.instructions c hc
      · exact List.mem_singleton.mp hc ▸ hpos
    · rcases List.mem_cons.mp hc with rfl | hc
      · exact List.mem_append_right _ List.mem_cons_self
      · exact List.mem_append_left _ (hs.calling c hc)
    · obtain ⟨hjoins, hmem⟩ := hs.nodes v n hn
      exact ⟨hjoins, fun c hc ↦ List.mem_append_left _ (hmem c hc)⟩
  | @enqueue c hc =>
    refine ⟨hs.instructions, fun c' hc' ↦ hs.calling c' (List.mem_of_mem_erase hc'),
      fun v n hn ↦ ?_, hs.threads⟩
    rw [nodes_enqueued] at hn
    split_ifs at hn
    · exact Option.some.inj hn ▸ hs.joins_append hc
    · exact hs.nodes v n hn
  | @take t n _ hn =>
    obtain ⟨hjoins, hmem⟩ := hs.nodes _ n hn
    refine ⟨hs.instructions, hs.calling, fun v n' hn' ↦ ?_, hs.ok_goto ⟨_, .start hjoins ?_⟩⟩
    · rw [nodes_taken] at hn'
      split_ifs at hn'
      exact hs.nodes v n' hn'
    · exact fun c hc ↦ hs.instructions c (hmem c hc)
  | read _ hok _ _ _ => exact hs.goto (.reading _) ⟨_, hok⟩ rfl rfl rfl rfl
  | append _ hok harr => exact hs.goto (.counting _ _) ⟨_, _, _, _, hok, harr, rfl⟩ rfl rfl rfl rfl
  | count _ _ hok _ => exact hs.goto (.reading _) ⟨_, hok⟩ rfl rfl rfl rfl
  | complete _ _ hok _ _ => exact hs.goto (.reading _) ⟨_, hok⟩ rfl rfl rfl rfl
  | finish _ _ _ => exact hs.goto .waiting trivial rfl rfl rfl rfl
  | getResponse _ => exact hs

end Pipeline

end MemcacheRouter.Routerlib
