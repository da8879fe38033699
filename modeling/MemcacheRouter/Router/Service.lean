import MemcacheRouter.Router.Conservation
import MemcacheRouter.Router.Sequential

/-!
# The router at work

The router without a cache, with everything that its workers do to memcached. What is one step of a
worker in `Router` takes many steps here: one for each item of a SET or INCREMENT packet, one for
the request for the keys of all GET packets of a batch, and one for each key, in any order. The
steps of all workers, of the main loop and of the clock interleave. An aborted process takes no
step.

There is one memcached. Every server list names the same server first, and `MemClient::Init` uses no
other.

Every run of it is a run of the router, with the results that the operations had (`router_run`).

The operations on memcached are recorded in the order in which they happen, and for every message
on `router_` how many of them there were when it was received.
-/

open Transition

namespace MemcacheRouter

/-! ## State -/

/-- What is done to memcached. -/
inductive Operation where
  | read (k : Bytes)
  | put (item : KeyValue)
  | count (item : KeyValue)
  | tick (seconds : ℕ)
  deriving DecidableEq

/-- Memcached after an operation. -/
def Store.perform (s : Store) : Operation → Store
  | .read _ => s
  | .put item => (s.put item).1
  | .count item => (s.count item).1
  | .tick n => s.tick n

namespace Packet

variable (p : Packet)

/-- The items that a worker takes one by one. -/
def items : List KeyValue :=
  match p.getType with
  | .ok .set => p.instruction.setKeys
  | .ok .increment => p.instruction.incrKeys
  | _ => []

/-- What an item makes the worker do to memcached. -/
def operation (item : KeyValue) : List Operation :=
  match p.getType with
  | .ok .set => if item.noPropagate then [] else [.put item]
  | .ok .increment => [.count item]
  | _ => []

/-- What the first `n` items make it do. -/
def operations (n : ℕ) : List Operation := (p.items.take n).flatMap p.operation

end Packet

/-- How far a worker has got with what it has at hand: the items that it is done with, with their
results, and the request of `GetKeys`, with the keys that were not read yet and the map. -/
structure Progress where
  items : List KeyValue := []
  request : Option (List Bytes × KeyMap) := none

/-- The router, memcached and how far every worker has got. -/
structure Service where
  router : Router := {}
  memc : Store := {}
  progress : ℕ → Progress := fun _ ↦ {}
  history : List Operation := []
  /-- The length of the history when the messages on `router_` were received. -/
  receivedAt : List ℕ := []

/-- A step of anything but a worker, the next step of a worker, or the passage of time. -/
inductive ServiceAction where
  | main (a : RouterAction)
  | item (i : ℕ)
  | request (i : ℕ)
  | read (i : ℕ) (k : Bytes)
  | go (i : ℕ)
  | tick (seconds : ℕ)

/-! ## Steps -/

namespace Service

variable (lib : Libmemcached) (codec : Codec) (numThreads : ℕ) (s : Service)

def setProgress (i : ℕ) (p : Progress) : Service :=
  { s with progress := Function.update s.progress i p }

/-- Something other than a worker takes a step. -/
def mainStep : RouterAction → Option Service
  | .worker _ _ => none
  | .receive message => (s.router.step codec numThreads (.receive message)).map fun r ↦ { s with
      router := r, receivedAt := s.receivedAt ++ [s.history.length] }
  | a => (s.router.step codec numThreads a).map fun r ↦ { s with router := r }

/-- One turn of the loop of `SetKeys` or `IncrKeys`. -/
def turn (p : Packet) (item : KeyValue) : Option (Store × KeyValue) :=
  match p.getType with
  | .ok .set => (setKey lib ⟨none, s.memc⟩ item).toOption.map fun x ↦ (x.1.memc, x.2)
  | .ok .increment =>
    some ((incrKey lib ⟨none, s.memc⟩ item).1.memc, (incrKey lib ⟨none, s.memc⟩ item).2)
  | _ => none

/-- Worker `i` takes the next item of its packet. -/
def itemStep (i : ℕ) : Option Service :=
  match s.router.workers[i]? with
  | some (.processing (j :: _) _) => do
    let item ← j.packet.items[(s.progress i).items.length]?
    let (memc, item') ← s.turn lib j.packet item
    return { s.setProgress i { s.progress i with items := (s.progress i).items ++ [item'] } with
      memc := memc, history := s.history ++ j.packet.operation item }
  | _ => none

/-- Worker `i` requests the keys of the packets it has put aside. -/
def requestStep (i : ℕ) : Option Service :=
  match s.router.workers[i]?, (s.progress i).request with
  | some (.processing [] (j :: gets)), none => do
    let (_, map, keys) ←
      (lookupKeys lib (keysOf ((j :: gets).map Job.packet)) ⟨none, s.memc⟩).toOption
    guard (mgetReturn keys = .success)
    return s.setProgress i { s.progress i with request := some (keys, map) }
  | _, _ => none

/-- Memcached looks a key up, and a turn of the loop over `memcached_fetch_result` takes the
result. -/
def readKey (map : KeyMap) (k : Bytes) : Option KeyMap :=
  match s.memc.lookup k with
  | none => some map
  | some it => (fillKey lib ⟨none, s.memc⟩ map (k, it)).toOption.map Prod.snd

/-- A key that worker `i` has requested is read. -/
def readStep (i : ℕ) (k : Bytes) : Option Service :=
  match s.router.workers[i]?, (s.progress i).request with
  | some (.processing [] (_ :: _)), some (keys, map) =>
    if k ∈ keys then (s.readKey lib map k).map fun map' ↦
      { s.setProgress i { s.progress i with request := some (keys.erase k, map') } with
        history := s.history ++ [.read k] }
    else none
  | _, _ => none

/-- The instruction with which worker `i` goes on, when it has done what it has to do for that. -/
def ready (i : ℕ) : Option Instruction :=
  match s.router.workers[i]? with
  | some (.processing (j :: _) _) =>
    if (s.progress i).items.length = j.packet.items.length then
      -- only the reply to an INCREMENT is made of it
      some { j.packet.instruction with incrKeys := (s.progress i).items }
    else none
  | some (.processing [] (j :: _)) =>
    match (s.progress i).request with
    | some ([], map) => (mergePacket map j.packet).toOption.map Packet.instruction
    | _ => none
  | _ => some {}

/-- What is left of the progress of worker `i` when it goes on. The map is that of the whole
batch. -/
def left (i : ℕ) : Progress :=
  match s.router.workers[i]? with
  | some (.processing [] (_ :: _)) => s.progress i
  | _ => {}

/-- Worker `i` goes on. -/
def goStep (i : ℕ) : Option Service := do
  let result ← s.ready i
  let r ← s.router.step codec numThreads (.worker i result)
  return { s.setProgress i (s.left i) with router := r }

/-- One step. -/
def step (s : Service) : ServiceAction → Option Service
  | .main a => s.mainStep codec numThreads a
  | .item i => s.itemStep lib i
  | .request i => s.requestStep lib i
  | .read i k => s.readStep lib i k
  | .go i => s.goStep codec numThreads i
  | .tick n => some { s with memc := s.memc.tick n, history := s.history ++ [.tick n] }

end Service

/-- If it is a server list, it names this server first. -/
def Packet.ListsFirst (server : Server) (p : Packet) : Prop :=
  p.getType = .ok .serverList → p.instruction.servers.head? = some server

/-- Every message has the form that clients send, and every server list names this server first. -/
def ServiceAction.WellFormed (codec : Codec) (server : Server) : ServiceAction → Prop
  | .main a => a.WellFormed ∧
      ∀ message, a = .receive message → (receiveOnePacket codec true message).ListsFirst server
  | _ => True

/-! ## What a step can do -/

namespace Service

/-- What a step can do. -/
inductive Moves (lib : Libmemcached) (codec : Codec) (numThreads : ℕ) (s : Service) :
    ServiceAction → Service → Prop
  | receive {message r} (h : s.router.step codec numThreads (.receive message) = some r) :
      Moves lib codec numThreads s (.main (.receive message))
        { s with router := r, receivedAt := s.receivedAt ++ [s.history.length] }
  | main {a r} (h : s.router.step codec numThreads a = some r)
      (hreceive : ∀ message, a ≠ .receive message) (hworker : ∀ i result, a ≠ .worker i result) :
      Moves lib codec numThreads s (.main a) { s with router := r }
  | item {i j todo gets item memc item'}
      (hi : s.router.workers[i]? = some (.processing (j :: todo) gets))
      (hitem : j.packet.items[(s.progress i).items.length]? = some item)
      (h : s.turn lib j.packet item = some (memc, item')) :
      Moves lib codec numThreads s (.item i)
        { s.setProgress i { s.progress i with items := (s.progress i).items ++ [item'] } with
          memc := memc, history := s.history ++ j.packet.operation item }
  | request {i gets} (hi : s.router.workers[i]? = some (.processing [] gets))
      (hnone : (s.progress i).request = none) :
      Moves lib codec numThreads s (.request i) (s.setProgress i { s.progress i with
        request := some ((keysOf (gets.map Job.packet)).map fun e ↦ lib.copyKey e.1,
          keysOf (gets.map Job.packet)) })
  | read {i gets keys map map' k} (hi : s.router.workers[i]? = some (.processing [] gets))
      (hrequest : (s.progress i).request = some (keys, map)) (hk : k ∈ keys)
      (h : s.readKey lib map k = some map') :
      Moves lib codec numThreads s (.read i k)
        { s.setProgress i { s.progress i with request := some (keys.erase k, map') } with
          history := s.history ++ [.read k] }
  | go {i result r} (hready : s.ready i = some result)
      (h : s.router.step codec numThreads (.worker i result) = some r) :
      Moves lib codec numThreads s (.go i) { s.setProgress i (s.left i) with router := r }
  | tick {n} : Moves lib codec numThreads s (.tick n)
      { s with memc := s.memc.tick n, history := s.history ++ [.tick n] }

variable {lib : Libmemcached} {codec : Codec} {numThreads : ℕ} {s s' : Service}
  {a : ServiceAction}

theorem moves_of_mainStep {a : RouterAction} (h : s.mainStep codec numThreads a = some s') :
    s.Moves lib codec numThreads (.main a) s' := by
  cases a
  case worker => cases h
  all_goals obtain ⟨r, hr, rfl⟩ := Option.map_eq_some_iff.mp h
  case receive => exact .receive hr
  all_goals exact .main hr (by simp) (by simp)

theorem moves_of_itemStep {i : ℕ} (h : s.itemStep lib i = some s') :
    s.Moves lib codec numThreads (.item i) s' := by
  rw [itemStep] at h
  split at h
  · next hi =>
    obtain ⟨item, hitem, h⟩ := Option.bind_eq_some_iff.mp h
    obtain ⟨⟨memc, item'⟩, hturn, h⟩ := Option.bind_eq_some_iff.mp h
    obtain rfl := Option.some.inj h
    exact .item hi hitem hturn
  · cases h

theorem moves_of_requestStep {i : ℕ} (h : s.requestStep lib i = some s') :
    s.Moves lib codec numThreads (.request i) s' := by
  rw [requestStep] at h
  split at h
  · next hi hnone =>
    rw [lookupKeys_of_cache_eq_none rfl] at h
    obtain ⟨_, hkeys, h⟩ := Option.bind_eq_some_iff.mp h
    obtain rfl := Option.some.inj hkeys
    obtain ⟨_, -, h⟩ := Option.bind_eq_some_iff.mp h
    obtain rfl := Option.some.inj h
    exact .request hi hnone
  · cases h

theorem moves_of_readStep {i : ℕ} {k : Bytes} (h : s.readStep lib i k = some s') :
    s.Moves lib codec numThreads (.read i k) s' := by
  rw [readStep] at h
  split at h
  · next hi hrequest =>
    split_ifs at h with hk
    obtain ⟨map', hread, rfl⟩ := Option.map_eq_some_iff.mp h
    exact .read hi hrequest hk hread
  · cases h

theorem moves_of_goStep {i : ℕ} (h : s.goStep codec numThreads i = some s') :
    s.Moves lib codec numThreads (.go i) s' := by
  obtain ⟨result, hready, h⟩ := Option.bind_eq_some_iff.mp h
  obtain ⟨r, hr, h⟩ := Option.bind_eq_some_iff.mp h
  obtain rfl := Option.some.inj h
  exact .go hready hr

/-- **Inversion of a step.** -/
theorem moves_of_step (h : s.step lib codec numThreads a = some s') :
    s.Moves lib codec numThreads a s' := by
  cases a with
  | main a => exact moves_of_mainStep h
  | item i => exact moves_of_itemStep h
  | request i => exact moves_of_requestStep h
  | read i k => exact moves_of_readStep h
  | go i => exact moves_of_goStep h
  | tick n =>
    obtain rfl := Option.some.inj h
    exact .tick

/-! ## The router in it -/

/-- **A step is a step of the router**, or the router does not see it. -/
theorem router_of_moves {server : Server} (h : s.Moves lib codec numThreads a s')
    (hwf : a.WellFormed codec server) :
    s'.router = s.router ∨
      ∃ b : RouterAction, b.WellFormed ∧ s.router.step codec numThreads b = some s'.router := by
  cases h with
  | @receive message _ h => exact Or.inr ⟨.receive message, hwf.1, h⟩
  | main h _ _ => exact Or.inr ⟨_, hwf.1, h⟩
  | @go i result _ _ h => exact Or.inr ⟨.worker i result, trivial, h⟩
  | item _ _ _ | request _ _ | read _ _ _ _ | tick => exact Or.inl rfl

end Service

/-- The runs of the router at work, from this memcached. -/
def ServiceRun (lib : Libmemcached) (codec : Codec) (numThreads : ℕ) (server : Server)
    (memc : Store) (as : List ServiceAction) (s : Service) : Prop :=
  Run (Guarded (StepOf (Service.step lib codec numThreads)) fun _ a ↦ a.WellFormed codec server)
    { memc := memc } as s

/-- **The router at work is a router.** -/
theorem ServiceRun.router_run {lib : Libmemcached} {codec : Codec} {numThreads : ℕ}
    {server : Server} {memc : Store} {as : List ServiceAction} {s : Service}
    (h : ServiceRun lib codec numThreads server memc as s) :
    ∃ bs, RouterRun codec numThreads bs s.router := by
  have hinit : ∃ bs, RouterRun codec numThreads bs ({ memc := memc } : Service).router :=
    ⟨[], Run.nil _⟩
  refine h.invariant (I := fun s ↦ ∃ bs, RouterRun codec numThreads bs s.router) hinit ?_
  rintro s a s' ⟨bs, hbs⟩ ⟨hstep, hwf⟩
  rcases Service.router_of_moves (Service.moves_of_step hstep) hwf with heq | ⟨b, hb, hrouter⟩
  · exact ⟨bs, by rwa [heq]⟩
  · exact ⟨bs ++ [b], hbs.snoc ⟨hrouter, hb⟩⟩

end MemcacheRouter
