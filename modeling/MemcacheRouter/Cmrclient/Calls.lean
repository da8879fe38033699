import MemcacheRouter.Foundations.Transition
import MemcacheRouter.Memcached.Store
import MemcacheRouter.Router.Loop

/-!
# The calls of the client library

What the methods of the Python client's `Client` put on its two sockets, and what the router makes
of it. Whatever is sent on `async_socket_` has one key to set. Of what is sent on `req_socket_` only
two messages can be empty: the one of `get_multi` without keys, and the one of `send_host_list`
without hosts. The router does not know what to do with an empty instruction, and aborts.

The methods block until the router has answered, and what they return depends on the answer; what
they send does not. A method that fails, because a value has no representation, has sent nothing,
and it takes the process down: there is no step for it.
-/

open Transition

namespace MemcacheRouter

/-! ## Values -/

/-- A Python object, as `PrepareValue` tells them apart. Objects that are neither strings nor
numbers are known by their address. -/
inductive PyValue where
  | str (s : Bytes)
  | bool (b : Bool)
  | int (n : ℤ)
  | long (n : ℤ)
  | other (address : ℕ)
  deriving DecidableEq, Repr

/-- The functions of `cPickle` and `zlib` that the client calls; they can raise an exception. -/
structure PyModules where
  dumps : ℕ → Option Bytes
  compress : Bytes → Option Bytes

/-- `PyObject_Str` of a number. -/
def pyObjectStr (n : ℤ) : Bytes := (if n < 0 then [45] else []) ++ decimal n.natAbs

def flagPickle : UInt32 := (1 : UInt32) <<< 0
def flagInteger : UInt32 := (1 : UInt32) <<< 1
def flagLong : UInt32 := (1 : UInt32) <<< 2
def flagCompressed : UInt32 := (1 : UInt32) <<< 3
def flagBool : UInt32 := (1 : UInt32) <<< 4

/-- `Client::WriteToKV`. -/
def writeToKV (str : Bytes) (flags : UInt32) (kv : KeyValue) : KeyValue :=
  { kv with val? := some str, flags? := some flags }

/-- `Client::PrepareValue`. It goes on with a null pointer when a call has raised an exception. -/
def prepareValue (py : PyModules) (val : PyValue) (kv : KeyValue) : Option KeyValue := do
  let (rep, flags, canCompress) ← match val with
    | .str s => some (s, 0, true)
    | .bool b => some (if b then [49] else [48], flagBool, false)
    | .int n => some (pyObjectStr n, flagInteger, false)
    | .long n => some (pyObjectStr n, flagLong, false)
    | .other address => (py.dumps address).map fun s ↦ (s, flagPickle, true)
  if canCompress && 3072 < rep.length then
    let final ← py.compress rep
    return writeToKV final (flags ||| flagCompressed) kv
  else return writeToKV rep flags kv

/-! ## Methods -/

/-- `class Client`, with the instructions that it has serialised and sent on its sockets. -/
structure Client where
  hostList : Instruction := {}
  reqSent : List Instruction := []
  asyncSent : List Instruction := []

namespace Client

variable (c : Client)

/-- An instruction is sent on `req_socket_`. -/
def request (i : Instruction) : Client := { c with reqSent := c.reqSent ++ [i] }

/-- An instruction is sent on `async_socket_`. -/
def push (i : Instruction) : Client := { c with asyncSent := c.asyncSent ++ [i] }

/-- `Client::reset_hosts`. -/
def resetHosts : Client := { c with hostList := {} }

/-- `Client::add_host`. -/
def addHost (hostname : Bytes) (port : Int32) : Client :=
  { c with hostList := { c.hostList with servers := c.hostList.servers ++ [⟨hostname, port⟩] } }

/-- `Client::send_host_list`. -/
def sendHostList : Client := c.request c.hostList

/-- `Client::GetInternal`. -/
def getInternal (keys : List Bytes) : Client :=
  c.request { getKeys := keys.map fun k ↦ { key? := some k } }

/-- `Client::get`. -/
def get (key : Bytes) : Client := c.getInternal [key]

/-- `Client::gets`. -/
def gets (key : Bytes) : Client := c.getInternal [key]

/-- `Client::get_multi`. -/
def getMulti (keys : List Bytes) : Client := c.getInternal keys

/-- `Client::SetInternal`. -/
def setInternal (py : PyModules) (key : Bytes) (val : PyValue) (time cas : ℕ) (replace : Bool) :
    Option Client := do
  let kv ← prepareValue py val { key? := some key }
  return c.push { setKeys := [{ kv with
    cas? := some cas, expireInSeconds? := some time, allowReplace? := some replace }] }

/-- `Client::set`. -/
def set (py : PyModules) (key : Bytes) (val : PyValue) (time : ℕ) : Option Client :=
  c.setInternal py key val time 0 true

/-- `Client::add`. -/
def add (py : PyModules) (key : Bytes) (val : PyValue) (time : ℕ) : Option Client :=
  c.setInternal py key val time 0 false

/-- `Client::cas`. -/
def cas (py : PyModules) (key : Bytes) (val : PyValue) (cas time : ℕ) : Option Client :=
  c.setInternal py key val time cas true

/-- `Client::incr`. -/
def incr (key : Bytes) (offset : Int32) : Client :=
  c.request { incrKeys := [{ key? := some key, offset? := some offset }] }

/-- `Client::decr`. -/
def decr (key : Bytes) (offset : Int32) : Client := c.incr key (0 - offset)

end Client

/-- A call of a public method. -/
inductive ClientCall where
  | resetHosts
  | addHost (hostname : Bytes) (port : Int32)
  | sendHostList
  | get (key : Bytes)
  | gets (key : Bytes)
  | getMulti (keys : List Bytes)
  | set (key : Bytes) (val : PyValue) (time : ℕ)
  | add (key : Bytes) (val : PyValue) (time : ℕ)
  | cas (key : Bytes) (val : PyValue) (cas time : ℕ)
  | setInternal (key : Bytes) (val : PyValue) (time cas : ℕ) (replace : Bool)
  | incr (key : Bytes) (offset : Int32)
  | decr (key : Bytes) (offset : Int32)
  deriving DecidableEq, Repr

namespace Client

/-- A call that returns. -/
def step (py : PyModules) (c : Client) : ClientCall → Option Client
  | .resetHosts => some c.resetHosts
  | .addHost hostname port => some (c.addHost hostname port)
  | .sendHostList => some c.sendHostList
  | .get key => some (c.get key)
  | .gets key => some (c.gets key)
  | .getMulti keys => some (c.getMulti keys)
  | .set key val time => c.set py key val time
  | .add key val time => c.add py key val time
  | .cas key val cas time => c.cas py key val cas time
  | .setInternal key val time cas replace => c.setInternal py key val time cas replace
  | .incr key offset => some (c.incr key offset)
  | .decr key offset => some (c.decr key offset)

/-! ## Messages -/

/-- What `router_` receives of a request: the REQ socket has put an empty frame in front of it, and
the ROUTER socket the identity of the sender. -/
def reqMessage (codec : Codec) (identity : Bytes) (i : Instruction) : List Bytes :=
  [identity, [], codec.serialize i]

/-- What `async_` receives. -/
def asyncMessage (codec : Codec) (i : Instruction) : List Bytes := [codec.serialize i]

/-- The router can dispatch whatever the client has sent. -/
structure Dispatchable (codec : Codec) (identity : Bytes) (c : Client) : Prop where
  req : ∀ i ∈ c.reqSent,
    ∃ type, (receiveOnePacket codec true (reqMessage codec identity i)).getType = .ok type
  async : ∀ i ∈ c.asyncSent,
    (receiveOnePacket codec false (asyncMessage codec i)).getType = .ok .set

/-- What the client has sent is parsed as it was serialised. -/
def RoundTrips (codec : Codec) (c : Client) : Prop :=
  ∀ i ∈ c.reqSent ++ c.asyncSent, codec.parse (codec.serialize i) = i

instance (codec : Codec) (c : Client) : Decidable (c.RoundTrips codec) :=
  inferInstanceAs (Decidable (∀ i ∈ c.reqSent ++ c.asyncSent, _))

/-- A call that asks for something: the list of keys is not empty, and neither is the list of hosts
when it is sent. -/
def Asks (c : Client) : ClientCall → Prop
  | .getMulti keys => keys ≠ []
  | .sendHostList => c.hostList.servers ≠ []
  | _ => True

instance (c : Client) (call : ClientCall) : Decidable (c.Asks call) :=
  match call with
  | .getMulti keys => inferInstanceAs (Decidable (keys ≠ []))
  | .sendHostList => inferInstanceAs (Decidable (c.hostList.servers ≠ []))
  | .resetHosts | .addHost _ _ | .get _ | .gets _ | .set _ _ _ | .add _ _ _ | .cas _ _ _ _
  | .setInternal _ _ _ _ _ | .incr _ _ | .decr _ _ => .isTrue trivial

variable {codec : Codec} {identity : Bytes} {py : PyModules} {c c' : Client} {call : ClientCall}
  {calls : List ClientCall}

theorem receiveOnePacket_reqMessage (hid : identity ≠ []) (i : Instruction) :
    receiveOnePacket codec true (reqMessage codec identity i)
      = ⟨[identity], codec.parse (codec.serialize i)⟩ := by
  simp [receiveOnePacket, reqMessage, receiveFrames, hid]

theorem receiveOnePacket_asyncMessage (i : Instruction) :
    receiveOnePacket codec false (asyncMessage codec i)
      = ⟨[], codec.parse (codec.serialize i)⟩ := rfl

/-- The router can dispatch what is not empty and, on `async_`, asks for a key to be set. -/
theorem dispatchable_iff (hid : identity ≠ []) (hcodec : c.RoundTrips codec) :
    c.Dispatchable codec identity ↔ (∀ i ∈ c.reqSent, i ≠ {}) ∧
      ∀ i ∈ c.asyncSent, i.getKeys = [] ∧ i.setKeys ≠ [] := by
  have hreq : ∀ i ∈ c.reqSent, (∃ type,
      (receiveOnePacket codec true (reqMessage codec identity i)).getType = .ok type) ↔ i ≠ {} := by
    intro i hi
    rw [Packet.exists_getType_iff, receiveOnePacket_reqMessage hid,
      hcodec i (List.mem_append_left _ hi)]
  have hasync : ∀ i ∈ c.asyncSent,
      (receiveOnePacket codec false (asyncMessage codec i)).getType = .ok .set ↔
        i.getKeys = [] ∧ i.setKeys ≠ [] := by
    intro i hi
    rw [← Packet.isSet_iff, receiveOnePacket_asyncMessage, hcodec i (List.mem_append_right _ hi),
      Packet.isSet, Bool.and_eq_true, decide_eq_true_iff, decide_eq_true_iff]
  constructor
  · intro h
    exact ⟨fun i hi ↦ (hreq i hi).mp (h.req i hi), fun i hi ↦ (hasync i hi).mp (h.async i hi)⟩
  · rintro ⟨h, h'⟩
    exact ⟨fun i hi ↦ (hreq i hi).mpr (h i hi), fun i hi ↦ (hasync i hi).mpr (h' i hi)⟩

/-! ## What is sent -/

/-- The host list has nothing but hosts, and what was sent on `async_socket_` sets keys. -/
structure Plain (c : Client) : Prop where
  hostList : c.hostList = { servers := c.hostList.servers }
  async : ∀ i ∈ c.asyncSent, i.getKeys = [] ∧ i.setKeys ≠ []

/-- What a call can do. It changes the host list, or it sends one instruction, which is empty if the
call does not ask for anything. -/
inductive Moves (c : Client) (call : ClientCall) : Client → Prop
  | hosts (servers : List Server) (hasks : c.Asks call) :
      Moves c call { c with hostList := { servers := servers } }
  | request (i : Instruction) (hasks : i ≠ {} ↔ c.Asks call) : Moves c call (c.request i)
  | push (i : Instruction) (hget : i.getKeys = []) (hset : i.setKeys ≠ []) (hasks : c.Asks call) :
      Moves c call (c.push i)

theorem moves_getInternal (keys : List Bytes) (hasks : c.Asks call ↔ keys ≠ []) :
    c.Moves call (c.getInternal keys) := by
  apply Moves.request
  rw [hasks, not_iff_not, Instruction.mk.injEq]
  simp

theorem moves_setInternal {key : Bytes} {val : PyValue} {time cas : ℕ} {replace : Bool}
    (h : c.setInternal py key val time cas replace = some c') (hasks : c.Asks call) :
    c.Moves call c' := by
  obtain ⟨kv, -, hkv⟩ := Option.bind_eq_some_iff.mp h
  obtain rfl := Option.some.inj hkv
  exact .push _ rfl (List.cons_ne_nil _ _) hasks

theorem moves_incr (key : Bytes) (offset : Int32) (hasks : c.Asks call) :
    c.Moves call (c.incr key offset) := by
  refine .request _ (iff_of_true ?_ hasks)
  rw [ne_eq, Instruction.mk.injEq]
  simp

/-- **What a call can do.** -/
theorem Plain.moves (hc : c.Plain) (h : c.step py call = some c') : c.Moves call c' := by
  cases call with
  | resetHosts => exact Option.some.inj h ▸ .hosts [] trivial
  | addHost hostname port =>
    obtain rfl := Option.some.inj h
    rw [addHost, hc.hostList]
    exact .hosts _ trivial
  | sendHostList =>
    obtain rfl := Option.some.inj h
    apply Moves.request
    rw [Asks, hc.hostList, not_iff_not, Instruction.mk.injEq]
    simp
  | get key => exact Option.some.inj h ▸ moves_getInternal [key] (by simp [Asks])
  | gets key => exact Option.some.inj h ▸ moves_getInternal [key] (by simp [Asks])
  | getMulti keys => exact Option.some.inj h ▸ moves_getInternal keys Iff.rfl
  | set key val time => exact moves_setInternal h trivial
  | add key val time => exact moves_setInternal h trivial
  | cas key val cas time => exact moves_setInternal h trivial
  | setInternal key val time cas replace => exact moves_setInternal h trivial
  | incr key offset => exact Option.some.inj h ▸ moves_incr key offset trivial
  | decr key offset => exact Option.some.inj h ▸ moves_incr key (0 - offset) trivial

theorem plain_init : Plain {} := ⟨rfl, by simp⟩

theorem Plain.step (hc : c.Plain) (h : c.Moves call c') : c'.Plain := by
  rcases h with ⟨servers, -⟩ | ⟨i, -⟩ | ⟨i, hget, hset, -⟩
  · exact ⟨rfl, hc.async⟩
  · exact ⟨hc.hostList, hc.async⟩
  · refine ⟨hc.hostList, fun i' hi' ↦ ?_⟩
    rcases List.mem_append.mp hi' with hi' | hi'
    · exact hc.async i' hi'
    · exact List.mem_singleton.mp hi' ▸ ⟨hget, hset⟩

theorem plain_of_run (hrun : Run (StepOf (step py)) {} calls c) : c.Plain :=
  hrun.invariant plain_init fun _ _ _ hc hstep ↦ hc.step (hc.moves hstep)

/-- One call sends no empty request exactly if it asks for something. -/
theorem Moves.reqSent_iff (h : c.Moves call c') : (∀ i ∈ c'.reqSent, i ≠ {}) ↔
    (∀ i ∈ c.reqSent, i ≠ {}) ∧ c.Asks call := by
  rcases h with ⟨servers, hasks⟩ | ⟨i, hasks⟩ | ⟨i, -, -, hasks⟩
  · exact (and_iff_left hasks).symm
  · rw [Client.request, List.forall_mem_append, List.forall_mem_singleton, hasks]
  · exact (and_iff_left hasks).symm

/-- No request is empty exactly if every call asks for something. -/
theorem reqSent_iff_of_run (hrun : Run (StepOf (step py)) {} calls c) :
    (∀ i ∈ c.reqSent, i ≠ {}) ↔ Run (Guarded (StepOf (step py)) Asks) {} calls c := by
  induction hrun with
  | nil => exact iff_of_true (by simp) (Run.nil _)
  | snoc hrun hstep ih =>
    rw [((plain_of_run hrun).moves hstep).reqSent_iff, ih,
      Run.guarded_concat_iff (functional_stepOf _) hrun hstep]

/-- **The router can dispatch whatever a client sends** exactly if every call asks for something:
`get_multi` for at least one key, and `send_host_list` for at least one host. -/
theorem dispatchable_iff_asks (py : PyModules) (codec : Codec) (identity : Bytes)
    (calls : List ClientCall) (c : Client) (hid : identity ≠ [])
    (hrun : Run (StepOf (step py)) {} calls c) (hcodec : c.RoundTrips codec) :
    c.Dispatchable codec identity ↔ Run (Guarded (StepOf (step py)) Asks) {} calls c := by
  rw [dispatchable_iff hid hcodec, and_iff_left (plain_of_run hrun).async]
  exact reqSent_iff_of_run hrun

/-- The messages of `setAndGet` and the empty one, as they are on the wire. -/
def wireCodec : Codec := .ofTable
  [([], {}),
    ([0x22, 6, 0x0a, 1, 97, 0x10, 0xcb, 0x57], { servers := [⟨[97], 11211⟩] }),
    ([0x12, 14, 0x0a, 1, 107, 0x12, 1, 118, 0x18, 0, 0x20, 0, 0x28, 0, 0x30, 1],
      { setKeys := [{
          key? := some [107], val? := some [118], flags? := some 0
          expireInSeconds? := some 0, cas? := some 0, allowReplace? := some true }] }),
    ([0x0a, 3, 0x0a, 1, 107], { getKeys := [{ key? := some [107] }] })]

/-- The host is announced, and a key is set and read. -/
def setAndGet : List ClientCall :=
  [.addHost [97] 11211, .sendHostList, .set [107] (.str [118]) 0, .get [107]]

theorem dispatchable_iff_asks_setAndGet : ∃ c : Client,
    Run (StepOf (step ⟨fun _ ↦ none, fun _ ↦ none⟩)) {} setAndGet c ∧ c.RoundTrips wireCodec ∧
      c.reqSent.length = 2 ∧ c.asyncSent.length = 1 ∧
      c.Dispatchable wireCodec [0, 1, 2, 3, 4] := by
  obtain ⟨c, hrun, hc⟩ := exists_run_of_execChecked
    (fun c call ↦ of_decide_eq_true (p := Asks c call))
    (show (execChecked (step ⟨fun _ ↦ none, fun _ ↦ none⟩) (fun c call ↦ decide (c.Asks call)) {}
      setAndGet).map (fun c ↦ (decide (c.RoundTrips wireCodec), c.reqSent.length,
        c.asyncSent.length)) = some (true, 2, 1) by decide)
  obtain ⟨hcodec, hreq, hasync⟩ := by simpa only [Prod.mk.injEq, decide_eq_true_iff] using hc
  exact ⟨c, hrun.of_guarded, hcodec, hreq, hasync, (dispatchable_iff_asks _ wireCodec
    [0, 1, 2, 3, 4] setAndGet c (by decide) hrun.of_guarded hcodec).mpr hrun⟩

/-- `get_multi` of no keys takes the router down. -/
theorem getMulti_nil_not_dispatchable : ∃ c : Client,
    Run (StepOf (step ⟨fun _ ↦ none, fun _ ↦ none⟩)) {} [.getMulti []] c ∧
      c.RoundTrips wireCodec ∧ c.reqSent.length = 1 ∧
      ¬c.Dispatchable wireCodec [0, 1, 2, 3, 4] := by
  refine ⟨getMulti {} [], Run.single rfl, by decide, rfl, fun h ↦ ?_⟩
  obtain ⟨type, htype⟩ := h.req {} List.mem_cons_self
  cases htype

end Client

end MemcacheRouter
