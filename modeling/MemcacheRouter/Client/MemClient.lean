import Mathlib.Data.List.Perm.Basic
import MemcacheRouter.Cache.WellFormed
import MemcacheRouter.Memcached.Store

/-!
# The memcached client of a worker

`MemClient::GetKeys`, `SetKeys` and `IncrKeys`, and the part of `MemcacheRouter::ProcessPackets`
that runs them over a batch of packets. A worker sees two stores: the cache it shares with the
other workers, if there is one, and memcached.

A GET runs in three phases: every key of the batch is looked up in the cache, the misses are copied
and requested from memcached in one go, and every result is stored in the map entry of its key and
in the cache. The copies are made by `strcpy`, so what follows a NUL in a key is lost and the bytes
after it are whatever the new buffer held. A request that libmemcached refuses aborts the process.
-/

namespace MemcacheRouter

/-- What libmemcached and the allocator contribute: the text of an error, what is left in a counter
after a failed operation, the order in which the results of a request arrive, and the contents of a
fresh buffer. -/
structure Libmemcached where
  strerror : ReturnCode → Bytes
  failedCounter : ReturnCode → ℕ
  fetchOrder : List (Bytes × Item) → List (Bytes × Item)
  fetchOrder_perm : ∀ results, (fetchOrder results).Perm results
  buffer : ℕ → Bytes
  length_buffer : ∀ n, (buffer n).length = n

/-- A library that returns results in the order of the request, over buffers of zeros. -/
def Libmemcached.inOrder : Libmemcached where
  strerror
    | .success => [83, 85, 67, 67, 69, 83, 83]
    | _ => [69, 82, 82, 79, 82]
  failedCounter _ := 0
  fetchOrder := id
  fetchOrder_perm _ := List.Perm.refl _
  buffer n := List.replicate n 0
  length_buffer _ := List.length_replicate

/-- The two stores of a worker. -/
structure Stores where
  cache : Option Cache
  memc : Store

/-- `map<string, KeyValue>`, in the order of its keys. -/
abbrev KeyMap := List (Bytes × KeyValue)

/-- `map::insert` of an empty message: a key that is present stays as it is. -/
def KeyMap.insert : KeyMap → Bytes → KeyMap
  | [], k => [(k, {})]
  | (j, kv) :: m, k =>
    if k < j then (k, {}) :: (j, kv) :: m
    else if k = j then (j, kv) :: m
    else (j, kv) :: KeyMap.insert m k

/-- Assign through the iterator that `find` returned. -/
def KeyMap.assign (m : KeyMap) (k : Bytes) (kv : KeyValue) : KeyMap :=
  m.map fun e ↦ if e.1 = k then (e.1, kv) else e

namespace Stores

/-- The entry a lookup of `k` in the cache would return. -/
def view (w : Stores) (k : Bytes) : Option Data := w.cache.bind fun c ↦ c.view k

/-- The cache, if there is one, is well formed. -/
def CacheWF (w : Stores) : Prop := ∀ c ∈ w.cache, c.WF

/-- `cache_ && cache_->Get(k, &kv)`. -/
def cacheGet (w : Stores) (k : Bytes) (kv : KeyValue) : Except Fault (Stores × Bool × KeyValue) :=
  match w.cache with
  | none => .ok (w, false, kv)
  | some c => do
    let (c', hit, kv') ← c.get k kv
    return ({ w with cache := some c' }, hit, kv')

/-- `if (cache_) cache_->AddOrReplace(k, kv)`. -/
def cacheAdd (w : Stores) (k : Bytes) (kv : KeyValue) : Except Fault Stores :=
  match w.cache with
  | none => .ok w
  | some c => do
    let c' ← c.addOrReplace k kv
    return { w with cache := some c' }

/-- What a lookup finds after `cacheAdd`. -/
def stored (w : Stores) (k : Bytes) (kv : KeyValue) : Option Data :=
  w.cache.bind fun _ ↦ Bucket.storedEntry k kv

variable {w w' : Stores} {k : Bytes} {kv kv' : KeyValue}

theorem stored_eq_some {d : Data} (h : w.stored k kv = some d) :
    kv.val ≠ [] ∧ d = ⟨k, kv.val, kv.flags, kv.cas⟩ := by
  obtain ⟨c, -, hd⟩ := Option.bind_eq_some_iff.mp h
  exact Bucket.storedEntry_eq_some hd

theorem view_of_cache_eq_some {c : Cache} (hc : w.cache = some c) : w.view = c.view := by
  funext j
  rw [view, hc]
  rfl

/-- **What a lookup does.** -/
theorem CacheWF.cacheGet (hw : w.CacheWF) {hit : Bool}
    (h : w.cacheGet k kv = .ok (w', hit, kv')) :
    w'.CacheWF ∧ w'.memc = w.memc ∧ w'.view = w.view ∧
      ((hit = false ∧ kv' = kv ∧ w.view k = none) ∨
        ∃ d, hit = true ∧ w.view k = some d ∧
          kv' = { kv with val? := some d.value, flags? := some d.flags, cas? := some d.cas }) := by
  rw [Stores.cacheGet] at h
  cases hc : w.cache with
  | none =>
    rw [hc] at h
    cases h
    exact ⟨hw, rfl, rfl, Or.inl ⟨rfl, rfl, by rw [view, hc]; rfl⟩⟩
  | some c =>
    rw [hc] at h
    obtain ⟨⟨c', hit', kv''⟩, hget, hret⟩ := bind_eq_ok.mp h
    cases hret
    obtain ⟨hwf, hview, hcases⟩ := (hw c hc).get hget
    have hw₁ := view_of_cache_eq_some hc
    refine ⟨?_, rfl, ?_, hw₁ ▸ hcases⟩
    · rintro _ ⟨⟩
      exact hwf
    · rw [hw₁]
      exact funext hview

/-- **What storing an entry does.** -/
theorem CacheWF.cacheAdd (hw : w.CacheWF) (h : w.cacheAdd k kv = .ok w') :
    w'.CacheWF ∧ w'.memc = w.memc ∧ LossyMap.Put w.view k (w.stored k kv) w'.view := by
  rw [Stores.cacheAdd] at h
  cases hc : w.cache with
  | none =>
    rw [hc] at h
    cases h
    have hview : w.view = fun _ ↦ none := by
      funext j
      rw [view, hc]
      rfl
    refine ⟨hw, rfl, ?_, ?_⟩
    · rw [hview, stored, hc]
      rfl
    · intro j _
      rw [hview]
      exact Or.inl rfl
  | some c =>
    rw [hc] at h
    obtain ⟨c', hadd, hret⟩ := bind_eq_ok.mp h
    cases hret
    obtain ⟨hwf, hput⟩ := (hw c hc).addOrReplace hadd
    have hw₁ := view_of_cache_eq_some hc
    refine ⟨?_, rfl, ?_⟩
    · rintro _ ⟨⟩
      exact hwf
    · rw [hw₁, stored, hc]
      exact hput

end Stores

/-! ## GetKeys -/

section GetKeys

variable (lib : Libmemcached)

/-- The key that memcached is asked for: `strlen` bytes are copied with their terminator, `length`
bytes are sent. -/
def Libmemcached.copyKey (k : Bytes) : Bytes :=
  ((cStr k ++ [0]) ++ (lib.buffer (k.length + 1)).drop ((cStr k).length + 1)).take k.length

/-- The first loop of `GetKeys`: the map with the hits filled in, and the keys to request. -/
def lookupKeys : KeyMap → Stores → Except Fault (Stores × KeyMap × List Bytes)
  | [], w => .ok (w, [], [])
  | (k, kv) :: m, w => do
    let (w, hit, kv) ← w.cacheGet k kv
    let (w, m, keys) ← lookupKeys m w
    return (w, (k, kv) :: m, if hit then keys else lib.copyKey k :: keys)

/-- `memcached_mget`: one result for each requested key that is present. -/
def Store.mget (s : Store) (keys : List Bytes) : List (Bytes × Item) :=
  keys.filterMap fun k ↦ (s.lookup k).map fun it ↦ (k, it)

/-- What `memcached_mget` returns. It requests nothing if there is a key that is empty or has more
than 250 bytes. -/
def mgetReturn (keys : List Bytes) : ReturnCode :=
  if ∀ k ∈ keys, 0 < k.length ∧ k.length ≤ 250 then .success else .badKeyProvided

/-- The message of a key after its result was read. -/
def Libmemcached.fetched (kv : KeyValue) (it : Item) : KeyValue :=
  { kv with
    val? := some it.value
    flags? := some it.flags
    cas? := some it.cas
    returnCode? := some ReturnCode.success.toNat
    returnError? := some (lib.strerror .success) }

/-- One turn of the loop over `memcached_fetch_result`. -/
def fillKey (w : Stores) (m : KeyMap) (r : Bytes × Item) : Except Fault (Stores × KeyMap) :=
  match m.lookup r.1 with
  | none => .error .checkFailed
  | some kv => do
    let w ← w.cacheAdd r.1 (lib.fetched kv r.2)
    return (w, m.assign r.1 (lib.fetched kv r.2))

/-- The loop over `memcached_fetch_result`. -/
def fillKeys : List (Bytes × Item) → Stores → KeyMap → Except Fault (Stores × KeyMap)
  | [], w, m => .ok (w, m)
  | r :: rs, w, m => do
    let (w, m) ← fillKey lib w m r
    fillKeys rs w m

/-- `MemClient::GetKeys`. -/
def getKeys (w : Stores) (m : KeyMap) : Except Fault (Stores × KeyMap) := do
  let (w, m, keys) ← lookupKeys lib m w
  if keys = [] then
    return (w, m)
  else if mgetReturn keys = .success then
    fillKeys lib (lib.fetchOrder (w.memc.mget keys)) w m
  else
    .error .checkFailed

end GetKeys

/-! ## SetKeys and IncrKeys -/

/-- The three-way branch of `SetKeys`. -/
def Store.put (s : Store) (kv : KeyValue) : Store × ReturnCode :=
  if 0 < kv.cas then s.cas kv.key kv.val kv.expireInSeconds kv.flags kv.cas
  else if !kv.allowReplace then s.add kv.key kv.val kv.expireInSeconds kv.flags
  else s.set kv.key kv.val kv.expireInSeconds kv.flags

/-- The four-way branch of `IncrKeys`. `Store.count_eq` has its amounts as the source computes
them, in 32 bits. -/
def Store.count (s : Store) (kv : KeyValue) : Store × ReturnCode × Option ℕ :=
  if 0 ≤ kv.offset.toInt then
    if kv.defaultCounterVal?.isSome then s.withInitial
    else s.increment kv.key kv.offset.toInt.natAbs
  else
    if kv.defaultCounterVal?.isSome then s.withInitial
    else s.decrement kv.key kv.offset.toInt.natAbs

theorem Store.writesAt_count (s : Store) (kv : KeyValue) : s.WritesAt kv.key (s.count kv).1 := by
  rw [Store.count]
  split_ifs
  · exact Or.inl rfl
  · exact s.writesAt_updateCounter _ _
  · exact Or.inl rfl
  · exact s.writesAt_updateCounter _ _

section Items

variable (lib : Libmemcached)

/-- One turn of the loop of `SetKeys`. -/
def setKey (w : Stores) (kv : KeyValue) : Except Fault (Stores × KeyValue) := do
  let w ← w.cacheAdd kv.key kv
  if kv.noPropagate then
    return (w, kv)
  else
    return ({ w with memc := (w.memc.put kv).1 }, { kv with
      returnCode? := some (w.memc.put kv).2.toNat
      returnError? := some (lib.strerror (w.memc.put kv).2) })

/-- One turn of the loop of `IncrKeys`. -/
def incrKey (w : Stores) (kv : KeyValue) : Stores × KeyValue :=
  ({ w with memc := (w.memc.count kv).1 }, { kv with
    counterVal? := some ((w.memc.count kv).2.2.getD (lib.failedCounter (w.memc.count kv).2.1))
    returnCode? := some (w.memc.count kv).2.1.toNat
    returnError? := some (lib.strerror (w.memc.count kv).2.1) })

/-- `MemClient::SetKeys`, on the `set_keys` of the instruction. -/
def setKeys : List KeyValue → Stores → Except Fault (Stores × List KeyValue)
  | [], w => .ok (w, [])
  | kv :: kvs, w => do
    let (w, kv) ← setKey lib w kv
    let (w, kvs) ← setKeys kvs w
    return (w, kv :: kvs)

/-- `MemClient::IncrKeys`, on the `incr_keys` of the instruction. -/
def incrKeys : List KeyValue → Stores → Stores × List KeyValue
  | [], w => (w, [])
  | kv :: kvs, w =>
    let (w, kv) := incrKey lib w kv
    let (w, kvs) := incrKeys kvs w
    (w, kv :: kvs)

/-! ## A batch of packets -/

/-- The keys of a batch of GET packets. -/
def keysOf (packets : List Packet) : KeyMap :=
  packets.foldl (fun m p ↦ p.instruction.getKeys.foldl (fun m kv ↦ m.insert kv.key) m) []

/-- Merge the results into one key of a GET packet. -/
def mergeKey (m : KeyMap) (kv : KeyValue) : Except Fault KeyValue :=
  match m.lookup kv.key with
  | none => .error .checkFailed
  | some kv' => .ok (kv.mergeFrom kv')

/-- Merge the results into a GET packet. -/
def mergePacket (m : KeyMap) (p : Packet) : Except Fault Packet := do
  let kvs ← p.instruction.getKeys.mapM (mergeKey m)
  return { p with instruction := { p.instruction with getKeys := kvs } }

/-- The end of one turn of `ProcessPackets`: the GET packets of the batch are answered together. -/
def answerGets (w : Stores) (packets : List Packet) : Except Fault (Stores × List Packet) := do
  let (w, m) ← getKeys lib w (keysOf packets)
  let replies ← packets.mapM (mergePacket m)
  return (w, replies)

/-- The first loop of one turn of `ProcessPackets`: the replies it sends, and the GET packets it
puts aside. -/
def runPackets : List Packet → Stores → Except Fault (Stores × List Packet × List Packet)
  | [], w => .ok (w, [], [])
  | p :: ps, w => do
    match ← p.getType with
    | .set =>
      let (w, _) ← setKeys lib p.instruction.setKeys w
      runPackets ps w
    | .increment =>
      let (w, kvs) := incrKeys lib p.instruction.incrKeys w
      let (w, replies, gets) ← runPackets ps w
      return (w, { p with instruction := { p.instruction with incrKeys := kvs } } :: replies, gets)
    | .get =>
      let (w, replies, gets) ← runPackets ps w
      return (w, replies, p :: gets)
    | .serverList | .stats => runPackets ps w

/-- One turn of `MemcacheRouter::ProcessPackets`: what a worker does with the batch it popped, and
the packets it sends to `worker_output`. -/
def processPackets (w : Stores) (batch : List Packet) : Except Fault (Stores × List Packet) := do
  let (w, replies, gets) ← runPackets lib batch w
  if gets = [] then
    return (w, replies)
  else
    let (w, answers) ← answerGets lib w gets
    return (w, replies ++ answers)

end Items

end MemcacheRouter
