import Mathlib.Data.List.Nodup
import Mathlib.Logic.Function.Basic
import MemcacheRouter.Foundations.Rounding
import MemcacheRouter.Wire.Message

/-!
# The LRU cache

The cache of `lru_cache.h` and `lru_cache.cpp`: 64 buckets, each a linked list of entries in order
of access and a hash map from keys to list iterators. An iterator is the identity of the node it
points to, and identities are drawn from a counter and never reused. An iterator to an erased node
is thus a value that no node of the list carries, and using one is the fault `erasedNode` instead
of whatever the memory happens to hold.

The counter `memory` is the `uint64_t` of the source, and `Used` the `int`: both wrap. Each
operation runs under the bucket's mutex and is one step here.
-/

namespace MemcacheRouter

/-- The conversion of an integer to `uint64_t`. Irreducible, as is `Data.used`: unification has no
business evaluating the powers of two. -/
@[irreducible] def toUInt64 (z : ℤ) : ℕ := (z % 2 ^ 64).toNat

/-- A cached value. A new one has no key and no value; its `flags` and `cas` are indeterminate in
the source, and are not read before `AddOrReplace` has set them. -/
structure Data where
  key : Bytes := []
  value : Bytes := []
  flags : UInt32 := 0
  cas : ℕ := 0
  deriving DecidableEq, Repr

/-- `Data::Used`: a `size_t` sum returned as an `int`, so that the upper half of its low 32 bits is
negative. -/
@[irreducible] def Data.used (d : Data) : ℤ :=
  if (d.key.length + d.value.length + 12) % 2 ^ 32 < 2 ^ 31 then
    ((d.key.length + d.value.length + 12) % 2 ^ 32 : ℕ)
  else ((d.key.length + d.value.length + 12) % 2 ^ 32 : ℕ) - 2 ^ 32

theorem cast_toUInt64 (z : ℤ) : (toUInt64 z : ℤ) = z % 2 ^ 64 := by
  unfold toUInt64
  omega

theorem Data.used_eq {d : Data} (h : d.key.length + d.value.length + 12 < 2 ^ 31) :
    d.used = (d.key.length + d.value.length + 12 : ℕ) := by
  unfold Data.used
  split <;> omega

/-- A node of `access_list`. -/
structure Node where
  id : ℕ
  data : Data
  deriving DecidableEq, Repr

/-- A bucket. `nextId` is the identity the next list node gets. -/
structure Bucket where
  keyToLitr : Bytes → Option ℕ := fun _ ↦ none
  accessList : List Node := []
  memory : ℕ := 0
  nextId : ℕ := 0

namespace Bucket

/-- The node an iterator points to, if it has not been erased. -/
def node? (b : Bucket) (id : ℕ) : Option Node := b.accessList.find? (·.id == id)

/-- `Cache::FindOrInsertData`. A registered node is spliced to the end and registered again; an
unknown key gets an empty node at the end. -/
def findOrInsertData (b : Bucket) (k : Bytes) : Except Fault (Bucket × Node) :=
  match b.keyToLitr k with
  | some id =>
    match b.node? id with
    | some n => .ok ({ b with
        accessList := b.accessList.filter (·.id != id) ++ [n]
        keyToLitr := Function.update b.keyToLitr k (some n.id) }, n)
    | none => .error .erasedNode
  | none => .ok ({ b with
      accessList := b.accessList ++ [⟨b.nextId, {}⟩]
      keyToLitr := Function.update b.keyToLitr k (some b.nextId)
      nextId := b.nextId + 1 }, ⟨b.nextId, {}⟩)

/-- One turn of the eviction loop: erase the front node, and with it the map entry of the key that
is stored in it. -/
def eraseFront (b : Bucket) (n : Node) (rest : List Node) : Bucket :=
  { b with
    accessList := rest
    keyToLitr := Function.update b.keyToLitr n.data.key none
    memory := toUInt64 (b.memory - n.data.used) }

/-- The loop of `Cache::DeleteStaleData`: erase from the front until `memory` is below the target
or the list is empty. -/
def deleteStaleLoop (target : ℕ) : List Node → Bucket → Bucket
  | [], b => b
  | n :: rest, b =>
    if (b.eraseFront n rest).memory < target then b.eraseFront n rest
    else deleteStaleLoop target rest (b.eraseFront n rest)

/-- `Cache::DeleteStaleData`. -/
def deleteStaleData (b : Bucket) (decreaseBy : ℕ) : Bucket :=
  deleteStaleLoop (toUInt64 (b.memory - decreaseBy)) b.accessList b

/-- Overwrite the entry held by the node `id`. -/
def write (b : Bucket) (id : ℕ) (d : Data) : Bucket :=
  { b with accessList := b.accessList.map fun m ↦ if m.id = id then ⟨m.id, d⟩ else m }

/-- The entry that `AddOrReplace` stores. -/
def entryOf (k : Bytes) (kv : KeyValue) : Data := ⟨k, kv.val, kv.flags, kv.cas⟩

/-- The eviction at the head of `Cache::AddOrReplace`. -/
def makeRoom (b : Bucket) (threshold decreaseBy : ℕ) : Bucket :=
  if threshold < b.memory then b.deleteStaleData decreaseBy else b

/-- `Cache::AddOrReplace` on the bucket of the key. -/
def addOrReplace (b : Bucket) (threshold decreaseBy : ℕ) (k : Bytes) (kv : KeyValue) :
    Except Fault Bucket :=
  match (b.makeRoom threshold decreaseBy).findOrInsertData k with
  | .error e => .error e
  | .ok (b', n) => .ok { b'.write n.id (entryOf k kv) with
      memory := toUInt64 (toUInt64 (b'.memory - n.data.used) + (entryOf k kv).used) }

/-- `Cache::Get` on the bucket of the key: whether it hit, and the message it filled in. -/
def get (b : Bucket) (k : Bytes) (kv : KeyValue) : Except Fault (Bucket × Bool × KeyValue) :=
  match b.findOrInsertData k with
  | .error e => .error e
  | .ok (b', n) =>
    if n.data.value = [] then .ok (b', false, kv)
    else .ok (b', true, { kv with
      val? := some n.data.value, flags? := some n.data.flags, cas? := some n.data.cas })

end Bucket

/-! ## The cache -/

/-- `kNumBuckets`. -/
def kNumBuckets : ℕ := 64

/-- The cache. `strHash` is the standard library's string hash, about which nothing is assumed. -/
structure Cache where
  strHash : Bytes → ℕ
  threshold : ℕ
  decreaseBy : ℕ
  buckets : Fin kNumBuckets → Bucket
  hits : ℕ := 0
  miss : ℕ := 0

/-- `static_cast<uint64_t>(threshold * 0.01)`. The constant is the double
`5764607523034235 / 2 ^ 59`; the conversion of `threshold` and the product round to 53 bits, and
the scale is a power of two. -/
def onePercent (threshold : ℕ) : ℕ :=
  Rounding.toPrecision 53 (Rounding.toPrecision 53 threshold * 5764607523034235) / 2 ^ 59

namespace Cache

/-- `Cache::Cache`. -/
def new (capacity : UInt64) (strHash : Bytes → ℕ) : Cache where
  strHash := strHash
  threshold := max (capacity.toNat / kNumBuckets) (10 <<< 20)
  decreaseBy := max (onePercent (max (capacity.toNat / kNumBuckets) (10 <<< 20))) (100 <<< 10)
  buckets := fun _ ↦ {}

/-- `Cache::GetIndex`. -/
def getIndex (c : Cache) (k : Bytes) : Fin kNumBuckets :=
  ⟨c.strHash k % kNumBuckets, Nat.mod_lt _ (by decide)⟩

/-- The bucket a key falls into. -/
def bucketOf (c : Cache) (k : Bytes) : Bucket := c.buckets (c.getIndex k)

/-- `Cache::AddOrReplace`. -/
def addOrReplace (c : Cache) (k : Bytes) (kv : KeyValue) : Except Fault Cache :=
  match (c.bucketOf k).addOrReplace c.threshold c.decreaseBy k kv with
  | .error e => .error e
  | .ok b => .ok { c with buckets := Function.update c.buckets (c.getIndex k) b }

/-- `Cache::Get`. -/
def get (c : Cache) (k : Bytes) (kv : KeyValue) : Except Fault (Cache × Bool × KeyValue) :=
  match (c.bucketOf k).get k kv with
  | .error e => .error e
  | .ok (b, hit, kv') => .ok ({ c with
      buckets := Function.update c.buckets (c.getIndex k) b
      hits := if hit then (c.hits + 1) % 2 ^ 64 else c.hits
      miss := if hit then c.miss else (c.miss + 1) % 2 ^ 64 }, hit, kv')

theorem onePercent_le (t : ℕ) : onePercent t ≤ t := by
  have h₁ := Rounding.toPrecision_le 53 t
  have h₂ := Rounding.toPrecision_le 53 (Rounding.toPrecision 53 t * 5764607523034235)
  rw [onePercent]
  omega

/-- One eviction pass never asks for more than the threshold, so its target cannot wrap. -/
theorem decreaseBy_le_threshold (capacity : UInt64) (strHash : Bytes → ℕ) :
    (new capacity strHash).decreaseBy ≤ (new capacity strHash).threshold := by
  have h := onePercent_le (max (capacity.toNat / kNumBuckets) (10 <<< 20))
  have hmin : 100 <<< 10 ≤ max (capacity.toNat / kNumBuckets) (10 <<< 20) :=
    le_max_of_le_right (by decide)
  exact max_le h hmin

theorem threshold_lt (capacity : UInt64) (strHash : Bytes → ℕ) :
    (new capacity strHash).threshold < 2 ^ 60 := by
  have hcap := capacity.toNat_lt
  exact max_lt (by rw [kNumBuckets]; omega) (by decide)

/-! ## Histories -/

/-- A call of one of the two public operations. -/
inductive Call where
  | addOrReplace (k : Bytes) (kv : KeyValue)
  | get (k : Bytes) (kv : KeyValue)

namespace Call

/-- The key of the call. -/
def key : Call → Bytes
  | addOrReplace k _ => k
  | get k _ => k

end Call

/-- The effect of one call on its bucket. -/
def callBucket (c : Cache) (b : Bucket) : Call → Except Fault Bucket
  | .addOrReplace k kv => b.addOrReplace c.threshold c.decreaseBy k kv
  | .get k kv => (b.get k kv).map Prod.fst

/-- The cache after one call. -/
def call (c : Cache) : Call → Except Fault Cache
  | .addOrReplace k kv => c.addOrReplace k kv
  | .get k kv => (c.get k kv).map Prod.fst

/-- The step relation of a history of calls: a call that faults has no successor. -/
def Step (c : Cache) (op : Call) (c' : Cache) : Prop := c.call op = .ok c'

/-- The parameters fixed at construction. -/
def SameParams (c c' : Cache) : Prop :=
  c'.strHash = c.strHash ∧ c'.threshold = c.threshold ∧ c'.decreaseBy = c.decreaseBy

/-- What a call does: it changes one bucket, the one of its key, as `callBucket` says. -/
theorem buckets_of_call {c c' : Cache} {op : Call} :
    c.call op = .ok c' → ∃ b, c.callBucket (c.bucketOf op.key) op = .ok b ∧
      c'.buckets = Function.update c.buckets (c.getIndex op.key) b ∧ c.SameParams c' := by
  intro h
  cases op with
  | addOrReplace k kv =>
    simp only [call, addOrReplace] at h
    split at h
    · cases h
    · next b hb =>
      cases h
      exact ⟨b, hb, rfl, rfl, rfl, rfl⟩
  | get k kv =>
    simp only [call, get] at h
    split at h
    · cases h
    · next b hit kv' hb =>
      cases h
      refine ⟨b, ?_, rfl, rfl, rfl, rfl⟩
      simp only [callBucket, Call.key]
      rw [hb]
      rfl

/-- A property of buckets that a call keeps on the bucket of its key. -/
theorem forall_buckets_of_call {I : Bucket → Prop} {c c' : Cache} {op : Call}
    (h : ∀ i, I (c.buckets i)) (hcall : c.call op = .ok c')
    (hkeep : ∀ b, c.callBucket (c.bucketOf op.key) op = .ok b → I b) : ∀ i, I (c'.buckets i) := by
  obtain ⟨b, hb, hbuckets, -⟩ := buckets_of_call hcall
  intro i
  rw [hbuckets]
  by_cases hi : i = c.getIndex op.key
  · rw [hi, Function.update_self]
    exact hkeep b hb
  · rw [Function.update_of_ne hi]
    exact h i

end Cache

end MemcacheRouter
