import MemcacheRouter.Cache.Accounting
import MemcacheRouter.Cache.Latest

/-!
# A cache that is large enough

A bucket evicts when its counter is above the threshold, and the counter of a bucket from which
nothing was evicted is the length of the keys and values in it. So a cache into which no more was
stored than one bucket may hold never evicts anything, and then it is a map: no call faults, nothing
is forgotten, and a lookup finds exactly what was stored last under its key.
-/

open Transition

namespace MemcacheRouter

namespace Bucket

variable {b b' : Bucket} {k : Bytes} {kv : KeyValue} {threshold decreaseBy : ℕ}

/-- Without an eviction nothing is forgotten. -/
theorem WF.view_addOrReplace (hb : b.WF) (hle : b.memory ≤ threshold)
    (h : b.addOrReplace threshold decreaseBy k kv = .ok b') :
    b'.view = Function.update b.view k (storedEntry k kv) := by
  have hput := (hb.addOrReplace h).2
  funext j
  by_cases hj : j = k
  · subst hj
    rw [Function.update_self]
    exact hput.same
  · have hroom : b.makeRoom threshold decreaseBy = b := if_neg (not_lt.mpr hle)
    rw [Function.update_of_ne hj]
    rw [Bucket.addOrReplace, hroom] at h
    split at h
    · cases h
    · next b₁ n hfind =>
      cases h
      have hk := (findOrInsertData_litr hfind).1
      rw [view_congr_memory, (hb.findOrInsertData hfind).view_write_of_ne hk rfl hj,
        hb.view_findOrInsertData hfind j]

theorem WF.contents_addOrReplace (hb : b.WF) (hle : b.memory ≤ threshold)
    (h : b.addOrReplace threshold decreaseBy k kv = .ok b') :
    b'.contents ≤ b.contents + (entryOf k kv).size := by
  have hroom : b.makeRoom threshold decreaseBy = b := if_neg (not_lt.mpr hle)
  have hcases := hb.addOrReplace_cases h
  rw [hroom] at hcases
  rcases hcases with ⟨-, -, hf⟩ | ⟨n, -, -, -, hf⟩
  · have hcont : b'.contents = b.contents + (entryOf k kv).size := hf _
    omega
  · have hcont : b'.contents = b.contents - n.data.size + (entryOf k kv).size := hf _
    omega

theorem WF.contents_get (hb : b.WF) {r : Bool × KeyValue} (h : b.get k kv = .ok (b', r)) :
    b'.contents = b.contents := by
  obtain ⟨n, hfind⟩ := exists_findOrInsertData_of_get h
  obtain ⟨-, ⟨-, -, hf⟩ | ⟨-, -, -, hf⟩⟩ := hb.weigh_findOrInsertData hfind
  · exact hf _
  · exact (hf _).trans (add_zero _)

end Bucket

namespace Cache

/-- The length of the key and the value that a call stores. -/
def Call.weight : Call → ℕ
  | .addOrReplace k kv => (Bucket.entryOf k kv).size
  | .get _ _ => 0

/-- The length of everything that a history stores. -/
def weight (ops : List Call) : ℕ := (ops.map Call.weight).sum

/-- A call on a map. An empty value counts as none. -/
def Call.store (f : Bytes → Option Data) : Call → Bytes → Option Data
  | .addOrReplace k kv => Function.update f k (Bucket.storedEntry k kv)
  | .get _ _ => f

/-- The map that a history of calls describes. -/
def stored (ops : List Call) : Bytes → Option Data := ops.foldl Call.store fun _ ↦ none

/-- What a lookup in the map answers. -/
def answer (d : Option Data) (kv : KeyValue) : Bool × KeyValue :=
  match d with
  | none => (false, kv)
  | some d => (true, { kv with
      val? := some d.value, flags? := some d.flags, cas? := some d.cas })

variable {c c' : Cache} {op : Call} {ops : List Call} {capacity : UInt64} {strHash : Bytes → ℕ}

/-- The cache after a history from which nothing was evicted. -/
structure Exact (ops : List Call) (c : Cache) : Prop where
  intact : c.Intact
  view : c.view = stored ops
  unevicted : ∀ i, (c.buckets i).Unevicted c.threshold
  contents : ∀ i, (c.buckets i).contents ≤ weight ops

theorem weight_concat (ops : List Call) (op : Call) :
    weight (ops ++ [op]) = weight ops + op.weight := by
  rw [weight, List.map_append, List.sum_append, List.map_singleton, List.sum_singleton, weight]

theorem stored_concat (ops : List Call) (op : Call) :
    stored (ops ++ [op]) = op.store (stored ops) := by
  rw [stored, List.foldl_append]
  rfl

/-- The counter of a bucket is at most what the history stores. -/
theorem Exact.memory_le (h : Exact ops c) (hthr : c.threshold < 2 ^ 60) (i : Fin kNumBuckets) :
    (c.buckets i).memory ≤ weight ops := by
  have hmem := (h.unevicted i).memory hthr
  have hcont := h.contents i
  omega

/-- **One call**: it returns, and the cache is still exact. -/
theorem Exact.exists_step (h : Exact ops c) (hthr : c.threshold < 2 ^ 60) (hfits : op.Fits)
    (hw : weight (ops ++ [op]) ≤ c.threshold) : ∃ c', c.Step op c' ∧ Exact (ops ++ [op]) c' := by
  have hmem := h.memory_le hthr
  rw [weight_concat] at hw
  cases op with
  | addOrReplace k kv =>
    -- the counter is at most what is stored, so no call finds it above the threshold
    have hle : (c.bucketOf k).memory ≤ c.threshold := (hmem (c.getIndex k)).trans (by omega)
    obtain ⟨c', hstep, hintact⟩ := h.intact.exists_step (.addOrReplace k kv)
      fun hlt ↦ absurd hlt (not_lt.mpr hle)
    obtain ⟨b, hb, hbuckets, hhash, hthr', -⟩ := buckets_of_call hstep
    refine ⟨c', hstep, hintact, ?_, ?_, ?_⟩
    · have hput := (h.intact.wf.addOrReplace hstep).2
      rw [stored_concat, ← h.view, Call.store]
      funext j
      by_cases hj : j = k
      · rw [hj, Function.update_self]
        exact hput.same
      · rw [Function.update_of_ne hj, Cache.view, bucketOf_update hhash hbuckets]
        by_cases hidx : c.getIndex j = c.getIndex k
        · rw [Call.key, if_pos hidx, (h.intact.wf _).view_addOrReplace hle hb,
            Function.update_of_ne hj]
          exact congrArg (fun i ↦ (c.buckets i).view j) hidx.symm
        · rw [Call.key, if_neg hidx]
          rfl
    · rw [hthr']
      refine forall_buckets_of_call (I := fun b ↦ b.Unevicted c.threshold) h.unevicted hstep
        fun b' hb' ↦ (h.unevicted _).addOrReplace hthr hle hfits hb'
    · rw [weight_concat]
      have hmono : ∀ i, (c.buckets i).contents ≤
          (weight ops + (Call.addOrReplace k kv).weight : ℕ) := by
        intro i
        have := h.contents i
        omega
      refine forall_buckets_of_call
        (I := fun b ↦ b.contents ≤ (weight ops + (Call.addOrReplace k kv).weight : ℕ)) hmono hstep
        fun b' hb' ↦ ?_
      have hstore := (h.intact.wf (c.getIndex k)).contents_addOrReplace hle hb'
      have hold := h.contents (c.getIndex k)
      have hweight : (Call.addOrReplace k kv).weight = (Bucket.entryOf k kv).size := rfl
      omega
  | get k kv =>
    obtain ⟨c', hstep, hintact⟩ := h.intact.exists_step (.get k kv) trivial
    obtain ⟨hit, kv', hget⟩ := exists_get_of_call hstep
    obtain ⟨-, hview, -⟩ := h.intact.wf.get hget
    obtain ⟨-, -, -, -, hthr', -⟩ := buckets_of_call hstep
    refine ⟨c', hstep, hintact, ?_, ?_, ?_⟩
    · rw [stored_concat, ← h.view]
      exact funext hview
    · rw [hthr']
      refine forall_buckets_of_call (I := fun b ↦ b.Unevicted c.threshold) h.unevicted hstep
        fun b' hb' ↦ ?_
      obtain ⟨r, hr⟩ := exists_get_of_callBucket hb'
      exact (h.unevicted _).get hr
    · rw [weight_concat, Call.weight, add_zero]
      refine forall_buckets_of_call (I := fun b ↦ b.contents ≤ (weight ops : ℤ)) h.contents hstep
        fun b' hb' ↦ ?_
      obtain ⟨r, hr⟩ := exists_get_of_callBucket hb'
      rw [(h.intact.wf _).contents_get hr]
      exact h.contents _

end Cache

end MemcacheRouter
