import MemcacheRouter.Cache.Accounting

/-!
# The size of a bucket

An eviction that starts when a bucket is above its threshold frees more than `decrease_by_`, or
empties the list. So a bucket would stay within `threshold_ + decrease_by_` if evictions started
when it is above the threshold. They start when the counter says so, and the counter is short of the
real sum by the overhead of all the nodes the bucket ever inserted; and a missed lookup inserts a
node without any test.

The bound therefore holds in the histories in which a call that adds to a bucket without an eviction
finds the real sum at or below the threshold. Lookups alone break it.
-/

open Transition

namespace MemcacheRouter

namespace Bucket

variable {b b' : Bucket} {k : Bytes} {kv : KeyValue} {threshold decreaseBy : ℕ}

/-! ## What an eviction frees -/

/-- The loop goes on until more than `decreaseBy` is freed: as long as less is freed, `freed` so
far, the counter has not wrapped and is not below its target. -/
private theorem staleNodes_frees {total : ℤ} {target : ℕ} (freed : ℤ) :
    ∀ (l : List Node) (memory : ℕ), (∀ n ∈ l, 0 ≤ n.data.used) → (memory : ℤ) = total - freed →
      (target : ℤ) = total - decreaseBy → total < 2 ^ 64 → 0 ≤ freed →
      staleNodes target l memory = l ∨
        decreaseBy < freed + sumOf Data.used (staleNodes target l memory) := by
  intro l
  induction l generalizing freed with
  | nil => exact fun _ _ _ _ _ _ ↦ Or.inl rfl
  | cons n rest ih =>
    intro memory hl hmemory htarget hlt hfreed
    have hn := hl n List.mem_cons_self
    have hrest : ∀ m ∈ rest, 0 ≤ m.data.used := fun m hm ↦ hl m (List.mem_cons_of_mem _ hm)
    rw [staleNodes, sumOf_cons]
    -- with this node enough is freed, or the counter has not come below its target yet
    by_cases hmore : (decreaseBy : ℤ) < freed + n.data.used
    · right
      have hnonneg : 0 ≤ sumOf Data.used (if toUInt64 (memory - n.data.used) < target then []
          else staleNodes target rest (toUInt64 (memory - n.data.used))) := by
        refine sumOf_nonneg fun m hm ↦ hrest m ?_
        split_ifs at hm
        · cases hm
        · exact (staleNodes_isPrefix _ _ _).mem hm
      omega
    · have hstep : (toUInt64 (memory - n.data.used) : ℤ) = total - (freed + n.data.used) := by
        rw [toUInt64_of_nonneg (by omega) (by omega), hmemory]
        ring
      rw [if_neg (by omega)]
      rcases ih _ _ hrest hstep htarget hlt (by omega) with hall | hfrees
      · exact Or.inl (by rw [hall])
      · exact Or.inr (by omega)

theorem Holds.used_nonneg (h : b.Holds Data.Fits) : ∀ n ∈ b.accessList, 0 ≤ n.data.used := by
  intro n hn
  rw [(h n hn).used]
  omega

/-- **An eviction frees more than it was asked for, or empties the list.** -/
theorem Holds.deleteStaleData_frees (h : b.Holds Data.Fits) (hlt : b.memory < 2 ^ 64)
    (hle : decreaseBy ≤ b.memory) : (b.deleteStaleData decreaseBy).accessList = [] ∨
      decreaseBy < sumOf Data.used (b.stale decreaseBy) := by
  have htarget : (toUInt64 (b.memory - decreaseBy) : ℤ) = b.memory - decreaseBy :=
    toUInt64_of_nonneg (by omega) (by omega)
  have hfrees := staleNodes_frees 0 b.accessList b.memory h.used_nonneg (by ring)
    htarget (by exact_mod_cast hlt) le_rfl
  rw [zero_add] at hfrees
  refine hfrees.imp_left fun hall ↦ ?_
  have hlist := b.accessList_eq_stale_append decreaseBy
  rw [stale, hall] at hlist
  exact List.self_eq_append_right.mp hlist

/-! ## Staying within the bound -/

/-- The sum of `Used` is within the bound, and no entry overflows an `int`. -/
structure Within (b : Bucket) (threshold decreaseBy : ℕ) : Prop where
  ledger : b.Ledger
  fits : b.Holds Data.Fits
  le : b.totalUsed ≤ threshold + decreaseBy

theorem within_empty (threshold decreaseBy : ℕ) : Within {} threshold decreaseBy where
  ledger := ledger_empty
  fits := by
    intro n hn
    cases hn
  le := by
    have h : totalUsed {} = 0 := rfl
    omega

/-- After the eviction, if there is one, the bucket is below its threshold. -/
theorem Within.totalUsed_makeRoom (h : b.Within threshold decreaseBy)
    (hdec : decreaseBy ≤ threshold)
    (hhonest : b.memory ≤ threshold → b.totalUsed ≤ threshold) :
    (b.makeRoom threshold decreaseBy).totalUsed ≤ threshold := by
  rw [Bucket.makeRoom]
  split_ifs with hlt
  · rcases h.fits.deleteStaleData_frees h.ledger.memory_lt (hdec.trans hlt.le) with hnil | hfrees
    · have hzero : (b.deleteStaleData decreaseBy).totalUsed = 0 := by
        rw [Bucket.totalUsed, weigh, hnil]
        rfl
      omega
    · have hle := h.le
      have hrest : (b.deleteStaleData decreaseBy).totalUsed = b.totalUsed - _ :=
        weigh_deleteStaleData b Data.used decreaseBy
      omega
  · exact hhonest (not_lt.mp hlt)

theorem Within.addOrReplace (h : b.Within threshold decreaseBy) (hdec : decreaseBy ≤ threshold)
    (hhonest : b.memory ≤ threshold → b.totalUsed ≤ threshold)
    (hsmall : (entryOf k kv).size + 12 ≤ decreaseBy) (hfits : (entryOf k kv).Fits)
    (hadd : b.addOrReplace threshold decreaseBy k kv = .ok b') :
    b'.Within threshold decreaseBy := by
  have hroom := h.totalUsed_makeRoom hdec hhonest
  have hused := hfits.used
  refine ⟨h.ledger.addOrReplace hadd, h.fits.addOrReplace Data.fits_empty hfits hadd, ?_⟩
  rcases h.ledger.wf.addOrReplace_cases hadd with ⟨-, -, hf⟩ | ⟨n, hn, -, -, hf⟩
  · have hadded : b'.totalUsed = _ + _ := hf Data.used
    rw [← Bucket.totalUsed] at hadded
    omega
  · have hreplaced : b'.totalUsed = _ - _ + _ := hf Data.used
    have hold := (h.fits.makeRoom threshold decreaseBy).used_nonneg n hn
    rw [← Bucket.totalUsed] at hreplaced
    omega

theorem Within.get (h : b.Within threshold decreaseBy) {r : Bool × KeyValue}
    (hdec : 12 ≤ decreaseBy) (hspace : b.keyToLitr k = none → b.totalUsed ≤ threshold)
    (hget : b.get k kv = .ok (b', r)) : b'.Within threshold decreaseBy := by
  obtain ⟨n, hfind⟩ := exists_findOrInsertData_of_get hget
  refine ⟨h.ledger.get hget, h.fits.findOrInsertData Data.fits_empty hfind, ?_⟩
  obtain ⟨-, ⟨-, -, hf⟩ | ⟨hnone, -, -, hf⟩⟩ := h.ledger.wf.weigh_findOrInsertData hfind
  · rw [totalUsed, hf]
    exact h.le
  · have hinserted : b'.totalUsed = b.totalUsed + _ := hf Data.used
    have hroom := hspace hnone
    rw [Data.used_empty] at hinserted
    omega

end Bucket

/-! ## Histories of the whole cache -/

namespace Cache

/-- The entry that a call stores is not larger than what one eviction frees. -/
def Small (c : Cache) : Call → Prop
  | .addOrReplace k kv => k.length + kv.val.length + 12 ≤ c.decreaseBy
  | .get _ _ => True

/-- A call that adds to its bucket without an eviction finds the sum of `Used` at or below the
threshold, and what is stored fits an `int`. -/
def HasRoom (c : Cache) : Call → Prop
  | .addOrReplace k kv => (Bucket.entryOf k kv).Fits ∧
      ((c.bucketOf k).memory ≤ c.threshold → (c.bucketOf k).totalUsed ≤ c.threshold)
  | .get k _ => (c.bucketOf k).keyToLitr k = none → (c.bucketOf k).totalUsed ≤ c.threshold

variable {c c' : Cache} {op : Call} {ops : List Call} {capacity : UInt64} {strHash : Bytes → ℕ}

/-- **The bound holds as long as nothing is added above the threshold without an eviction.** In
every history of calls that store small entries, if each call that adds to a bucket without an
eviction finds its sum of `Used` at or below the threshold, no bucket grows beyond its bound. -/
theorem within_capacity_of_hasRoom (capacity : UInt64) (strHash : Bytes → ℕ) (ops : List Call)
    (c : Cache) (hrun : Run (Guarded Step fun c op ↦ c.Small op ∧ c.HasRoom op)
      (new capacity strHash) ops c) (i : Fin kNumBuckets) :
    (c.buckets i).totalUsed ≤ c.threshold + c.decreaseBy := by
  suffices h : ∀ i, (c.buckets i).Within c.threshold c.decreaseBy from (h i).le
  induction hrun with
  | nil => exact fun i ↦ Bucket.within_empty _ _
  | @snoc c₁ c₂ ops op hrun hstep ih =>
    obtain ⟨-, hthr₁, hdec₁⟩ := sameParams_of_run hrun.of_guarded
    obtain ⟨-, -, -, -, hthr₂, hdec₂⟩ := buckets_of_call hstep.1
    have hdec : c₁.decreaseBy ≤ c₁.threshold := by
      rw [hthr₁, hdec₁]
      exact decreaseBy_le_threshold capacity strHash
    have hmin : 12 ≤ c₁.decreaseBy := by
      rw [hdec₁]
      exact le_max_of_le_right (by decide)
    rw [hthr₂, hdec₂]
    obtain ⟨hcall, hsmall, hspace⟩ := hstep
    refine forall_buckets_of_call (I := fun b ↦ b.Within c₁.threshold c₁.decreaseBy) ih hcall
      fun b hb ↦ ?_
    rcases op with ⟨k, kv⟩ | ⟨k, kv⟩
    · exact (ih _).addOrReplace hdec hspace.2 hsmall hspace.1 hb
    · obtain ⟨r, hget⟩ := exists_get_of_callBucket hb
      exact (ih _).get hmin hspace hget

/-! ## A history with an eviction -/

/-- Storing one value under several keys. -/
def stores (v : Bytes) (ks : List Bytes) : List Call :=
  ks.map fun k ↦ .addOrReplace k { val? := some v }

/-- The value is small, the keys of one byte are new to the bucket, and all but the last fit below
its threshold. -/
private structure Fillable (c : Cache) (i : Fin kNumBuckets) (v : Bytes) (ks : List Bytes) :
    Prop where
  wf : c.WF
  threshold_lt : c.threshold < 2 ^ 60
  length_lt : v.length < 2 ^ 30
  small : v.length + 13 ≤ c.decreaseBy
  key : ∀ k ∈ ks, c.getIndex k = i ∧ k.length = 1
  nodup : ks.Nodup
  fresh : ∀ k ∈ ks, (c.buckets i).keyToLitr k = none
  memory_le : ((c.buckets i).memory : ℤ) ≤ (c.buckets i).totalUsed
  room : (c.buckets i).totalUsed + ks.length * (v.length + 13) ≤ c.threshold + (v.length + 13)

/-- Storing one of them. -/
private theorem Fillable.exists_step {i : Fin kNumBuckets} {v k : Bytes} {ks : List Bytes}
    (h : c.Fillable i v (k :: ks)) :
    ∃ c', Guarded Step (fun c op ↦ c.Small op ∧ c.HasRoom op) c
        (.addOrReplace k { val? := some v }) c' ∧ c'.Fillable i v ks ∧
      (c'.buckets i).memory = (c.buckets i).memory + (v.length + 1) ∧
      ∀ j ≠ k, (c'.buckets i).keyToLitr j = (c.buckets i).keyToLitr j := by
  obtain ⟨hk, hks⟩ := List.nodup_cons.mp h.nodup
  obtain ⟨hik, hlen⟩ := h.key k List.mem_cons_self
  have hbucket : c.bucketOf k = c.buckets i := by rw [bucketOf, hik]
  have hsize : (Bucket.entryOf k { val? := some v }).size = v.length + 1 := by
    rw [Data.size, Bucket.entryOf, hlen, Nat.add_comm]
    rfl
  have hfits : (Bucket.entryOf k { val? := some v }).Fits := by
    have hlt := h.length_lt
    rw [Data.Fits, hsize]
    omega
  have hroom := h.room
  have hmem := h.memory_le
  rw [List.length_cons, Nat.cast_add, Nat.cast_one, add_one_mul] at hroom
  -- there is room for the others, so the bucket is not above its threshold
  have hspace : (c.buckets i).totalUsed ≤ c.threshold := by
    have hrest : 0 ≤ (ks.length : ℤ) * (v.length + 13) := by positivity
    omega
  obtain ⟨c', hstep, ⟨hhash, hthr, hdec⟩, hb⟩ := h.wf.exists_step_store h.threshold_lt k
    { val? := some v } (hbucket ▸ h.fresh k List.mem_cons_self) (by rw [hbucket]; omega) hfits
  have hb' : c'.buckets i = c'.bucketOf k := by rw [bucketOf, getIndex_congr hhash, hik]
  rw [hbucket, ← hb'] at hb
  have hmemory : (c'.buckets i).memory = (c.buckets i).memory + (v.length + 1) := by
    simp only [hb, hsize]
  have hused : (c'.buckets i).totalUsed = (c.buckets i).totalUsed + (v.length + 13) := by
    rw [hb, Bucket.totalUsed, Bucket.weigh, Bucket.sumOf_append, Bucket.sumOf_singleton,
      hfits.used, hsize, ← Bucket.weigh, ← Bucket.totalUsed]
    push_cast
    ring
  have hkeep : ∀ j ≠ k, (c'.buckets i).keyToLitr j = (c.buckets i).keyToLitr j := by
    intro j hj
    rw [hb]
    exact Function.update_of_ne hj _ _
  refine ⟨c', ⟨hstep, ?_, hfits, fun _ ↦ hbucket ▸ hspace⟩, ?_, hmemory, hkeep⟩
  · have hsmall := h.small
    rw [Small, hlen]
    show 1 + v.length + 12 ≤ _
    omega
  · refine ⟨h.wf.step hstep, hthr ▸ h.threshold_lt, h.length_lt, hdec ▸ h.small, ?_, hks, ?_, ?_,
      ?_⟩
    · intro j hj
      rw [getIndex_congr hhash]
      exact h.key j (List.mem_cons_of_mem _ hj)
    · intro j hj
      rw [hkeep j fun heq ↦ hk (heq ▸ hj)]
      exact h.fresh j (List.mem_cons_of_mem _ hj)
    · omega
    · rw [hused, hthr]
      omega

/-- Storing all of them. -/
private theorem Fillable.exists_run {i : Fin kNumBuckets} {v : Bytes} : ∀ {ks : List Bytes}
    {c : Cache}, c.Fillable i v ks →
    ∃ c', Run (Guarded Step fun c op ↦ c.Small op ∧ c.HasRoom op) c (stores v ks) c' ∧
      (c'.buckets i).memory = (c.buckets i).memory + ks.length * (v.length + 1) ∧
      ∀ j ∉ ks, (c'.buckets i).keyToLitr j = (c.buckets i).keyToLitr j := by
  intro ks
  induction ks with
  | nil => exact fun {c} _ ↦ ⟨c, Run.nil c, by simp, fun _ _ ↦ rfl⟩
  | cons k ks ih =>
    intro c h
    obtain ⟨c₁, hstep, h₁, hmem₁, hkeep₁⟩ := h.exists_step
    obtain ⟨c', hrun, hmem, hkeep⟩ := ih h₁
    refine ⟨c', Run.cons hstep hrun, ?_, fun j hj ↦ ?_⟩
    · rw [hmem, hmem₁, List.length_cons]
      ring
    · rw [List.mem_cons, not_or] at hj
      rw [hkeep j hj.2, hkeep₁ j hj.1]

instance (c : Cache) : ∀ op, Decidable (c.Small op ∧ c.HasRoom op)
  | .addOrReplace k kv => inferInstanceAs (Decidable (k.length + kv.val.length + 12 ≤ c.decreaseBy ∧
      (Bucket.entryOf k kv).size + 12 < 2 ^ 31 ∧
      ((c.bucketOf k).memory ≤ c.threshold → (c.bucketOf k).totalUsed ≤ c.threshold)))
  | .get k _ => inferInstanceAs (Decidable (True ∧
      ((c.bucketOf k).keyToLitr k = none → (c.bucketOf k).totalUsed ≤ c.threshold)))

/-- As many different keys as it takes to fill a bucket. -/
def fillingKeys : List Bytes := (List.range 101).map fun i ↦ [UInt8.ofNat (i + 100)]

/-- A missed lookup, a value that is replaced, and values that fill their bucket. -/
def replaceAndFill : List Call :=
  missAndReplace ++ stores (List.replicate 104844 0) fillingKeys

/-- Afterwards the next call of a new key in this bucket evicts. -/
private theorem exists_run_replaceAndFill : ∃ c,
    Run (Guarded Step fun c op ↦ c.Small op ∧ c.HasRoom op) (new 0 List.length) replaceAndFill c ∧
      c.threshold < (c.bucketOf [255]).memory ∧ (c.bucketOf [255]).keyToLitr [255] = none := by
  have hthr : (new 0 List.length).threshold = 10485760 := by decide +kernel
  have hdec : (new 0 List.length).decreaseBy = 104857 := by decide +kernel
  have hcheck : ∀ (c : Cache) (op : Call),
      decide (c.Small op ∧ c.HasRoom op) = true → c.Small op ∧ c.HasRoom op :=
    fun _ _ ↦ of_decide_eq_true
  -- the first calls are executed, the many that fill the bucket are not
  obtain ⟨c₁, hrun₁, hc₁⟩ := exists_run_of_execChecked hcheck
    (show (execChecked (fun c op ↦ (c.call op).toOption) _ (new 0 List.length)
      missAndReplace).map (fun c ↦ ((c.bucketOf [97]).memory, (c.bucketOf [97]).totalUsed,
        decide (∀ k ∈ [255] :: fillingKeys, (c.bucketOf [97]).keyToLitr k = none)))
          = some (5, 41, true) by decide +kernel)
  simp only [Prod.mk.injEq, decide_eq_true_iff] at hc₁
  obtain ⟨hmem, hused, hfresh⟩ := hc₁
  have hrun₁ : Run (Guarded Step fun c op ↦ c.Small op ∧ c.HasRoom op) (new 0 List.length)
      missAndReplace c₁ := hrun₁.mono fun _ _ _ h ↦ ⟨step_of_toOption h.1, h.2⟩
  obtain ⟨hhash₁, hthr₁, hdec₁⟩ := sameParams_of_run hrun₁.of_guarded
  have hlen : (List.replicate 104844 (0 : UInt8)).length = 104844 := List.length_replicate
  have hkeys : fillingKeys.length = 101 := rfl
  have hfill : c₁.Fillable (c₁.getIndex [97]) (List.replicate 104844 0) fillingKeys := by
    refine ⟨(wf_new _ _).of_run hrun₁.of_guarded, by omega, by rw [hlen]; decide, by omega, ?_,
      by decide +kernel, fun k hk ↦ hfresh k (List.mem_cons_of_mem _ hk), ?_, ?_⟩
    · intro k hk
      obtain ⟨i, -, rfl⟩ := List.mem_map.mp hk
      exact ⟨by rw [getIndex_congr hhash₁, getIndex_congr hhash₁]; rfl, rfl⟩
    · rw [← bucketOf, hmem, hused]
      decide
    · rw [← bucketOf, hused, hlen, hkeys, hthr₁, hthr]
      decide
  obtain ⟨c, hrun, hmemory, hkeep⟩ := hfill.exists_run
  rw [hlen, hkeys, ← bucketOf, hmem] at hmemory
  obtain ⟨hhash, hthr', -⟩ := sameParams_of_run (hrun₁.append hrun).of_guarded
  have hbucket : c.bucketOf [255] = c.buckets (c₁.getIndex [97]) := by
    rw [bucketOf, getIndex_congr hhash, getIndex_congr hhash₁]
    rfl
  refine ⟨c, hrun₁.append hrun, ?_, ?_⟩
  · rw [hbucket, hmemory, hthr', hthr]
    decide
  · rw [hbucket, hkeep _ (by decide +kernel)]
    exact hfresh _ List.mem_cons_self

/-- For the last value the oldest entries of the bucket are evicted. -/
theorem within_capacity_of_hasRoom_evicting : ∃ c c',
    Run (Guarded Step fun c op ↦ c.Small op ∧ c.HasRoom op) (new 0 List.length) replaceAndFill c ∧
      c.Evicts (.addOrReplace [255] { val? := some [52] }) ∧
      Run (Guarded Step fun c op ↦ c.Small op ∧ c.HasRoom op) (new 0 List.length)
        (replaceAndFill ++ [.addOrReplace [255] { val? := some [52] }]) c' ∧
      ∀ i, (c'.buckets i).totalUsed ≤ c'.threshold + c'.decreaseBy := by
  obtain ⟨c, hrun, hlt, hnone⟩ := exists_run_replaceAndFill
  obtain ⟨c', hstep⟩ :=
    exists_step_of_keyToLitr_eq_none (.addOrReplace [255] { val? := some [52] }) hnone
  have hsmall : Small c (.addOrReplace [255] { val? := some [52] }) := by
    obtain ⟨-, -, hdec⟩ := sameParams_of_run hrun.of_guarded
    have hdec₀ : (new 0 List.length).decreaseBy = 104857 := by decide +kernel
    rw [Small, hdec, hdec₀]
    decide
  have hspace : HasRoom c (.addOrReplace [255] { val? := some [52] }) :=
    ⟨by rw [Data.Fits, Data.size]; decide, fun hle ↦ absurd hlt (not_lt.mpr hle)⟩
  have hrun' := hrun.snoc ⟨hstep, hsmall, hspace⟩
  exact ⟨c, c', hrun, hlt, hrun', within_capacity_of_hasRoom _ _ _ _ hrun'⟩

/-! ## Lookups that fill a bucket -/

/-- Lookups of the keys in a list. -/
def lookups (ks : List Bytes) : List Call := ks.map fun k ↦ .get k {}

/-- A lookup of a key that is not registered takes twelve bytes, and registers no other key. -/
private theorem exists_lookup {i : Fin kNumBuckets} {k : Bytes} (hc : c.WF)
    (hidx : ∀ j, c.getIndex j = i) (hk : (c.buckets i).keyToLitr k = none) :
    ∃ c', c.Step (.get k {}) c' ∧ (c'.buckets i).totalUsed = (c.buckets i).totalUsed + 12 ∧
      (∀ j, c'.getIndex j = i) ∧
      ∀ j ≠ k, (c'.buckets i).keyToLitr j = (c.buckets i).keyToLitr j := by
  have hbucket : c.bucketOf k = c.buckets i := by rw [bucketOf, hidx]
  obtain ⟨c', hstep⟩ :=
    exists_step_of_keyToLitr_eq_none (.get k {}) (by rwa [Call.key, hbucket])
  obtain ⟨b, hb, hbuckets, hhash, -⟩ := buckets_of_call hstep
  obtain ⟨r, hget⟩ := exists_get_of_callBucket hb
  obtain ⟨n, hfind⟩ := Bucket.exists_findOrInsertData_of_get hget
  rw [Call.key, hbucket] at hfind
  have hb' : c'.buckets i = b := by rw [hbuckets, hidx, Function.update_self]
  refine ⟨c', hstep, ?_, fun j ↦ ?_, fun j hj ↦ ?_⟩
  · obtain ⟨-, ⟨hn, -⟩ | ⟨-, -, -, hf⟩⟩ := (hc i).weigh_findOrInsertData hfind
    · rcases Bucket.findOrInsertData_cases hfind with ⟨hsome, -⟩ | ⟨-, rfl, -⟩
      · rw [hk] at hsome
        cases hsome
      · exact absurd ((hc i).id_lt _ hn) (lt_irrefl _)
    · rw [hb', Bucket.totalUsed, hf, Data.used_empty, Bucket.totalUsed]
  · rw [getIndex_congr hhash]
    exact hidx j
  · rw [hb']
    rcases Bucket.findOrInsertData_cases hfind with ⟨hsome, -⟩ | ⟨-, -, rfl⟩
    · rw [hk] at hsome
      cases hsome
    · exact Function.update_of_ne hj _ _

/-- Lookups of different keys in one bucket take twelve bytes each. -/
private theorem exists_run_lookups {i : Fin kNumBuckets} : ∀ {ks : List Bytes} {c : Cache}, c.WF →
    (∀ j, c.getIndex j = i) → ks.Nodup → (∀ k ∈ ks, (c.buckets i).keyToLitr k = none) →
    ∃ c', Run Step c (lookups ks) c' ∧ c.SameParams c' ∧
      (c'.buckets i).totalUsed = (c.buckets i).totalUsed + 12 * ks.length := by
  intro ks
  induction ks with
  | nil =>
    intro c _ _ _ _
    exact ⟨c, Run.nil c, ⟨rfl, rfl, rfl⟩, by simp⟩
  | cons k ks ih =>
    intro c hc hidx hnodup hnone
    obtain ⟨hk, hks⟩ := List.nodup_cons.mp hnodup
    obtain ⟨c₁, hstep, hused, hidx₁, hkeep⟩ := exists_lookup hc hidx (hnone k List.mem_cons_self)
    have hnone₁ : ∀ j ∈ ks, (c₁.buckets i).keyToLitr j = none := by
      intro j hj
      rw [hkeep j fun heq ↦ hk (heq ▸ hj)]
      exact hnone j (List.mem_cons_of_mem _ hj)
    obtain ⟨c', hrun, -, hused'⟩ := ih (hc.step hstep) hidx₁ hks hnone₁
    have hrun' := Run.cons hstep hrun
    refine ⟨c', hrun', sameParams_of_run hrun', ?_⟩
    rw [hused', hused, List.length_cons]
    push_cast
    ring

/-- Different keys. -/
def distinctKeys (n : ℕ) : List Bytes := (List.range n).map fun i ↦ List.replicate i 0

theorem nodup_distinctKeys (n : ℕ) : (distinctKeys n).Nodup := by
  refine List.Nodup.map ?_ List.nodup_range
  intro i j h
  simpa using congrArg List.length h

/-- A bucket outgrows its bound: lookups of keys that are not there insert nodes without end. -/
theorem lookups_outgrow_capacity : ∃ c,
    (∀ op ∈ lookups (distinctKeys 900000), Small (new 0 fun _ ↦ 0) op) ∧
      Run Step (new 0 fun _ ↦ 0) (lookups (distinctKeys 900000)) c ∧
      ¬∀ i, (c.buckets i).totalUsed ≤ c.threshold + c.decreaseBy := by
  obtain ⟨c, hrun, ⟨-, hthr, hdec⟩, hused⟩ := exists_run_lookups (c := new 0 fun _ ↦ 0)
    (i := getIndex (new 0 fun _ ↦ 0) []) (wf_new 0 fun _ ↦ 0) (fun _ ↦ rfl)
    (nodup_distinctKeys 900000) fun _ _ ↦ rfl
  refine ⟨c, ?_, hrun, fun h ↦ ?_⟩
  · intro op hop
    obtain ⟨k, -, rfl⟩ := List.mem_map.mp hop
    trivial
  · have hlen : (distinctKeys 900000).length = 900000 := by
      rw [distinctKeys, List.length_map, List.length_range]
    have hthr₀ : (new 0 fun _ ↦ 0).threshold = 10485760 := by decide +kernel
    have hdec₀ : (new 0 fun _ ↦ 0).decreaseBy = 104857 := by decide +kernel
    have hzero : ((new 0 fun _ ↦ 0).bucketOf []).totalUsed = 0 := rfl
    have hle := h (getIndex (new 0 fun _ ↦ 0) [])
    rw [hused, ← bucketOf, hzero, hlen, hthr, hdec, hthr₀, hdec₀] at hle
    norm_num at hle

end Cache

end MemcacheRouter
