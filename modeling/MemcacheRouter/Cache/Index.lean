import MemcacheRouter.Cache.WellFormed
import MemcacheRouter.Foundations.Transition

/-!
# When the index stays intact

The map of a bucket should designate exactly the nodes of its list. `FindOrInsertData` keeps this:
it inserts into both. `DeleteStaleData` finds the map entry to erase through the key stored in the
node, and the empty node that a missed `Get` inserts stores no key: when such a node is evicted its
map entry stays behind and designates an erased node, while the entry of the empty key is erased in
its place.

This is also the only way the index breaks. A history keeps the index intact throughout exactly
when each of its evictions erases only nodes that store the key by which they are designated.
-/

open Transition

namespace MemcacheRouter

namespace Bucket

/-- The map designates exactly the nodes of the list, different keys different nodes. -/
structure IndexIntact (b : Bucket) : Prop where
  live : ∀ k id, b.keyToLitr k = some id → ∃ n ∈ b.accessList, n.id = id
  inj : ∀ k k' id, b.keyToLitr k = some id → b.keyToLitr k' = some id → k = k'
  designated : ∀ n ∈ b.accessList, ∃ k, b.keyToLitr k = some n.id

/-- The nodes the next eviction erases store the keys that designate them. -/
def StaleRegistered (b : Bucket) (decreaseBy : ℕ) : Prop :=
  ∀ n ∈ b.stale decreaseBy, ∀ k, b.keyToLitr k = some n.id → n.data.key = k

/-- The map entry of `k` designates an erased node. -/
def Dangling (b : Bucket) (k : Bytes) : Prop :=
  ∃ id, b.keyToLitr k = some id ∧ ∀ n ∈ b.accessList, n.id ≠ id

theorem indexIntact_empty : IndexIntact {} := ⟨by simp, by simp, by simp⟩

variable {b b' : Bucket} {k j : Bytes} {kv : KeyValue} {n : Node}

theorem IndexIntact.not_dangling (h : b.IndexIntact) : ¬b.Dangling k := by
  rintro ⟨id, hk, hnone⟩
  obtain ⟨n, hn, hid⟩ := h.live k id hk
  exact hnone n hn hid

/-- The index only depends on the map and on the identities of the nodes. -/
theorem IndexIntact.congr (h : b.IndexIntact) (hmap : b'.keyToLitr = b.keyToLitr)
    (hid : ∀ id, (∃ n ∈ b'.accessList, n.id = id) ↔ ∃ n ∈ b.accessList, n.id = id) :
    b'.IndexIntact := by
  refine ⟨?_, ?_, ?_⟩
  · intro k id hk
    rw [hmap] at hk
    exact (hid id).mpr (h.live k id hk)
  · rw [hmap]
    exact h.inj
  · intro n hn
    obtain ⟨m, hm, hmn⟩ := (hid n.id).mp ⟨n, hn, rfl⟩
    obtain ⟨k, hk⟩ := h.designated m hm
    exact ⟨k, by rw [hmap, hk, hmn]⟩

theorem exists_id_write (b : Bucket) (id : ℕ) (d : Data) (i : ℕ) :
    (∃ n ∈ (b.write id d).accessList, n.id = i) ↔ ∃ n ∈ b.accessList, n.id = i := by
  have hmem : ∀ c : Bucket, (∃ n ∈ c.accessList, n.id = i) ↔ i ∈ c.accessList.map Node.id :=
    fun c ↦ List.mem_map.symm
  rw [hmem, hmem, map_id_write]

/-! ## Lookups and insertions -/

theorem IndexIntact.exists_findOrInsertData (h : b.IndexIntact) (k : Bytes) :
    ∃ r, b.findOrInsertData k = .ok r := by
  cases hf : b.findOrInsertData k with
  | ok r => exact ⟨r, rfl⟩
  | error e =>
    obtain ⟨id, hk, hid⟩ := findOrInsertData_eq_error_iff.mp ⟨e, hf⟩
    exact absurd ⟨id, hk, node?_eq_none_iff.mp hid⟩ h.not_dangling

theorem IndexIntact.findOrInsertData (hb : b.WF) (h : b.IndexIntact)
    (hfind : b.findOrInsertData k = .ok (b', n)) : b'.IndexIntact := by
  rcases findOrInsertData_cases hfind with ⟨-, hn, rfl⟩ | ⟨hk, rfl, rfl⟩
  · refine h.congr rfl fun id ↦ ?_
    simp only [hb.mem_moveToBack hn]
  · refine ⟨?_, (hb.insertEmpty hk).litr_inj, ?_⟩
    · intro j id hj
      rcases register_cases hj with ⟨-, rfl⟩ | hj
      · exact ⟨⟨b.nextId, {}⟩, by simp, rfl⟩
      · obtain ⟨m, hm, rfl⟩ := h.live j id hj
        exact ⟨m, List.mem_append_left _ hm, rfl⟩
    · intro m hm
      rcases List.mem_append.mp hm with hm | hm
      · obtain ⟨j, hj⟩ := h.designated m hm
        exact ⟨j, register_of_eq_some hk hj⟩
      · rw [List.mem_singleton.mp hm]
        exact ⟨k, Function.update_self ..⟩

/-- An entry that dangles goes on dangling: new nodes get new identities. -/
theorem Dangling.findOrInsertData (hb : b.WF) (h : b.Dangling j)
    (hfind : b.findOrInsertData k = .ok (b', n)) : b'.Dangling j := by
  obtain ⟨id, hj, hnone⟩ := h
  rcases findOrInsertData_cases hfind with ⟨-, hn, rfl⟩ | ⟨hk, rfl, rfl⟩
  · refine ⟨id, hj, fun m hm ↦ hnone m ?_⟩
    exact (hb.mem_moveToBack hn).mp hm
  · refine ⟨id, register_of_eq_some hk hj, ?_⟩
    intro m hm
    rcases List.mem_append.mp hm with hm | hm
    · exact hnone m hm
    · have hlt := hb.litr_lt j id hj
      rw [List.mem_singleton.mp hm]
      exact hlt.ne'

/-! ## Evictions -/

theorem IndexIntact.deleteStaleData (hb : b.WF) (h : b.IndexIntact) {decreaseBy : ℕ}
    (hreg : b.StaleRegistered decreaseBy) : (b.deleteStaleData decreaseBy).IndexIntact := by
  refine ⟨?_, (hb.deleteStaleData decreaseBy).litr_inj, ?_⟩
  · intro k id hk
    obtain ⟨hk, hkeep⟩ := keyToLitr_deleteStaleData_eq_some.mp hk
    obtain ⟨n, hn, rfl⟩ := h.live k id hk
    rcases mem_accessList_iff_stale.mp hn with hs | hs
    · exact absurd (hreg n hs k hk) (hkeep n hs)
    · exact ⟨n, hs, rfl⟩
  · intro n hn
    obtain ⟨k, hk⟩ := h.designated n (mem_accessList_iff_stale.mpr (Or.inr hn))
    refine ⟨k, keyToLitr_deleteStaleData_eq_some.mpr ⟨hk, ?_⟩⟩
    -- an erased node storing `k` would be designated by `k`, like `n`
    intro m hm hkey
    obtain ⟨j, hj⟩ := h.designated m (mem_accessList_iff_stale.mpr (Or.inl hm))
    have hjk : j = k := (hreg m hm j hj).symm.trans hkey
    rw [hjk, hk] at hj
    exact hb.not_mem_of_mem_stale hm hn (Option.some.inj hj).symm

/-- An eviction that erases a node under another key than its own leaves its entry dangling. -/
theorem WF.dangling_deleteStaleData (hb : b.WF) {decreaseBy : ℕ} (hn : n ∈ b.stale decreaseBy)
    (hk : b.keyToLitr k = some n.id) (hkey : n.data.key ≠ k) :
    (b.deleteStaleData decreaseBy).Dangling k := by
  have hmem : ∀ m ∈ b.stale decreaseBy, m ∈ b.accessList := fun m hm ↦
    mem_accessList_iff_stale.mpr (Or.inl hm)
  have hempty : n.data.key = [] :=
    ((hb.stored k n (hmem n hn) hk).resolve_left hkey).1
  refine ⟨n.id, keyToLitr_deleteStaleData_eq_some.mpr ⟨hk, ?_⟩, ?_⟩
  · intro m hm hmk
    have hne : m.data.key ≠ [] := by
      rw [hmk]
      rintro rfl
      exact hkey hempty
    have hreg := hb.registered m (hmem m hm) hne
    rw [hmk, hk] at hreg
    obtain rfl := hb.eq_of_id (hmem n hn) (hmem m hm) (Option.some.inj hreg)
    exact hkey hmk
  · exact fun m hm ↦ (hb.not_mem_of_mem_stale hn hm).symm

theorem IndexIntact.makeRoom (hb : b.WF) (h : b.IndexIntact) {threshold decreaseBy : ℕ}
    (hreg : threshold < b.memory → b.StaleRegistered decreaseBy) :
    (b.makeRoom threshold decreaseBy).IndexIntact := by
  rw [Bucket.makeRoom]
  split
  · next hlt => exact h.deleteStaleData hb (hreg hlt)
  · exact h

/-! ## The two operations -/

theorem IndexIntact.get (hb : b.WF) (h : b.IndexIntact) (k : Bytes) (kv : KeyValue) :
    ∃ b' r, b.get k kv = .ok (b', r) ∧ b'.IndexIntact := by
  obtain ⟨⟨b', n⟩, hfind⟩ := h.exists_findOrInsertData k
  have hb' := h.findOrInsertData hb hfind
  rw [Bucket.get, hfind]
  by_cases hempty : n.data.value = []
  · exact ⟨b', _, if_pos hempty, hb'⟩
  · exact ⟨b', _, if_neg hempty, hb'⟩

theorem IndexIntact.addOrReplace (hb : b.WF) (h : b.IndexIntact) {threshold decreaseBy : ℕ}
    (hreg : threshold < b.memory → b.StaleRegistered decreaseBy) (k : Bytes) (kv : KeyValue) :
    ∃ b', b.addOrReplace threshold decreaseBy k kv = .ok b' ∧ b'.IndexIntact := by
  have hroom := h.makeRoom hb hreg
  have hwf := hb.makeRoom threshold decreaseBy
  obtain ⟨⟨b', n⟩, hfind⟩ := hroom.exists_findOrInsertData k
  rw [Bucket.addOrReplace, hfind]
  refine ⟨_, rfl, (hroom.findOrInsertData hwf hfind).congr rfl fun id ↦ ?_⟩
  exact exists_id_write b' n.id (entryOf k kv) id

/-- The converse: an index that is intact after the call was not broken by its eviction. -/
theorem staleRegistered_of_addOrReplace (hb : b.WF) {threshold decreaseBy : ℕ}
    (h : b.addOrReplace threshold decreaseBy k kv = .ok b') (hb' : b'.IndexIntact)
    (hlt : threshold < b.memory) : b.StaleRegistered decreaseBy := by
  intro n hn j hj
  by_contra hkey
  have hdang := hb.dangling_deleteStaleData hn hj hkey
  rw [Bucket.addOrReplace, Bucket.makeRoom, if_pos hlt] at h
  split at h
  · cases h
  · next b₁ m hfind =>
    cases h
    obtain ⟨id, hid, hnone⟩ := hdang.findOrInsertData (hb.deleteStaleData decreaseBy) hfind
    refine hb'.not_dangling ⟨id, hid, ?_⟩
    intro i hi hi'
    obtain ⟨i₁, hi₁, hid₁⟩ := (exists_id_write b₁ m.id (entryOf k kv) id).mp ⟨i, hi, hi'⟩
    exact hnone i₁ hi₁ hid₁

end Bucket

/-! ## Histories of the whole cache -/

namespace Cache

/-- The call evicts nothing, or only nodes that store the key by which they are designated. -/
def EvictsRegistered (c : Cache) : Call → Prop
  | .addOrReplace k _ =>
    c.threshold < (c.bucketOf k).memory → (c.bucketOf k).StaleRegistered c.decreaseBy
  | .get _ _ => True

/-- The invariant of the histories below. -/
def Intact (c : Cache) : Prop := ∀ i, (c.buckets i).WF ∧ (c.buckets i).IndexIntact

variable {c c' : Cache} {op : Call}

theorem WF.step (hc : c.WF) (h : c.Step op c') : c'.WF := by
  rcases op with ⟨k, kv⟩ | ⟨k, kv⟩
  · exact (hc.addOrReplace h).1
  · obtain ⟨hit, kv', hget⟩ := exists_get_of_call h
    exact (hc.get hget).1

theorem WF.of_run {ops : List Call} (hc : c.WF) (hrun : Run Step c ops c') : c'.WF :=
  hrun.invariant hc fun _ _ _ hw hs ↦ hw.step hs

/-- A call that is executed. -/
theorem step_of_toOption (h : (c.call op).toOption = some c') : c.Step op c' := by
  rw [Step]
  cases hcall : c.call op with
  | error e =>
    rw [hcall] at h
    cases h
  | ok c₁ =>
    rw [hcall] at h
    rw [Option.some.inj h]

theorem functional_step : Functional Step := by
  intro c op c₁ c₂ h₁ h₂
  exact Except.ok.inj (h₁.symm.trans h₂)

theorem sameParams_of_run {ops : List Call} (hrun : Run Step c ops c') : c.SameParams c' := by
  refine hrun.invariant ⟨rfl, rfl, rfl⟩ ?_
  rintro c₁ op c₂ ⟨hhash, hthr, hdec⟩ hstep
  obtain ⟨-, -, -, hhash', hthr', hdec'⟩ := buckets_of_call hstep
  exact ⟨hhash'.trans hhash, hthr'.trans hthr, hdec'.trans hdec⟩

theorem intact_new (capacity : UInt64) (strHash : Bytes → ℕ) : (new capacity strHash).Intact :=
  fun _ ↦ ⟨Bucket.wf_empty, Bucket.indexIntact_empty⟩

theorem Intact.wf (h : c.Intact) : c.WF := fun i ↦ (h i).1

/-- The bucket a call works on stays intact if its eviction is harmless. -/
theorem Intact.callBucket (h : c.Intact) (hreg : c.EvictsRegistered op) :
    ∃ b, c.callBucket (c.bucketOf op.key) op = .ok b ∧ b.IndexIntact := by
  cases op with
  | addOrReplace k kv => exact (h _).2.addOrReplace (h _).1 hreg k kv
  | get k kv =>
    obtain ⟨b, r, hb, hintact⟩ := (h (c.getIndex k)).2.get (h _).1 k kv
    refine ⟨b, ?_, hintact⟩
    rw [Cache.callBucket, Call.key, bucketOf, hb]
    rfl

theorem exists_step_of_callBucket {b : Bucket}
    (h : c.callBucket (c.bucketOf op.key) op = .ok b) : ∃ c', c.Step op c' := by
  cases op with
  | addOrReplace k kv =>
    rw [Cache.callBucket, Call.key] at h
    simp only [Step, call, addOrReplace, h]
    exact ⟨_, rfl⟩
  | get k kv =>
    rw [Cache.callBucket, Call.key] at h
    cases hget : (c.bucketOf k).get k kv with
    | error e =>
      rw [hget] at h
      cases h
    | ok r =>
      simp only [Step, call, Cache.get, hget]
      exact ⟨_, rfl⟩

/-- A call with a key that is not registered returns. -/
theorem exists_step_of_keyToLitr_eq_none (op : Call)
    (h : (c.bucketOf op.key).keyToLitr op.key = none) : ∃ c', c.Step op c' := by
  suffices hok : ∃ b, c.callBucket (c.bucketOf op.key) op = .ok b by
    obtain ⟨b, hb⟩ := hok
    exact exists_step_of_callBucket hb
  rcases op with ⟨k, kv⟩ | ⟨k, kv⟩ <;> rw [Call.key] at h
  · have hroom : ((c.bucketOf k).makeRoom c.threshold c.decreaseBy).keyToLitr k = none := by
      rw [Bucket.makeRoom]
      split
      · rw [Bucket.keyToLitr_deleteStaleData, Bucket.eraseKeys, h]
        exact ite_self _
      · exact h
    rw [Cache.callBucket, Call.key, Bucket.addOrReplace, Bucket.findOrInsertData, hroom]
    exact ⟨_, rfl⟩
  · rw [Cache.callBucket, Call.key, Bucket.get, Bucket.findOrInsertData, h]
    exact ⟨_, rfl⟩

/-- **One step**: a harmless call returns and keeps the index. -/
theorem Intact.exists_step (h : c.Intact) (op : Call) (hreg : c.EvictsRegistered op) :
    ∃ c', c.Step op c' ∧ c'.Intact := by
  obtain ⟨b, hb, hintact⟩ := h.callBucket hreg
  obtain ⟨c', hstep⟩ := exists_step_of_callBucket hb
  have hindex : ∀ i, (c'.buckets i).IndexIntact := by
    refine forall_buckets_of_call (fun i ↦ (h i).2) hstep fun b' hb' ↦ ?_
    obtain rfl : b = b' := Except.ok.inj (hb.symm.trans hb')
    exact hintact
  exact ⟨c', hstep, fun i ↦ ⟨h.wf.step hstep i, hindex i⟩⟩

/-- **One step, conversely.** -/
theorem evictsRegistered_of_step (hc : c.WF) (hstep : c.Step op c')
    (h : ∀ i, (c'.buckets i).IndexIntact) : c.EvictsRegistered op := by
  cases op with
  | get k kv => trivial
  | addOrReplace k kv =>
    obtain ⟨b, hb, hbuckets, -⟩ := buckets_of_call hstep
    refine Bucket.staleRegistered_of_addOrReplace (hc _) hb ?_
    have hintact := h (c.getIndex k)
    rwa [hbuckets, Call.key, Function.update_self] at hintact

theorem Intact.of_run {ops : List Call} (hrun : Run (Guarded Step EvictsRegistered) c ops c')
    (h : c.Intact) : c'.Intact := by
  refine hrun.invariant h ?_
  rintro c₁ op c₂ h₁ ⟨hstep, hreg⟩
  obtain ⟨c₃, hstep', h₃⟩ := h₁.exists_step op hreg
  rwa [functional_step hstep hstep']

/-- **The index is intact exactly as long as evictions are harmless.** Every prefix of a history
returns with an intact index if and only if no call of it evicts a node whose stored key is not
the one that designates it, that is an empty node that a missed `Get` of a non-empty key left. -/
theorem indexIntact_iff_evictsRegistered (capacity : UInt64) (strHash : Bytes → ℕ)
    (ops : List Call) :
    (∀ ops', ops' <+: ops → ∃ c, Run Step (new capacity strHash) ops' c ∧
        ∀ i, (c.buckets i).IndexIntact) ↔
      ∃ c, Run (Guarded Step EvictsRegistered) (new capacity strHash) ops c := by
  constructor
  · intro h
    -- The prefixes without the last call give a guarded run; its state is the one of the real run.
    induction ops using List.reverseRecOn with
    | nil => exact ⟨_, Run.nil _⟩
    | append_singleton ops op ih =>
      obtain ⟨c, hc⟩ := ih fun ops' hpre ↦ h ops' (hpre.trans ⟨[op], rfl⟩)
      obtain ⟨c', hrun, hintact⟩ := h (ops ++ [op]) (List.prefix_refl _)
      obtain ⟨c₀, hrun₀, hstep⟩ := hrun.of_concat
      obtain rfl := hrun₀.eq_of_functional functional_step hc.of_guarded
      have hwf := (intact_new capacity strHash).wf
      have hwf₀ := hwf.of_run hrun₀
      exact ⟨c', hc.snoc ⟨hstep, evictsRegistered_of_step hwf₀ hstep hintact⟩⟩
  · rintro ⟨c, hrun⟩ ops' ⟨rest, rfl⟩
    obtain ⟨c₁, h₁, -⟩ := hrun.of_append
    exact ⟨c₁, h₁.of_guarded, fun i ↦ (Intact.of_run h₁ (intact_new capacity strHash) i).2⟩

/-! ## A history that breaks the index

One lookup that misses, one value large enough to fill its bucket, and the next call evicts the
empty node of the lookup. -/

/-- A lookup that misses, and a value that fills the bucket. -/
def fillingCalls (v : Bytes) : List Call :=
  [.get [97] {}, .addOrReplace [98] { val? := some v }]

/-- A call whose bucket is known leads to a cache whose bucket is known. -/
theorem exists_step_bucketOf {c : Cache} (op : Call) {b' : Bucket} (j : Bytes)
    (h : c.callBucket (c.bucketOf op.key) op = .ok b') (hj : c.getIndex j = c.getIndex op.key) :
    ∃ c', c.Step op c' ∧ c'.bucketOf j = b' ∧ c.SameParams c' := by
  obtain ⟨c', hstep⟩ := exists_step_of_callBucket h
  obtain ⟨b₁, hb₁, hbuckets, hparams⟩ := buckets_of_call hstep
  obtain rfl : b' = b₁ := Except.ok.inj (h.symm.trans hb₁)
  refine ⟨c', hstep, ?_, hparams⟩
  rw [bucketOf_update hparams.1 hbuckets, if_pos hj]

/-- Afterwards the empty node of the missed lookup is in front, and the bucket is above its
threshold. -/
private theorem exists_run_fillingCalls {v : Bytes} (hv : v.length = 10 <<< 20) :
    ∃ c, Run Step (new 0 fun _ ↦ 0) (fillingCalls v) c ∧
    c.threshold < (c.bucketOf [99]).memory ∧ (c.bucketOf [99]).keyToLitr [97] = some 0 ∧
    (c.bucketOf [99]).accessList.head? = some ⟨0, {}⟩ ∧
    (c.bucketOf [99]).keyToLitr [99] = none := by
  obtain ⟨c₁, h₁, hb₁, hhash₁, hthr₁, -⟩ :=
    exists_step_bucketOf (c := new 0 fun _ ↦ 0) (.get [97] {}) [98] rfl rfl
  have hroom : (c₁.bucketOf [98]).makeRoom c₁.threshold c₁.decreaseBy = c₁.bucketOf [98] := by
    rw [Bucket.makeRoom, hb₁]
    exact if_neg (Nat.not_lt_zero _)
  obtain ⟨c₂, h₂, hb₂, -, hthr₂, -⟩ := exists_step_bucketOf (c := c₁)
    (.addOrReplace [98] { val? := some v }) [99]
    (by rw [Cache.callBucket, Call.key, Bucket.addOrReplace, hroom, hb₁]; rfl)
    (by rw [getIndex_congr hhash₁, getIndex_congr hhash₁]; rfl)
  refine ⟨c₂, Run.cons h₁ (Run.single h₂), ?_, ?_, ?_, ?_⟩
  · -- the empty node was never added to the counter, which wraps when it is subtracted
    have hempty : Data.used {} = 12 := Data.used_eq (d := {}) (by decide)
    have hfull : Data.used (Bucket.entryOf [98] { val? := some v }) = 10485773 := by
      rw [Data.used_eq] <;> simp [Bucket.entryOf, KeyValue.val, hv]
    have hthr : (new 0 fun _ ↦ 0).threshold = 10485760 := by decide +kernel
    have hmem := cast_toUInt64 (toUInt64 (0 - 12) + 10485773)
    have hmem' := cast_toUInt64 (0 - 12)
    rw [hb₂, hthr₂, hthr₁, hthr]
    change 10485760 < toUInt64 (toUInt64 (0 - Data.used {}) +
      Data.used (Bucket.entryOf [98] { val? := some v }))
    rw [hempty, hfull]
    omega
  all_goals
    rw [hb₂]
    rfl

/-- The index is not intact after every history: the next call leaves the entry of the looked-up
key designating an erased node. -/
theorem eviction_breaks_index : ∃ c,
    Run Step (new 0 fun _ ↦ 0)
        (fillingCalls (List.replicate (10 <<< 20) 0) ++ [.addOrReplace [99] {}]) c ∧
      ¬∀ i, (c.buckets i).IndexIntact := by
  obtain ⟨c, hrun, hlt, ha, hhead, hc⟩ :=
    exists_run_fillingCalls (List.length_replicate (n := 10 <<< 20) (a := (0 : UInt8)))
  have hwf := (wf_new _ _).of_run hrun
  obtain ⟨c', hstep⟩ := exists_step_of_keyToLitr_eq_none (.addOrReplace [99] {}) hc
  refine ⟨c', hrun.snoc hstep, fun hintact ↦ ?_⟩
  have hreg := evictsRegistered_of_step hwf hstep hintact hlt
  obtain ⟨rest, hlist⟩ : ∃ rest, (c.bucketOf [99]).accessList = ⟨0, {}⟩ :: rest :=
    List.head?_eq_some_iff.mp hhead
  have hstale : (⟨0, {}⟩ : Node) ∈ (c.bucketOf [99]).stale c.decreaseBy := by
    rw [Bucket.stale, hlist, Bucket.staleNodes]
    exact List.mem_cons_self
  have hkey := hreg _ hstale [97] ha
  cases hkey

end Cache

end MemcacheRouter
