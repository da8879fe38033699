import MemcacheRouter.Cache.Accounting

/-!
# A hit returns the latest write

Nodes are shared cells that are reached through stored iterators, and evictions may leave iterators
behind. Still no lookup reaches a foreign or an outdated entry: read as a map that may forget, the
cache holds for every key either nothing or what the last `AddOrReplace` of this key stored.
-/

open Transition

namespace MemcacheRouter

namespace Cache

/-- The last value that the history stores under `k`. -/
def Latest (ops : List Call) (k : Bytes) (last : KeyValue) : Prop :=
  ∃ before after, ops = before ++ .addOrReplace k last :: after ∧
    ∀ kv, Call.addOrReplace k kv ∉ after

variable {c c' : Cache} {op : Call} {ops : List Call} {k : Bytes} {last kv kv' : KeyValue}

theorem latest_concat (ops : List Call) (k : Bytes) (kv : KeyValue) :
    Latest (ops ++ [.addOrReplace k kv]) k kv :=
  ⟨ops, [], rfl, fun _ ↦ List.not_mem_nil⟩

theorem Latest.concat_of_ne (h : Latest ops k last) (hop : ∀ kv, op ≠ .addOrReplace k kv) :
    Latest (ops ++ [op]) k last := by
  obtain ⟨before, after, rfl, hafter⟩ := h
  refine ⟨before, after ++ [op], by simp, fun kv hmem ↦ ?_⟩
  rcases List.mem_append.mp hmem with hmem | hmem
  · exact hafter kv hmem
  · exact hop kv (List.mem_singleton.mp hmem).symm

/-- The entries that a history may have left: each is the last one stored under its key. -/
def RemembersLatest (ops : List Call) (c : Cache) : Prop :=
  LossyMap.Forall (fun k d ↦ ∃ last, Latest ops k last ∧ d = Bucket.entryOf k last) c.view

/-- **One call.** A lookup changes nothing that is remembered, and a write replaces what was
remembered of its key. -/
theorem RemembersLatest.step (hc : c.WF) (h : RemembersLatest ops c) (hstep : c.Step op c') :
    RemembersLatest (ops ++ [op]) c' := by
  rcases op with ⟨k, kv⟩ | ⟨k, kv⟩
  · obtain ⟨-, hput⟩ := hc.addOrReplace hstep
    refine LossyMap.Forall.put h hput ?_ ?_
    · rintro j hj d ⟨last, hlast, rfl⟩
      refine ⟨last, hlast.concat_of_ne fun kv' heq ↦ hj ?_, rfl⟩
      exact (Call.addOrReplace.inj heq).1.symm
    · intro d hd
      obtain ⟨-, rfl⟩ := Bucket.storedEntry_eq_some hd
      exact ⟨kv, latest_concat ops k kv, rfl⟩
  · obtain ⟨hit, kv', hget⟩ := exists_get_of_call hstep
    obtain ⟨-, hview, -⟩ := hc.get hget
    intro j d hd
    rw [hview j] at hd
    obtain ⟨last, hlast, rfl⟩ := h j d hd
    exact ⟨last, hlast.concat_of_ne fun _ ↦ by simp, rfl⟩

/-- **Every history.** -/
theorem remembersLatest_of_run {capacity : UInt64} {strHash : Bytes → ℕ}
    (hrun : Run Step (new capacity strHash) ops c) : RemembersLatest ops c := by
  induction hrun with
  | nil =>
    intro k d hd
    cases hd
  | snoc hrun hstep ih =>
    have hwf := (wf_new capacity strHash).of_run hrun
    exact ih.step hwf hstep

/-- **A hit returns the latest write.** After any history that used no erased node, a `Get` that
returns true fills in the value, flags and token of the last `AddOrReplace` of its key, and there
was one. -/
theorem hit_returns_latest (capacity : UInt64) (strHash : Bytes → ℕ) (ops : List Call)
    (c c' : Cache) (k : Bytes) (kv kv' : KeyValue) (hrun : Run Step (new capacity strHash) ops c)
    (hget : c.get k kv = .ok (c', true, kv')) :
    ∃ last, Latest ops k last ∧ kv' = { kv with
      val? := some last.val, flags? := some last.flags, cas? := some last.cas } := by
  have hwf := (wf_new capacity strHash).of_run hrun
  obtain ⟨-, -, ⟨hmiss, -⟩ | ⟨d, -, hd, rfl⟩⟩ := hwf.get hget
  · cases hmiss
  · obtain ⟨last, hlast, rfl⟩ := remembersLatest_of_run hrun k d hd
    exact ⟨last, hlast, rfl⟩

/-! ## A history with evictions -/

/-- A lookup of a key that the cache holds hits. -/
theorem WF.exists_hit (hc : c.WF) {d : Data} (h : c.view k = some d) (kv : KeyValue) :
    ∃ c' kv', c.get k kv = .ok (c', true, kv') := by
  have hok : ∃ r, (c.bucketOf k).findOrInsertData k = .ok r := by
    cases hfind : (c.bucketOf k).findOrInsertData k with
    | ok r => exact ⟨r, rfl⟩
    | error e =>
      obtain ⟨id, hk, hnone⟩ := Bucket.findOrInsertData_eq_error_iff.mp ⟨e, hfind⟩
      obtain ⟨n, hn, hk', -⟩ := (hc _).view_eq_some_iff.mp h
      obtain rfl := Option.some.inj (hk.symm.trans hk')
      exact absurd rfl (Bucket.node?_eq_none_iff.mp hnone n hn)
  obtain ⟨⟨b, n⟩, hfind⟩ := hok
  have hcall : ∃ b', c.callBucket (c.bucketOf k) (.get k kv) = .ok b' := by
    rw [callBucket, Bucket.get, hfind]
    by_cases hempty : n.data.value = []
    · exact ⟨b, by simp [hempty, Except.map]⟩
    · exact ⟨b, by simp [hempty, Except.map]⟩
  obtain ⟨b', hb'⟩ := hcall
  obtain ⟨c', hstep⟩ : ∃ c', c.Step (.get k kv) c' := exists_step_of_callBucket hb'
  obtain ⟨hit, kv', hget⟩ := exists_get_of_call hstep
  obtain ⟨-, -, ⟨-, -, hnone⟩ | ⟨d', rfl, -⟩⟩ := hc.get hget
  · rw [h] at hnone
    cases hnone
  · exact ⟨c', kv', hget⟩

/-- The next call under a new key evicts the front node, and with it the entry of its key. -/
private theorem keyToLitr_of_evicting {j : Bytes} {n : Node}
    (hhead : (c.bucketOf k).accessList.head? = some n) (hkey : n.data.key = j) (hjk : j ≠ k)
    (hlt : c.threshold < (c.bucketOf k).memory) (hstep : c.Step (.addOrReplace k kv) c') :
    (c'.bucketOf k).keyToLitr j = none := by
  obtain ⟨b, hb, hbuckets, hhash, -⟩ := buckets_of_call hstep
  have hroom : ((c.bucketOf k).makeRoom c.threshold c.decreaseBy).keyToLitr j = none := by
    rw [Bucket.makeRoom, if_pos hlt, Bucket.keyToLitr_deleteStaleData, Bucket.eraseKeys, if_pos]
    refine List.mem_map.mpr ⟨n, ?_, hkey⟩
    obtain ⟨rest, hlist⟩ := List.head?_eq_some_iff.mp hhead
    rw [Bucket.stale, hlist, Bucket.staleNodes]
    exact List.mem_cons_self
  rw [bucketOf_update hhash hbuckets, Call.key, if_pos rfl]
  rw [callBucket, Call.key, Bucket.addOrReplace] at hb
  split at hb
  · cases hb
  · next b₁ m hfind =>
    obtain rfl := Except.ok.inj hb
    show b₁.keyToLitr j = none
    rcases Bucket.findOrInsertData_cases hfind with ⟨-, -, rfl⟩ | ⟨-, -, rfl⟩
    · exact hroom
    · exact (Function.update_of_ne hjk _ _).trans hroom

/-- Afterwards the bucket of the keys of one byte is full, with the value of `[98]` in front. -/
private theorem exists_run_missAndReplace {v : Bytes} (hv : v.length = 10 <<< 20) : ∃ c,
    Run Step (new 0 List.length) (missAndReplace ++ [.addOrReplace [100] { val? := some v }]) c ∧
      c.threshold < (c.bucketOf [101]).memory ∧ (c.bucketOf [101]).keyToLitr [101] = none ∧
      (c.bucketOf [101]).accessList.head?
        = some ⟨1, Bucket.entryOf [98] { val? := some [50, 50] }⟩ := by
  have hthr : (new 0 List.length).threshold = 10485760 := by decide +kernel
  obtain ⟨c₁, hrun₁, hc₁⟩ := exists_run_of_exec
    (show (exec (fun c op ↦ (c.call op).toOption) (new 0 List.length) missAndReplace).map (fun c ↦
      ((c.bucketOf [100]).memory, (c.bucketOf [100]).keyToLitr [100],
        (c.bucketOf [100]).keyToLitr [101], (c.bucketOf [100]).accessList.head?))
          = some (5, none, none,
              some ⟨1, Bucket.entryOf [98] { val? := some [50, 50] }⟩) by decide +kernel)
  simp only [Prod.mk.injEq] at hc₁
  obtain ⟨hmem, hnone, hnone', hhead⟩ := hc₁
  have hrun₁ : Run Step (new 0 List.length) missAndReplace c₁ :=
    hrun₁.mono fun _ _ _ h ↦ step_of_toOption h
  obtain ⟨hhash₁, hthr₁, -⟩ := sameParams_of_run hrun₁
  have hsize : (Bucket.entryOf [100] { val? := some v }).size = 10485761 := by
    simp [Data.size, Bucket.entryOf, KeyValue.val, hv]
  have hwf₁ := (wf_new 0 List.length).of_run hrun₁
  obtain ⟨c, hstep, ⟨hhash, hthr', -⟩, hb⟩ := hwf₁.exists_step_store (by omega) [100]
    { val? := some v } hnone (by omega) (by rw [Data.Fits, hsize]; decide)
  -- keys of one byte share their bucket
  have hsame : c.bucketOf [101] = c.bucketOf [100] := by
    rw [bucketOf, bucketOf, getIndex_congr hhash, getIndex_congr hhash, getIndex_congr hhash₁,
      getIndex_congr hhash₁]
    rfl
  obtain ⟨rest, hlist⟩ := List.head?_eq_some_iff.mp hhead
  refine ⟨c, hrun₁.snoc hstep, ?_, ?_, ?_⟩
  · rw [hsame, hb, hmem, hsize, hthr', hthr₁, hthr]
    show 10485760 < 5 + 10485761
    decide
  · have hne : ([101] : Bytes) ≠ [100] := by decide
    simp only [hsame, hb, Function.update_of_ne hne, hnone']
  · rw [hsame, hb, hlist]
    rfl

/-- The value of `[98]` is replaced, evicted and stored again, and then looked up. -/
theorem hit_returns_latest_evicted : ∃ c c' kv',
    Run Step (new 0 List.length)
        (missAndReplace ++ [.addOrReplace [100] { val? := some (List.replicate (10 <<< 20) 0) }] ++
          [.addOrReplace [101] { val? := some [52] }, .addOrReplace [98] { val? := some [53] }]) c ∧
      c.get [98] {} = .ok (c', true, kv') ∧
      ∃ last, Latest
        (missAndReplace ++ [.addOrReplace [100] { val? := some (List.replicate (10 <<< 20) 0) }] ++
          [.addOrReplace [101] { val? := some [52] }, .addOrReplace [98] { val? := some [53] }])
        [98] last ∧ kv' =
          { val? := some last.val, flags? := some last.flags, cas? := some last.cas } := by
  obtain ⟨c₁, hrun, hlt, hnone, hhead⟩ :=
    exists_run_missAndReplace (List.length_replicate (n := 10 <<< 20) (a := (0 : UInt8)))
  obtain ⟨c₂, hstep₂⟩ :=
    exists_step_of_keyToLitr_eq_none (.addOrReplace [101] { val? := some [52] }) hnone
  have hgone := keyToLitr_of_evicting hhead rfl (by decide) hlt hstep₂
  have hsame : c₂.bucketOf [98] = c₂.bucketOf [101] := by
    obtain ⟨hhash, -⟩ := sameParams_of_run (hrun.snoc hstep₂)
    rw [bucketOf, bucketOf, getIndex_congr hhash, getIndex_congr hhash]
    rfl
  obtain ⟨c₃, hstep₃⟩ := exists_step_of_keyToLitr_eq_none
    (.addOrReplace [98] { val? := some [53] }) (by rw [Call.key, hsame]; exact hgone)
  have hrun' := hrun.append (Run.cons hstep₂ (Run.single hstep₃))
  have hwf₂ := (wf_new 0 List.length).of_run (hrun.snoc hstep₂)
  obtain ⟨hwf₃, hput⟩ := hwf₂.addOrReplace hstep₃
  obtain ⟨c₄, kv', hget⟩ := hwf₃.exists_hit hput.same {}
  exact ⟨c₃, c₄, kv', hrun', hget, hit_returns_latest _ _ _ _ _ _ _ _ hrun' hget⟩

end Cache

end MemcacheRouter
