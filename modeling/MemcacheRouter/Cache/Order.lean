import MemcacheRouter.Cache.Accounting
import MemcacheRouter.Foundations.Recency

/-!
# Access order is LRU order

The list is never sorted: a node is spliced to the back when it is reached through the map, a new
one is pushed there, and an eviction takes nodes from the front. The access log of a history lists
the node that each call reached, so that the time of an access is the number of the call, and in
every bucket the list is in the order of the last accesses.
-/

open Transition Recency

namespace MemcacheRouter

namespace Bucket

variable {b b' : Bucket} {k : Bytes} {n : Node}

/-- The identities of the nodes, in the order of the list. -/
def ids (b : Bucket) : List ℕ := b.accessList.map Node.id

/-- **What `FindOrInsertData` does to the order**: the node it returns is now at the back. -/
theorem WF.ids_findOrInsertData (hb : b.WF) (h : b.findOrInsertData k = .ok (b', n)) :
    b'.ids = b.ids.filter (· ≠ n.id) ++ [n.id] := by
  rcases findOrInsertData_cases h with ⟨-, -, rfl⟩ | ⟨-, rfl, rfl⟩
  · rw [ids, ids, List.map_append, List.map_singleton, List.filter_map]
    congr 2
    refine List.filter_congr fun m _ ↦ ?_
    rw [Function.comp_apply, Bool.eq_iff_iff, bne_iff_ne, decide_eq_true_iff]
  · have hkeep : b.ids.filter (· ≠ b.nextId) = b.ids := by
      refine List.filter_eq_self.mpr fun id hid ↦ ?_
      obtain ⟨m, hm, rfl⟩ := List.mem_map.mp hid
      exact decide_eq_true (hb.id_lt m hm).ne
    rw [hkeep, ids, ids, List.map_append, List.map_singleton]

theorem ids_makeRoom_sublist (b : Bucket) (threshold decreaseBy : ℕ) :
    (b.makeRoom threshold decreaseBy).ids.Sublist b.ids := by
  rw [makeRoom]
  split
  · have hlist := congrArg (List.map Node.id) (b.accessList_eq_stale_append decreaseBy)
    rw [List.map_append] at hlist
    rw [ids, ids, hlist]
    exact List.sublist_append_right _ _
  · exact List.Sublist.refl _

end Bucket

namespace Cache

/-- The node that a call reaches: `FindOrInsertData` returns it, in `AddOrReplace` after the
eviction. -/
def reach (c : Cache) : Call → Except Fault (Bucket × Node)
  | .addOrReplace k _ => ((c.bucketOf k).makeRoom c.threshold c.decreaseBy).findOrInsertData k
  | .get k _ => (c.bucketOf k).findOrInsertData k

/-- The access log of a history: for each call its bucket and the node that it reached. -/
def accessLog : Cache → List Call → List (Fin kNumBuckets × ℕ)
  | _, [] => []
  | c, op :: ops =>
    match c.reach op, c.call op with
    | .ok (_, n), .ok c' => (c.getIndex op.key, n.id) :: accessLog c' ops
    | _, _ => []

variable {c c' : Cache} {op : Call} {ops ops' : List Call} {i : Fin kNumBuckets}

/-- A call that returns has reached a node, and leaves the list that `FindOrInsertData` leaves. -/
theorem exists_reach (hstep : c.Step op c') : ∃ b n, c.reach op = .ok (b, n) ∧
    (c'.buckets (c.getIndex op.key)).ids = b.ids ∧
    ∀ i ≠ c.getIndex op.key, c'.buckets i = c.buckets i := by
  obtain ⟨b', hb', hbuckets, -⟩ := buckets_of_call hstep
  rw [hbuckets, Function.update_self]
  suffices h : ∃ b n, c.reach op = .ok (b, n) ∧ b'.ids = b.ids by
    obtain ⟨b, n, hreach, hids⟩ := h
    exact ⟨b, n, hreach, hids, fun i hi ↦ Function.update_of_ne hi _ _⟩
  rcases op with ⟨k, kv⟩ | ⟨k, kv⟩
  · rw [callBucket, Call.key, Bucket.addOrReplace] at hb'
    split at hb'
    · cases hb'
    · next b n hfind =>
      cases hb'
      exact ⟨b, n, hfind, b.map_id_write n.id _⟩
  · obtain ⟨r, hget⟩ := exists_get_of_callBucket hb'
    obtain ⟨n, hfind⟩ := Bucket.exists_findOrInsertData_of_get hget
    exact ⟨b', n, hfind, rfl⟩

theorem accessLog_cons {b : Bucket} {n : Node} (hreach : c.reach op = .ok (b, n))
    (hstep : c.Step op c') (ops : List Call) :
    accessLog c (op :: ops) = (c.getIndex op.key, n.id) :: accessLog c' ops := by
  have hcall : c.call op = .ok c' := hstep
  simp only [accessLog, hreach, hcall]

/-- The log of a longer history. -/
theorem accessLog_append (hrun : Run Step c ops c') (ops' : List Call) :
    accessLog c (ops ++ ops') = accessLog c ops ++ accessLog c' ops' := by
  induction ops generalizing c with
  | nil =>
    obtain rfl := hrun.of_nil
    rfl
  | cons op ops ih =>
    obtain ⟨c₁, hstep, hrest⟩ := hrun.of_cons
    obtain ⟨b, n, hreach, -⟩ := exists_reach hstep
    rw [List.cons_append, accessLog_cons hreach hstep, accessLog_cons hreach hstep, ih hrest,
      List.cons_append]

/-- The time of an access is the number of the call. -/
theorem length_accessLog (hrun : Run Step c ops c') : (accessLog c ops).length = ops.length := by
  induction hrun with
  | nil => rfl
  | @snoc c₁ c₂ ops op hrun hstep ih =>
    obtain ⟨b, n, hreach, -⟩ := exists_reach hstep
    rw [accessLog_append hrun, accessLog_cons hreach hstep, accessLog, List.length_append, ih,
      List.length_append, List.length_singleton, List.length_singleton]

/-- The nodes of a bucket, as the log names them. -/
def nodesOf (c : Cache) (i : Fin kNumBuckets) : List (Fin kNumBuckets × ℕ) :=
  (c.buckets i).ids.map (i, ·)

/-- **One call.** It moves the node that it reached to the back of its bucket, after dropping some
others. -/
theorem recent_step {log : List (Fin kNumBuckets × ℕ)} (hc : c.WF)
    (h : ∀ i, Recent (·.1 = i) log (c.nodesOf i)) (hstep : c.Step op c') :
    ∀ i, Recent (·.1 = i) (log ++ accessLog c [op]) (c'.nodesOf i) := by
  obtain ⟨b, n, hreach, hids, hother⟩ := exists_reach hstep
  intro i
  rw [accessLog_cons hreach hstep, accessLog]
  by_cases hi : i = c.getIndex op.key
  · subst hi
    obtain ⟨b₀, hb₀, hsub, hfind⟩ : ∃ b₀ : Bucket, b₀.WF ∧ b₀.ids.Sublist (c.bucketOf op.key).ids ∧
        b₀.findOrInsertData op.key = .ok (b, n) := by
      rcases op with ⟨k, kv⟩ | ⟨k, kv⟩
      · exact ⟨_, (hc _).makeRoom _ _, Bucket.ids_makeRoom_sublist _ _ _, hreach⟩
      · exact ⟨_, hc _, List.Sublist.refl _, hreach⟩
    have hnodes : c'.nodesOf (c.getIndex op.key)
        = (b₀.ids.map (c.getIndex op.key, ·)).filter (· ≠ (c.getIndex op.key, n.id))
          ++ [(c.getIndex op.key, n.id)] := by
      rw [nodesOf, hids, hb₀.ids_findOrInsertData hfind, List.map_append, List.map_singleton,
        List.filter_map]
      congr 2
      refine List.filter_congr fun id _ ↦ ?_
      simp [Function.comp_apply]
    rw [hnodes]
    exact (h _).access (hsub.map _) (decide_eq_true rfl)
  · have hnodes : c'.nodesOf i = c.nodesOf i := by rw [nodesOf, hother i hi, nodesOf]
    rw [hnodes]
    exact (h i).skip (decide_eq_false fun heq ↦ hi heq.symm)

/-- **Every history.** -/
theorem recent_of_run {capacity : UInt64} {strHash : Bytes → ℕ}
    (hrun : Run Step (new capacity strHash) ops c) (i : Fin kNumBuckets) :
    Recent (·.1 = i) (accessLog (new capacity strHash) ops) (c.nodesOf i) := by
  revert i
  induction hrun with
  | nil => exact fun i ↦ recent_nil _
  | snoc hrun hstep ih =>
    have hwf := (wf_new capacity strHash).of_run hrun
    rw [accessLog_append hrun]
    exact recent_step hwf ih hstep

/-- The list of a bucket is in the order of the last accesses. -/
structure LruOrder (log : List (Fin kNumBuckets × ℕ)) (c : Cache) (i : Fin kNumBuckets) : Prop where
  /-- Every node has been accessed. -/
  accessed : ∀ n ∈ (c.buckets i).accessList, (i, n.id) ∈ log
  ordered : (c.buckets i).accessList.Pairwise fun m n ↦
    lastAccess log (i, m.id) < lastAccess log (i, n.id)
  /-- An eviction removes nodes that were accessed before every node that survives. -/
  evicts_oldest : ∀ m ∈ (c.buckets i).accessList,
    m ∉ ((c.buckets i).deleteStaleData c.decreaseBy).accessList →
    ∀ n ∈ ((c.buckets i).deleteStaleData c.decreaseBy).accessList,
      lastAccess log (i, m.id) < lastAccess log (i, n.id)
  /-- The node of the latest call on the bucket is at the back. -/
  back : (c.buckets i).accessList.getLast?.map (fun n ↦ (i, n.id))
    = (log.filter (·.1 = i)).getLast?

/-- **Access order is LRU order.** After every history of calls that used no erased node, each of
which has an access in the log, in every bucket. -/
theorem lru_order (capacity : UInt64) (strHash : Bytes → ℕ) (ops : List Call) (c : Cache)
    (hrun : Run Step (new capacity strHash) ops c) :
    (accessLog (new capacity strHash) ops).length = ops.length ∧
      ∀ i, LruOrder (accessLog (new capacity strHash) ops) c i := by
  refine ⟨length_accessLog hrun, fun i ↦ ?_⟩
  have h := recent_of_run hrun i
  have hnodes : c.nodesOf i = (c.buckets i).accessList.map fun n ↦ (i, n.id) := by
    rw [nodesOf, Bucket.ids, List.map_map]
    rfl
  rw [hnodes] at h
  have hordered := List.pairwise_map.mp h.ordered
  refine ⟨fun n hn ↦ h.accessed _ (List.mem_map_of_mem hn), hordered, ?_, ?_⟩
  · intro m hm hgone n hn
    rcases Bucket.mem_accessList_iff_stale.mp hm with hstale | hkept
    · rw [(c.buckets i).accessList_eq_stale_append c.decreaseBy, List.map_append] at h
      exact h.lt_of_append (List.mem_map_of_mem hstale) (List.mem_map_of_mem hn)
    · exact absurd hkept hgone
  · rw [← h.back, List.getLast?_map]

/-- The second lookup of a key moves its node behind the one of another key. -/
theorem lru_order_lookups : ∃ c,
    Run Step (new 0 fun _ ↦ 0) [.get [97] {}, .get [98] {}, .get [97] {}] c ∧
      (accessLog (new 0 fun _ ↦ 0) [.get [97] {}, .get [98] {}, .get [97] {}]).length = 3 ∧
      ∀ i, LruOrder
        (accessLog (new 0 fun _ ↦ 0) [.get [97] {}, .get [98] {}, .get [97] {}]) c i := by
  obtain ⟨c₁, h₁, hc₁⟩ := (intact_new 0 fun _ ↦ 0).exists_step (.get [97] {}) trivial
  obtain ⟨c₂, h₂, hc₂⟩ := hc₁.exists_step (.get [98] {}) trivial
  obtain ⟨c₃, h₃, -⟩ := hc₂.exists_step (.get [97] {}) trivial
  have hrun := ((Run.single h₁).snoc h₂).snoc h₃
  exact ⟨c₃, hrun, lru_order 0 _ _ c₃ hrun⟩

end Cache

end MemcacheRouter
