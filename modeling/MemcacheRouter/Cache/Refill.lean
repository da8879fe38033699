import MemcacheRouter.Cache.Accounting

/-!
# Storing what was looked up

A lookup that misses leaves an empty node behind, registered under the key but without storing it.
The caller fetches the values of the missed keys and stores them one after the other, and each of
these calls may start an eviction. If an eviction erases the empty node of a key that is still to be
stored, the registration of the key stays, and storing its value uses the erased node.

A sequence of calls returns if and only if no eviction does that (`WF.exists_run_iff`).
-/

open Transition

namespace MemcacheRouter

namespace Bucket

variable {b b' : Bucket} {k j : Bytes} {kv : KeyValue} {n : Node} {threshold decreaseBy : ℕ}

/-- The eviction that a call in this bucket starts, if any, leaves the registration of `j` alone, or
erases it with its node. -/
def Spares (b : Bucket) (threshold decreaseBy : ℕ) (j : Bytes) : Prop :=
  threshold < b.memory →
    ∀ n ∈ b.stale decreaseBy, b.keyToLitr j = some n.id → n.data.key = j

/-! ## Registrations of erased nodes -/

theorem exists_findOrInsertData_iff : (∃ r, b.findOrInsertData k = .ok r) ↔ ¬b.Dangling k := by
  have herror := findOrInsertData_eq_error_iff (b := b) (k := k)
  simp only [node?_eq_none_iff] at herror
  rw [Dangling, ← herror]
  cases b.findOrInsertData k with
  | error e => simp
  | ok r => simp

/-- Overwriting an entry moves no node. -/
theorem dangling_write (b : Bucket) (id : ℕ) (d : Data) (j : Bytes) :
    (b.write id d).Dangling j ↔ b.Dangling j := by
  have hid := fun i ↦ not_congr (b.exists_id_write id d i)
  push Not at hid
  simp only [Dangling, hid]
  rfl

theorem WF.dangling_findOrInsertData_iff (hb : b.WF) (h : b.findOrInsertData k = .ok (b', n)) :
    b'.Dangling j ↔ b.Dangling j := by
  refine ⟨?_, fun hj ↦ hj.findOrInsertData hb h⟩
  rintro ⟨id, hj, hnone⟩
  rcases findOrInsertData_cases h with ⟨-, hn, rfl⟩ | ⟨-, rfl, rfl⟩
  · exact ⟨id, hj, fun m hm ↦ hnone m ((hb.mem_moveToBack hn).mpr hm)⟩
  · refine ⟨id, ?_, fun m hm ↦ hnone m (List.mem_append_left _ hm)⟩
    rcases register_cases hj with ⟨-, rfl⟩ | hj
    · exact absurd rfl (hnone _ (List.mem_append_right _ List.mem_cons_self))
    · exact hj

/-- A registration that outlived its node outlives every eviction. -/
theorem WF.dangling_of_dangling (hb : b.WF) (h : b.Dangling j) (decreaseBy : ℕ) :
    (b.deleteStaleData decreaseBy).Dangling j := by
  obtain ⟨id, hj, hnone⟩ := h
  refine ⟨id, keyToLitr_deleteStaleData_eq_some.mpr ⟨hj, fun n hn hkey ↦ ?_⟩, fun n hn ↦ ?_⟩
  · -- a node that stores the key would be the one the key designates
    have hmem := mem_accessList_iff_stale.mpr (Or.inl hn)
    by_cases hnil : j = []
    · subst hnil
      obtain ⟨m, hm, hid⟩ := hb.nil_live id hj
      exact hnone m hm hid
    · have hreg := hb.registered n hmem (hkey ▸ hnil)
      rw [hkey, hj] at hreg
      exact hnone n hmem (Option.some.inj hreg).symm
  · exact hnone n (mem_accessList_iff_stale.mpr (Or.inr hn))

/-- **What an eviction leaves behind**: the registrations that were left behind before, and those of
the nodes that it does not spare. -/
theorem WF.dangling_makeRoom_iff (hb : b.WF) (threshold decreaseBy : ℕ) (j : Bytes) :
    (b.makeRoom threshold decreaseBy).Dangling j ↔
      b.Dangling j ∨ ¬b.Spares threshold decreaseBy j := by
  rw [Bucket.makeRoom, Spares]
  by_cases hlt : threshold < b.memory
  · rw [if_pos hlt]
    constructor
    · rintro ⟨id, hj, hnone⟩
      obtain ⟨hj, hkeep⟩ := keyToLitr_deleteStaleData_eq_some.mp hj
      by_cases hlive : ∃ n ∈ b.accessList, n.id = id
      · obtain ⟨n, hn, rfl⟩ := hlive
        rcases mem_accessList_iff_stale.mp hn with hs | hs
        · exact Or.inr fun h ↦ hkeep n hs (h hlt n hs hj)
        · exact absurd rfl (hnone n hs)
      · push Not at hlive
        exact Or.inl ⟨id, hj, hlive⟩
    · rintro (h | h)
      · exact hb.dangling_of_dangling h decreaseBy
      · push Not at h
        obtain ⟨-, n, hn, hj, hkey⟩ := h
        exact hb.dangling_deleteStaleData hn hj hkey
  · rw [if_neg hlt]
    exact ⟨Or.inl, fun h ↦ h.resolve_right fun hspares ↦ hspares fun h' ↦ absurd h' hlt⟩

/-- **When `AddOrReplace` returns.** -/
theorem WF.exists_addOrReplace_iff (hb : b.WF) :
    (∃ b', b.addOrReplace threshold decreaseBy k kv = .ok b') ↔
      ¬b.Dangling k ∧ b.Spares threshold decreaseBy k := by
  have hroom := not_congr (hb.dangling_makeRoom_iff threshold decreaseBy k)
  rw [not_or, not_not] at hroom
  rw [← hroom, ← exists_findOrInsertData_iff, Bucket.addOrReplace]
  cases (b.makeRoom threshold decreaseBy).findOrInsertData k with
  | error e => simp
  | ok r => simp

/-- What it leaves behind. -/
theorem WF.dangling_addOrReplace_iff (hb : b.WF)
    (h : b.addOrReplace threshold decreaseBy k kv = .ok b') :
    b'.Dangling j ↔ b.Dangling j ∨ ¬b.Spares threshold decreaseBy j := by
  rw [Bucket.addOrReplace] at h
  split at h
  · cases h
  · next b₁ n hfind =>
    cases h
    rw [← hb.dangling_makeRoom_iff,
      ← (hb.makeRoom threshold decreaseBy).dangling_findOrInsertData_iff hfind]
    exact b₁.dangling_write n.id (entryOf k kv) j

end Bucket

namespace Cache

variable {c c' : Cache} {k j : Bytes} {kv : KeyValue} {op : Call} {ops : List Call}

/-- The registration of `k` has outlived its node. -/
def Dangling (c : Cache) (k : Bytes) : Prop := (c.bucketOf k).Dangling k

/-- The index designates only live nodes. -/
def IndexLive (c : Cache) : Prop := ∀ i k, ¬(c.buckets i).Dangling k

/-- The call does not take the node of `j` from it: it works on another bucket, or it starts no
eviction, or that eviction leaves the registration of `j` alone or erases it with its node. -/
def Spares (c : Cache) (j : Bytes) : Call → Prop
  | .addOrReplace k _ => c.getIndex j = c.getIndex k →
      (c.bucketOf k).Spares c.threshold c.decreaseBy j
  | .get _ _ => True

/-- **When a call returns.** -/
theorem WF.exists_step_iff (hc : c.WF) :
    (∃ c', c.Step op c') ↔ ¬c.Dangling op.key ∧ c.Spares op.key op := by
  have hbucket : (∃ c', c.Step op c') ↔ ∃ b, c.callBucket (c.bucketOf op.key) op = .ok b := by
    constructor
    · rintro ⟨c', hstep⟩
      obtain ⟨b, hb, -⟩ := buckets_of_call hstep
      exact ⟨b, hb⟩
    · rintro ⟨b, hb⟩
      exact exists_step_of_callBucket hb
  rw [hbucket]
  rcases op with ⟨k, kv⟩ | ⟨k, kv⟩
  · simp only [callBucket, Spares, Call.key, (hc _).exists_addOrReplace_iff, bucketOf, Dangling,
      forall_const]
  · simp only [callBucket, Spares, Call.key, and_true, Dangling,
      ← Bucket.exists_findOrInsertData_iff]
    rw [Bucket.get]
    cases (c.bucketOf k).findOrInsertData k with
    | error e => simp [Except.map]
    | ok r =>
      by_cases hnil : r.2.data.value = [] <;> simp [hnil, Except.map]

/-- **What a call leaves behind.** -/
theorem WF.dangling_step_iff (hc : c.WF) (hstep : c.Step op c') :
    c'.Dangling j ↔ c.Dangling j ∨ ¬c.Spares j op := by
  obtain ⟨b, hb, hbuckets, hhash, -⟩ := buckets_of_call hstep
  rw [Dangling, bucketOf_update hhash hbuckets, Dangling]
  by_cases hj : c.getIndex j = c.getIndex op.key
  · have hsame : c.bucketOf j = c.bucketOf op.key := by rw [bucketOf, hj, bucketOf]
    rw [if_pos hj, hsame]
    rcases op with ⟨k, kv⟩ | ⟨k, kv⟩
    · rw [(hc _).dangling_addOrReplace_iff hb, Spares]
      exact or_congr_right (not_congr ⟨fun h _ ↦ h, fun h ↦ h hj⟩)
    · obtain ⟨r, hget⟩ := exists_get_of_callBucket hb
      obtain ⟨n, hfind⟩ := Bucket.exists_findOrInsertData_of_get hget
      rw [(hc _).dangling_findOrInsertData_iff hfind, Spares, not_true, or_false]
      rfl
  · rw [if_neg hj]
    rcases op with ⟨k, kv⟩ | ⟨k, kv⟩
    · exact (or_iff_left fun h ↦ h fun heq ↦ absurd heq hj).symm
    · exact (or_iff_left fun h ↦ h trivial).symm

/-! ## Sequences of calls -/

/-- No call of the sequence takes the node from its own key or from the key of a later call. -/
def SparesPending : Cache → List Call → Prop
  | _, [] => True
  | c, op :: ops => (∀ op' ∈ op :: ops, c.Spares op'.key op) ∧
      ∀ c', c.Step op c' → SparesPending c' ops

/-- A registration that outlived its node is never used by a sequence of calls that returns. -/
theorem WF.not_dangling_of_run (hc : c.WF) (hrun : Run Step c ops c') :
    ∀ op ∈ ops, ¬c.Dangling op.key := by
  induction ops generalizing c with
  | nil =>
    intro op hop
    cases hop
  | cons op ops ih =>
    obtain ⟨c₁, hstep, hrest⟩ := hrun.of_cons
    intro op' hop'
    rcases List.mem_cons.mp hop' with rfl | hop'
    · exact (hc.exists_step_iff.mp ⟨c₁, hstep⟩).1
    · intro hdang
      exact ih (hc.step hstep) hrest op' hop' ((hc.dangling_step_iff hstep).mpr (Or.inl hdang))

/-- **When a sequence of calls returns**: if and only if no eviction takes the node from a key that
is still to be used. -/
theorem WF.exists_run_iff (hc : c.WF) (hlive : ∀ op ∈ ops, ¬c.Dangling op.key) :
    (∃ c', Run Step c ops c') ↔ c.SparesPending ops := by
  induction ops generalizing c with
  | nil => exact ⟨fun _ ↦ trivial, fun _ ↦ ⟨c, Run.nil c⟩⟩
  | cons op ops ih =>
    rw [SparesPending]
    constructor
    · rintro ⟨c', hrun⟩
      obtain ⟨c₁, hstep, hrest⟩ := hrun.of_cons
      have hc₁ := hc.step hstep
      have hlive₁ := hc₁.not_dangling_of_run hrest
      refine ⟨fun op' hop' ↦ ?_, fun c₂ hstep' ↦ ?_⟩
      · rcases List.mem_cons.mp hop' with rfl | hop'
        · exact (hc.exists_step_iff.mp ⟨c₁, hstep⟩).2
        · by_contra hspares
          exact hlive₁ op' hop' ((hc.dangling_step_iff hstep).mpr (Or.inr hspares))
      · obtain rfl := functional_step hstep hstep'
        exact (ih hc₁ hlive₁).mp ⟨c', hrest⟩
    · rintro ⟨hspares, hrest⟩
      obtain ⟨c₁, hstep⟩ := hc.exists_step_iff.mpr
        ⟨hlive op List.mem_cons_self, hspares op List.mem_cons_self⟩
      -- what dangles after the call has dangled before it or is evicted by it
      have hlive₁ : ∀ op' ∈ ops, ¬c₁.Dangling op'.key := by
        intro op' hop' hdang
        rcases (hc.dangling_step_iff hstep).mp hdang with h | h
        · exact hlive op' (List.mem_cons_of_mem _ hop') h
        · exact h (hspares op' (List.mem_cons_of_mem _ hop'))
      obtain ⟨c', hrun⟩ := (ih (hc.step hstep) hlive₁).mpr (hrest c₁ hstep)
      exact ⟨c', Run.cons hstep hrun⟩

end Cache

end MemcacheRouter
