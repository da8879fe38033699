import MemcacheRouter.Cache.Accounting
import MemcacheRouter.Foundations.ShortestPrefix

/-!
# What an eviction removes

`DeleteStaleData` is asked to free `decrease_by_` bytes: it should take nodes from the front until
their `Used` adds up to more than that, and lower `memory` by what it took. Its stop test compares
the running counter with a target computed beforehand, and that is the same test as long as the
counter does not wrap around. The counter is short of the sum of `Used` by twelve bytes for every
node that the bucket ever inserted (`Ledger`), so it need not cover the nodes that have to go: then
it wraps, is far above the target, and the loop goes on to erase what should have stayed.

`evictsExactly_iff` says that this is the only way to fail.
-/

open Transition ShortestPrefix

namespace MemcacheRouter

namespace Bucket

variable {b : Bucket} {decreaseBy : ℕ}

/-- The nodes that an eviction is asked to remove. -/
def needed (b : Bucket) (decreaseBy : ℕ) : List Node :=
  exceeding (fun n ↦ n.data.used) (decreaseBy : ℤ) b.accessList

/-- The counter after the given nodes are erased, one after the other. -/
def counterAfter (memory : ℕ) (erased : List Node) : ℕ :=
  erased.foldl (fun m n ↦ toUInt64 (m - n.data.used)) memory

/-- An eviction does exactly what is needed: its target does not underflow; it removes the shortest
prefix whose `Used` exceeds `decreaseBy` and leaves the other nodes as they are; and while it erases
them one after the other, the counter falls by what they use, as integers. -/
structure EvictsExactly (b : Bucket) (decreaseBy : ℕ) : Prop where
  target : (toUInt64 (b.memory - decreaseBy) : ℤ) = b.memory - decreaseBy
  removes : ∃ p, IsExceeding (fun n : Node ↦ n.data.used) (decreaseBy : ℤ) b.accessList p ∧
    b.accessList = p ++ (b.deleteStaleData decreaseBy).accessList ∧
    ((b.deleteStaleData decreaseBy).memory : ℤ) = b.memory - sumOf Data.used p ∧
    ∀ q, q <+: p → (counterAfter b.memory q : ℤ) = b.memory - sumOf Data.used q

/-- The counter covers the nodes that have to go. The second part is about entries of two gigabytes
and more, whose `Used` is negative: erasing them must not take the counter to `2 ^ 64`. -/
structure Covers (b : Bucket) (decreaseBy : ℕ) : Prop where
  le : sumOf Data.used (b.needed decreaseBy) ≤ b.memory
  lt : ∀ q, q <+: b.needed decreaseBy → b.memory < 2 ^ 64 + sumOf Data.used q

theorem isExceeding_iff_needed {p : List Node} :
    IsExceeding (fun n : Node ↦ n.data.used) (decreaseBy : ℤ) b.accessList p ↔
      p = b.needed decreaseBy :=
  isExceeding_iff (Int.natCast_nonneg decreaseBy)

theorem sumOf_nil (f : Data → ℤ) : sumOf f [] = 0 := rfl

theorem counterAfter_eq (q : List Node) {memory : ℕ} (hlt : memory < 2 ^ 64) :
    counterAfter memory q = toUInt64 (memory - sumOf Data.used q) := by
  induction q generalizing memory with
  | nil =>
    have h := toUInt64_of_nonneg (Int.natCast_nonneg memory) (by exact_mod_cast hlt)
    rw [counterAfter, List.foldl_nil, sumOf_nil, sub_zero]
    exact_mod_cast h.symm
  | cons n q ih =>
    have hstep : counterAfter memory (n :: q)
        = counterAfter (toUInt64 (memory - n.data.used)) q := rfl
    rw [hstep, ih (toUInt64_lt _), toUInt64_toUInt64_sub, sumOf_cons, sub_sub]

/-- The counter covers every prefix of the nodes that have to go, if it covers them all. -/
theorem Covers.prefix_le (h : b.Covers decreaseBy) (hle : decreaseBy ≤ b.memory) {q : List Node}
    (hq : q <+: b.needed decreaseBy) : sumOf Data.used q ≤ b.memory := by
  by_cases hall : q = b.needed decreaseBy
  · rw [hall]
    exact h.le
  · have hsum := (isExceeding_iff_needed.mpr rfl).le_of_proper q hq hall
    have hcast : (decreaseBy : ℤ) ≤ b.memory := by exact_mod_cast hle
    exact hsum.trans hcast

/-- The loop erases the shortest prefix, as long as the counter does not wrap while it does. -/
private theorem staleNodes_eq_exceeding {target : ℕ} : ∀ (l : List Node) {memory : ℕ} {D : ℤ},
    (target : ℤ) = memory - D →
    (∀ q, q <+: exceeding (fun n : Node ↦ n.data.used) D l →
      0 ≤ memory - sumOf Data.used q ∧ memory - sumOf Data.used q < 2 ^ 64) →
    staleNodes target l memory = exceeding (fun n : Node ↦ n.data.used) D l := by
  intro l
  induction l with
  | nil => exact fun _ _ ↦ rfl
  | cons n rest ih =>
    intro memory D htarget hcovers
    rw [exceeding] at hcovers ⊢
    have hfirst := hcovers [n] ((List.prefix_cons_inj n).mpr List.nil_prefix)
    rw [sumOf_singleton] at hfirst
    have hstep : (toUInt64 (memory - n.data.used) : ℤ) = memory - n.data.used :=
      toUInt64_of_nonneg hfirst.1 hfirst.2
    rw [staleNodes]
    by_cases hlt : D < n.data.used
    · rw [if_pos hlt, if_pos (by omega)]
    · rw [if_neg hlt] at hcovers ⊢
      have htarget' : (target : ℤ)
          = toUInt64 (memory - n.data.used) - (D - n.data.used) := by omega
      rw [if_neg (by omega), ih htarget']
      intro q hq
      have hrest := hcovers (n :: q) ((List.prefix_cons_inj n).mpr hq)
      rw [sumOf_cons] at hrest
      omega

theorem target_eq (hlt : b.memory < 2 ^ 64) (hle : decreaseBy ≤ b.memory) :
    (toUInt64 (b.memory - decreaseBy) : ℤ) = b.memory - decreaseBy :=
  toUInt64_of_nonneg (by omega) (by omega)

theorem Covers.stale_eq (h : b.Covers decreaseBy) (hlt : b.memory < 2 ^ 64)
    (hle : decreaseBy ≤ b.memory) : b.stale decreaseBy = b.needed decreaseBy := by
  refine staleNodes_eq_exceeding b.accessList (target_eq hlt hle) fun q hq ↦ ?_
  have hlow := h.prefix_le hle hq
  have hhigh := h.lt q hq
  omega

/-- **When an eviction does exactly what is needed**: if and only if the counter covers the nodes
that have to go. -/
theorem evictsExactly_iff_covers (hlt : b.memory < 2 ^ 64) (hle : decreaseBy ≤ b.memory) :
    b.EvictsExactly decreaseBy ↔ b.Covers decreaseBy := by
  constructor
  · rintro ⟨-, p, hp, -, hmemory, hcounter⟩
    obtain rfl := isExceeding_iff_needed.mp hp
    refine ⟨by omega, fun q hq ↦ ?_⟩
    have hq' := hcounter q hq
    have hbound : counterAfter b.memory q < 2 ^ 64 := by
      rw [counterAfter_eq q hlt]
      exact toUInt64_lt _
    omega
  · intro h
    have hcounter : ∀ q, q <+: b.needed decreaseBy →
        (toUInt64 (b.memory - sumOf Data.used q) : ℤ) = b.memory - sumOf Data.used q := by
      intro q hq
      have hlow := h.prefix_le hle hq
      have hhigh := h.lt q hq
      exact toUInt64_of_nonneg (by omega) (by omega)
    have hstale := h.stale_eq hlt hle
    refine ⟨target_eq hlt hle, _, isExceeding_iff_needed.mpr rfl, ?_, ?_, fun q hq ↦ ?_⟩
    · rw [← hstale]
      exact b.accessList_eq_stale_append decreaseBy
    · rw [memory_deleteStaleData hlt, hstale]
      exact hcounter _ (List.prefix_refl _)
    · rw [counterAfter_eq q hlt]
      exact hcounter q hq

/-- Without entries of two gigabytes and more: if and only if what has to go is at most `memory`. -/
theorem Holds.covers_iff (h : b.Holds Data.Fits) (hlt : b.memory < 2 ^ 64) :
    b.Covers decreaseBy ↔ sumOf Data.used (b.needed decreaseBy) ≤ b.memory := by
  refine ⟨Covers.le, fun hle ↦ ⟨hle, fun q hq ↦ ?_⟩⟩
  have hlist : b.needed decreaseBy <+: b.accessList := exceeding_isPrefix _ _ _
  have hnonneg : 0 ≤ sumOf Data.used q := by
    refine sumOf_nonneg fun n hn ↦ ?_
    have hused := (h n (hlist.mem (hq.mem hn))).used
    omega
  omega

end Bucket

/-! ## Histories of the whole cache -/

namespace Cache

/-- **Eviction removes exactly what is needed if and only if the counter covers it.** In every
bucket of every reachable cache whose counter is above the threshold. -/
theorem evictsExactly_iff (capacity : UInt64) (strHash : Bytes → ℕ) (ops : List Call) (c : Cache)
    (hrun : Run Step (new capacity strHash) ops c) (i : Fin kNumBuckets)
    (hlt : c.threshold < (c.buckets i).memory) :
    (c.buckets i).EvictsExactly c.decreaseBy ↔ (c.buckets i).Covers c.decreaseBy := by
  obtain ⟨-, hthr, hdec⟩ := sameParams_of_run hrun
  have hle : c.decreaseBy ≤ c.threshold := by
    rw [hthr, hdec]
    exact decreaseBy_le_threshold capacity strHash
  exact Bucket.evictsExactly_iff_covers (ledger_of_run hrun i).memory_lt (hle.trans hlt.le)

private theorem size_entryOf (k v : Bytes) :
    (Bucket.entryOf k { val? := some v }).size = k.length + v.length := rfl

/-- Storing two values in a new cache of the smallest size, the first of which leaves the bucket
below its threshold. -/
private theorem exists_run_two {v w : Bytes} (hv : v.length < 10 <<< 20) (hw : w.length < 2 ^ 30) :
    ∃ c i, Run Step (new 0 fun _ ↦ 0)
        [.addOrReplace [97] { val? := some v }, .addOrReplace [98] { val? := some w }] c ∧
      c.threshold = 10485760 ∧ c.decreaseBy = 104857 ∧
      (c.buckets i).memory = v.length + w.length + 2 ∧ (c.buckets i).Holds Data.Fits ∧
      (c.buckets i).accessList = [⟨0, Bucket.entryOf [97] { val? := some v }⟩,
        ⟨1, Bucket.entryOf [98] { val? := some w }⟩] := by
  have hthr : (new 0 fun _ ↦ 0).threshold = 10485760 := by decide +kernel
  have hdec : (new 0 fun _ ↦ 0).decreaseBy = 104857 := by decide +kernel
  have hsize₁ : (Bucket.entryOf [97] { val? := some v }).size = 1 + v.length := size_entryOf [97] v
  have hsize₂ : (Bucket.entryOf [98] { val? := some w }).size = 1 + w.length := size_entryOf [98] w
  obtain ⟨c₁, hrun₁, ⟨hhash₁, hthr₁, hdec₁⟩, hb₁⟩ := exists_run_store [97] { val? := some v }
    (Run.nil (new 0 fun _ ↦ 0)) rfl (Nat.zero_le _) (by rw [Data.Fits, hsize₁]; omega)
  have hsame : c₁.bucketOf [98] = c₁.bucketOf [97] := by
    rw [bucketOf, bucketOf, getIndex_congr hhash₁, getIndex_congr hhash₁]
    rfl
  have hmem₁ : (c₁.bucketOf [98]).memory = 1 + v.length := by
    rw [hsame, hb₁, hsize₁]
    exact Nat.zero_add _
  obtain ⟨c₂, hrun₂, ⟨hhash₂, hthr₂, hdec₂⟩, hb₂⟩ := exists_run_store [98] { val? := some w }
    hrun₁ (by rw [hsame, hb₁]; rfl) (by omega) (by rw [Data.Fits, hsize₂]; omega)
  refine ⟨c₂, c₂.getIndex [98], hrun₂.of_guarded, by rw [hthr₂, hthr₁, hthr],
    by rw [hdec₂, hdec₁, hdec], ?_, (unevicted_of_run hrun₂ _).fits, ?_⟩
  · rw [← bucketOf, hb₂, hmem₁, hsize₂]
    show 1 + v.length + (1 + w.length) = _
    omega
  · rw [← bucketOf, hb₂, hsame, hb₁]
    rfl

/-- If the first of two values is larger than `decreaseBy`, it is all that has to go. -/
private theorem sumOf_needed_two {b : Bucket} {d e : Data} (decreaseBy : ℕ)
    (hfits : b.Holds Data.Fits) (hmore : decreaseBy < d.size)
    (hlist : b.accessList = [⟨0, d⟩, ⟨1, e⟩]) :
    Bucket.sumOf Data.used (b.needed decreaseBy) = d.size + 12 := by
  have hd : d.Fits := hfits ⟨0, d⟩ (by rw [hlist]; exact List.mem_cons_self)
  rw [Bucket.needed, hlist, exceeding, hd.used, if_pos (by omega), Bucket.sumOf_singleton, hd.used]

/-- A small value in front and a large one behind it: the counter covers the small one, and it is
what the eviction removes. -/
theorem evictsExactly_iff_smallFirst : ∃ c i,
    Run Step (new 0 fun _ ↦ 0) [.addOrReplace [97] { val? := some (List.replicate 110000 0) },
        .addOrReplace [98] { val? := some (List.replicate (10 <<< 20) 0) }] c ∧
      c.threshold < (c.buckets i).memory ∧ (c.buckets i).EvictsExactly c.decreaseBy := by
  obtain ⟨c, i, hrun, hthr, hdec, hmem, hfits, hlist⟩ := exists_run_two
    (v := List.replicate 110000 0) (w := List.replicate (10 <<< 20) 0)
    (by rw [List.length_replicate]; decide) (by rw [List.length_replicate]; decide)
  rw [List.length_replicate, List.length_replicate] at hmem
  have hlt : c.threshold < (c.buckets i).memory := by omega
  have hsize := size_entryOf [97] (List.replicate 110000 0)
  rw [List.length_replicate, List.length_singleton] at hsize
  have hneeded := sumOf_needed_two c.decreaseBy hfits (by omega) hlist
  refine ⟨c, i, hrun, hlt, (evictsExactly_iff 0 _ _ c hrun i hlt).mpr ?_⟩
  rw [hfits.covers_iff (ledger_of_run hrun i).memory_lt]
  omega

/-- A large value in front and an empty one behind it: the counter is short of the large one by
eleven bytes, and wraps around when it is erased. -/
theorem eviction_wraps_counter : ∃ c i,
    Run Step (new 0 fun _ ↦ 0)
        [.addOrReplace [97] { val? := some (List.replicate (10 <<< 20 - 1) 0) },
          .addOrReplace [98] { val? := some [] }] c ∧
      c.threshold < (c.buckets i).memory ∧ ¬(c.buckets i).EvictsExactly c.decreaseBy := by
  obtain ⟨c, i, hrun, hthr, hdec, hmem, hfits, hlist⟩ := exists_run_two
    (v := List.replicate (10 <<< 20 - 1) 0) (w := [])
    (by rw [List.length_replicate]; decide) (by rw [List.length_nil]; decide)
  rw [List.length_replicate, List.length_nil] at hmem
  have hsize := size_entryOf [97] (List.replicate (10 <<< 20 - 1) 0)
  rw [List.length_replicate, List.length_singleton] at hsize
  have hneeded := sumOf_needed_two c.decreaseBy hfits (by omega) hlist
  refine ⟨c, i, hrun, by omega, fun h ↦ ?_⟩
  have hle := ((Bucket.evictsExactly_iff_covers (ledger_of_run hrun i).memory_lt
    (by omega)).mp h).le
  omega

end Cache

end MemcacheRouter
