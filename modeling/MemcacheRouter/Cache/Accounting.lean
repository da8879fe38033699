import Mathlib.Algebra.BigOperators.Group.List.Basic
import Mathlib.Algebra.Order.BigOperators.Group.List
import MemcacheRouter.Cache.Index

/-!
# Memory accounting

The counter `memory` of a bucket is adjusted by `AddOrReplace` and by evictions, and a new node has
a `Used` of twelve bytes before anything is stored in it. `FindOrInsertData` does not add them,
`AddOrReplace` subtracts them when it fills the node, and an eviction subtracts them once more. So
the counter is short of the sum of `Used` by twelve bytes for every node that the bucket ever
inserted, the erased ones included, and this is exact in the arithmetic of `uint64_t`
(`Ledger`).

As long as nothing is evicted the shortfall is the overhead of the nodes that are there, and the
counter is the sum of the key and value sizes. The first eviction takes it below that sum. And a
missed `Get` inserts a node without looking at the counter at all, so that the list can outgrow any
bound on `Used`.
-/

open Transition

namespace MemcacheRouter

/-- The bytes of an entry that are not overhead. -/
def Data.size (d : Data) : ℕ := d.key.length + d.value.length

/-- `Used` does not overflow an `int`. -/
def Data.Fits (d : Data) : Prop := d.size + 12 < 2 ^ 31

theorem Data.Fits.used {d : Data} (h : d.Fits) : d.used = d.size + 12 := by
  rw [Data.used_eq h, Data.size]
  push_cast
  rfl

theorem Data.fits_empty : Data.Fits {} := by
  rw [Data.Fits, Data.size]
  decide

theorem Data.used_empty : Data.used {} = 12 := Data.fits_empty.used

/-! ## Conversions to `uint64_t` -/

theorem toUInt64_lt (z : ℤ) : toUInt64 z < 2 ^ 64 := by
  have h := cast_toUInt64 z
  omega

theorem toUInt64_of_nonneg {z : ℤ} (h : 0 ≤ z) (hlt : z < 2 ^ 64) : (toUInt64 z : ℤ) = z := by
  rw [cast_toUInt64, Int.emod_eq_of_lt h hlt]

theorem toUInt64_toUInt64_add (y z : ℤ) : toUInt64 (toUInt64 y + z) = toUInt64 (y + z) := by
  have h₁ := cast_toUInt64 y
  have h₂ := cast_toUInt64 (toUInt64 y + z)
  have h₃ := cast_toUInt64 (y + z)
  omega

theorem toUInt64_toUInt64_sub (y z : ℤ) : toUInt64 (toUInt64 y - z) = toUInt64 (y - z) :=
  toUInt64_toUInt64_add y (-z)

namespace Bucket

variable {b b' : Bucket} {k : Bytes} {kv kv' : KeyValue} {n : Node} {f : Data → ℤ}

/-! ## Sums over the access list -/

/-- The sum of `f` over some nodes. -/
def sumOf (f : Data → ℤ) (nodes : List Node) : ℤ := (nodes.map fun n ↦ f n.data).sum

/-- The sum of `f` over the access list. -/
def weigh (f : Data → ℤ) (b : Bucket) : ℤ := sumOf f b.accessList

/-- The sum of `Used` over the access list. -/
def totalUsed (b : Bucket) : ℤ := b.weigh Data.used

/-- The sum of the key and value sizes over the access list. -/
def contents (b : Bucket) : ℤ := b.weigh fun d ↦ d.size

theorem sumOf_append (f : Data → ℤ) (l l' : List Node) :
    sumOf f (l ++ l') = sumOf f l + sumOf f l' := by
  rw [sumOf, List.map_append, List.sum_append, sumOf, sumOf]

theorem sumOf_singleton (f : Data → ℤ) (n : Node) : sumOf f [n] = f n.data := by simp [sumOf]

theorem sumOf_cons (f : Data → ℤ) (n : Node) (l : List Node) :
    sumOf f (n :: l) = f n.data + sumOf f l := by simp [sumOf]

theorem sumOf_nonneg {l : List Node} (h : ∀ n ∈ l, 0 ≤ f n.data) : 0 ≤ sumOf f l := by
  refine List.sum_nonneg fun x hx ↦ ?_
  obtain ⟨n, hn, rfl⟩ := List.mem_map.mp hx
  exact h n hn

/-- Taking one node out of a list without duplicates. -/
theorem sumOf_filter_ne {l : List Node} (hl : (l.map Node.id).Nodup) (hn : n ∈ l) :
    sumOf f (l.filter (·.id != n.id)) = sumOf f l - f n.data := by
  induction l with
  | nil => cases hn
  | cons m l ih =>
    obtain ⟨hm, hl⟩ := List.nodup_cons.mp (by rwa [List.map_cons] at hl)
    rcases List.mem_cons.mp hn with rfl | hn
    · have hkeep : l.filter (·.id != n.id) = l := by
        refine List.filter_eq_self.mpr fun i hi ↦ ?_
        rw [bne_iff_ne]
        rintro heq
        exact hm (heq ▸ List.mem_map_of_mem hi)
      rw [List.filter_cons_of_neg (by simp), hkeep, sumOf_cons]
      ring
    · have hne : m.id ≠ n.id := by
        intro heq
        exact hm (heq ▸ List.mem_map_of_mem hn)
      rw [List.filter_cons_of_pos (by simpa using hne), sumOf_cons, sumOf_cons, ih hl hn]
      ring

/-- Overwriting one node of a list without duplicates. -/
theorem sumOf_write {l : List Node} {d : Data} (hl : (l.map Node.id).Nodup) (hn : n ∈ l) :
    sumOf f (l.map fun m ↦ if m.id = n.id then ⟨m.id, d⟩ else m)
      = sumOf f l - f n.data + f d := by
  induction l with
  | nil => cases hn
  | cons m l ih =>
    obtain ⟨hm, hl⟩ := List.nodup_cons.mp (by rwa [List.map_cons] at hl)
    rw [List.map_cons, sumOf_cons, sumOf_cons]
    rcases List.mem_cons.mp hn with rfl | hn
    · have hkeep : (l.map fun m ↦ if m.id = n.id then ⟨m.id, d⟩ else m) = l := by
        conv_rhs => rw [← List.map_id' l]
        refine List.map_congr_left fun i hi ↦ if_neg ?_
        intro heq
        exact hm (heq ▸ List.mem_map_of_mem hi)
      rw [hkeep, if_pos rfl]
      ring
    · have hne : m.id ≠ n.id := by
        intro heq
        exact hm (heq ▸ List.mem_map_of_mem hn)
      rw [ih hl hn, if_neg hne]
      ring

/-- **What `FindOrInsertData` adds**: an empty node, if the key was not registered. -/
theorem WF.weigh_findOrInsertData (hb : b.WF) (h : b.findOrInsertData k = .ok (b', n)) :
    b'.memory = b.memory ∧
      ((n ∈ b.accessList ∧ b'.nextId = b.nextId ∧ ∀ f, b'.weigh f = b.weigh f) ∨
        (b.keyToLitr k = none ∧ n.data = {} ∧ b'.nextId = b.nextId + 1 ∧
          ∀ f, b'.weigh f = b.weigh f + f {})) := by
  rcases findOrInsertData_cases h with ⟨-, hn, rfl⟩ | ⟨hk, rfl, rfl⟩
  · refine ⟨rfl, Or.inl ⟨hn, rfl, fun f ↦ ?_⟩⟩
    rw [weigh, weigh, sumOf_append, sumOf_filter_ne hb.nodup hn, sumOf_singleton]
    ring
  · refine ⟨rfl, Or.inr ⟨hk, rfl, rfl, fun f ↦ ?_⟩⟩
    rw [weigh, weigh, sumOf_append, sumOf_singleton]

theorem WF.weigh_write (hb : b.WF) (f : Data → ℤ) (hn : n ∈ b.accessList) (d : Data) :
    (b.write n.id d).weigh f = b.weigh f - f n.data + f d :=
  sumOf_write hb.nodup hn

theorem weigh_deleteStaleData (b : Bucket) (f : Data → ℤ) (decreaseBy : ℕ) :
    (b.deleteStaleData decreaseBy).weigh f = b.weigh f - sumOf f (b.stale decreaseBy) := by
  have h := congrArg (sumOf f) (b.accessList_eq_stale_append decreaseBy)
  rw [sumOf_append] at h
  rw [weigh, weigh, h]
  ring

/-- Every entry of the access list satisfies `P`. -/
def Holds (P : Data → Prop) (b : Bucket) : Prop := ∀ n ∈ b.accessList, P n.data

theorem Holds.makeRoom {P : Data → Prop} (h : b.Holds P) (threshold decreaseBy : ℕ) :
    (b.makeRoom threshold decreaseBy).Holds P := by
  rw [Bucket.makeRoom]
  split
  · exact fun n hn ↦ h n (mem_accessList_iff_stale.mpr (Or.inr hn))
  · exact h

theorem Holds.findOrInsertData {P : Data → Prop} (h : b.Holds P) (hempty : P {})
    (hfind : b.findOrInsertData k = .ok (b', n)) : b'.Holds P := by
  rcases findOrInsertData_cases hfind with ⟨-, hn, rfl⟩ | ⟨-, rfl, rfl⟩
  · intro m hm
    rcases List.mem_append.mp hm with hm | hm
    · exact h m (List.mem_of_mem_filter hm)
    · exact List.mem_singleton.mp hm ▸ h n hn
  · intro m hm
    rcases List.mem_append.mp hm with hm | hm
    · exact h m hm
    · exact List.mem_singleton.mp hm ▸ hempty

/-- **What `AddOrReplace` does to sums and to the counter**, after its eviction: it adds the entry,
and takes away the one that it replaces. -/
theorem WF.addOrReplace_cases (hb : b.WF) {threshold decreaseBy : ℕ}
    (h : b.addOrReplace threshold decreaseBy k kv = .ok b') :
    (b'.memory = toUInt64 ((b.makeRoom threshold decreaseBy).memory - 12 + (entryOf k kv).used) ∧
        b'.nextId = (b.makeRoom threshold decreaseBy).nextId + 1 ∧
        ∀ f, b'.weigh f = (b.makeRoom threshold decreaseBy).weigh f + f (entryOf k kv)) ∨
      ∃ n ∈ (b.makeRoom threshold decreaseBy).accessList,
        b'.memory = toUInt64 ((b.makeRoom threshold decreaseBy).memory - n.data.used
          + (entryOf k kv).used) ∧
        b'.nextId = (b.makeRoom threshold decreaseBy).nextId ∧
        ∀ f, b'.weigh f
          = (b.makeRoom threshold decreaseBy).weigh f - f n.data + f (entryOf k kv) := by
  have hroom := hb.makeRoom threshold decreaseBy
  rw [Bucket.addOrReplace] at h
  split at h
  · cases h
  · next b₁ n hfind =>
    cases h
    have hn := (findOrInsertData_litr hfind).2
    have hweigh := fun f ↦ (hroom.findOrInsertData hfind).weigh_write f hn (entryOf k kv)
    obtain ⟨hmemory, hcases⟩ := hroom.weigh_findOrInsertData hfind
    simp only [hmemory, toUInt64_toUInt64_add]
    rcases hcases with ⟨hmem, hid, hsame⟩ | ⟨-, hempty, hid, hmore⟩
    · refine Or.inr ⟨n, hmem, rfl, hid, fun f ↦ (hweigh f).trans ?_⟩
      rw [hsame]
    · refine Or.inl ⟨by rw [hempty, Data.used_empty], hid, fun f ↦ (hweigh f).trans ?_⟩
      rw [hmore, hempty]
      ring

theorem Holds.addOrReplace {P : Data → Prop} (h : b.Holds P) (hempty : P {})
    (hentry : P (entryOf k kv)) {threshold decreaseBy : ℕ}
    (hadd : b.addOrReplace threshold decreaseBy k kv = .ok b') : b'.Holds P := by
  rw [Bucket.addOrReplace] at hadd
  split at hadd
  · cases hadd
  · next b₁ n hfind =>
    cases hadd
    have h₁ := (h.makeRoom threshold decreaseBy).findOrInsertData hempty hfind
    intro m hm
    rcases mem_write.mp hm with ⟨hm, -⟩ | ⟨hdata, -⟩
    · exact h₁ m hm
    · rwa [hdata]

/-- A lookup leaves what `FindOrInsertData` leaves. -/
theorem exists_findOrInsertData_of_get {r : Bool × KeyValue} (h : b.get k kv = .ok (b', r)) :
    ∃ n, b.findOrInsertData k = .ok (b', n) := by
  rw [Bucket.get] at h
  split at h
  · cases h
  · next b₁ n hfind =>
    split at h
    · cases h
      exact ⟨n, hfind⟩
    · cases h
      exact ⟨n, hfind⟩

/-! ## The counter -/

/-- What the counter holds: the sum of `Used`, less twelve bytes for every node ever inserted. -/
structure Ledger (b : Bucket) : Prop where
  wf : b.WF
  memory : b.memory = toUInt64 (b.totalUsed - 12 * b.nextId)

theorem ledger_empty : Ledger {} where
  wf := wf_empty
  memory := by
    have h := cast_toUInt64 0
    have hzero : totalUsed {} - 12 * (({} : Bucket).nextId : ℤ) = 0 := rfl
    rw [hzero]
    show 0 = _
    omega

theorem Ledger.memory_lt (h : b.Ledger) : b.memory < 2 ^ 64 := h.memory ▸ toUInt64_lt _

private theorem memory_deleteStaleLoop (target : ℕ) : ∀ (l : List Node) (b : Bucket),
    b.memory < 2 ^ 64 → (deleteStaleLoop target l b).memory
      = toUInt64 (b.memory - sumOf Data.used (staleNodes target l b.memory)) := by
  intro l
  induction l with
  | nil =>
    intro b hlt
    have h := toUInt64_of_nonneg (Int.natCast_nonneg b.memory) (by exact_mod_cast hlt)
    rw [deleteStaleLoop, staleNodes, sumOf, List.map_nil, List.sum_nil, sub_zero]
    exact_mod_cast h.symm
  | cons n rest ih =>
    intro b hlt
    have hmem : (b.eraseFront n rest).memory = toUInt64 (b.memory - n.data.used) := rfl
    rw [deleteStaleLoop, staleNodes, sumOf_cons, ← hmem, ← sub_sub]
    by_cases hstop : (b.eraseFront n rest).memory < target
    · rw [if_pos hstop, if_pos hstop, hmem, sumOf, List.map_nil, List.sum_nil, sub_zero]
    · rw [if_neg hstop, if_neg hstop, ih _ (hmem ▸ toUInt64_lt _), hmem, toUInt64_toUInt64_sub]

/-- What an eviction takes off the counter. -/
theorem memory_deleteStaleData (hlt : b.memory < 2 ^ 64) (decreaseBy : ℕ) :
    (b.deleteStaleData decreaseBy).memory
      = toUInt64 (b.memory - sumOf Data.used (b.stale decreaseBy)) :=
  memory_deleteStaleLoop _ _ b hlt

theorem Ledger.makeRoom (h : b.Ledger) (threshold decreaseBy : ℕ) :
    (b.makeRoom threshold decreaseBy).Ledger := by
  refine ⟨h.wf.makeRoom threshold decreaseBy, ?_⟩
  rw [Bucket.makeRoom]
  split
  · rw [memory_deleteStaleData h.memory_lt, totalUsed, weigh_deleteStaleData,
      nextId_deleteStaleData, h.memory, toUInt64_toUInt64_sub, totalUsed]
    ring_nf
  · exact h.memory

theorem Ledger.addOrReplace (h : b.Ledger) {threshold decreaseBy : ℕ}
    (hadd : b.addOrReplace threshold decreaseBy k kv = .ok b') : b'.Ledger := by
  have hroom := (h.makeRoom threshold decreaseBy).memory
  refine ⟨(h.wf.addOrReplace hadd).1, ?_⟩
  rcases h.wf.addOrReplace_cases hadd with ⟨hmem, hid, hf⟩ | ⟨n, -, hmem, hid, hf⟩
  · rw [hmem, hroom, hid, totalUsed, totalUsed, hf, sub_add_eq_add_sub, add_sub_assoc,
      toUInt64_toUInt64_add]
    push_cast
    ring_nf
  · rw [hmem, hroom, hid, totalUsed, totalUsed, hf, sub_add_eq_add_sub, add_sub_assoc,
      toUInt64_toUInt64_add]
    ring_nf

theorem Ledger.get (h : b.Ledger) {r : Bool × KeyValue} (hget : b.get k kv = .ok (b', r)) :
    b'.Ledger := by
  obtain ⟨n, hfind⟩ := exists_findOrInsertData_of_get hget
  obtain ⟨hmem, hcases⟩ := h.wf.weigh_findOrInsertData hfind
  refine ⟨h.wf.findOrInsertData hfind, ?_⟩
  rw [hmem, h.memory]
  rcases hcases with ⟨-, hid, hf⟩ | ⟨-, -, hid, hf⟩
  · rw [totalUsed, totalUsed, hf, hid]
  · rw [totalUsed, totalUsed, hf, hid, Data.used_empty]
    push_cast
    ring_nf

/-- An entry whose size fits takes twelve bytes of overhead. -/
theorem Holds.totalUsed (h : b.Holds Data.Fits) :
    b.totalUsed = b.contents + 12 * b.accessList.length := by
  rw [Bucket.totalUsed, contents, weigh, weigh]
  have hl := h
  rw [Holds] at hl
  generalize b.accessList = l at hl
  induction l with
  | nil => rfl
  | cons n l ih =>
    rw [sumOf_cons, sumOf_cons, ih fun m hm ↦ hl m (List.mem_cons_of_mem _ hm),
      (hl n List.mem_cons_self).used, List.length_cons]
    push_cast
    ring

theorem contents_nonneg (b : Bucket) : 0 ≤ b.contents := by
  rw [contents, weigh]
  exact sumOf_nonneg fun n _ ↦ Int.natCast_nonneg n.data.size

/-! ## Without evictions -/

/-- The counter lies between the stored bytes and the sum of `Used`. -/
def Accounted (b : Bucket) : Prop := b.contents ≤ b.memory ∧ (b.memory : ℤ) ≤ b.totalUsed

/-- A bucket from which nothing was evicted: its overhead is that of the nodes it still has. -/
structure Unevicted (b : Bucket) (threshold : ℕ) : Prop where
  ledger : b.Ledger
  fits : b.Holds Data.Fits
  length : (b.accessList.length : ℤ) = b.nextId
  contents_lt : b.contents < threshold + 2 ^ 31

variable {threshold decreaseBy : ℕ}

theorem Unevicted.memory (h : b.Unevicted threshold) (hthr : threshold < 2 ^ 60) :
    (b.memory : ℤ) = b.contents := by
  have hlt := h.contents_lt
  rw [h.ledger.memory, h.fits.totalUsed, h.length, add_sub_cancel_right]
  exact toUInt64_of_nonneg b.contents_nonneg (by omega)

theorem Unevicted.accounted (h : b.Unevicted threshold) (hthr : threshold < 2 ^ 60) :
    b.Accounted := by
  have hmem := h.memory hthr
  refine ⟨hmem.ge, ?_⟩
  rw [hmem, h.fits.totalUsed]
  omega

/-- The number of nodes is a sum over the access list, too. -/
theorem length_eq_weigh (b : Bucket) : (b.accessList.length : ℤ) = b.weigh fun _ ↦ 1 := by
  rw [weigh, sumOf, List.map_const', List.sum_replicate]
  simp

theorem Unevicted.addOrReplace (h : b.Unevicted threshold) (hthr : threshold < 2 ^ 60)
    (hle : b.memory ≤ threshold) (hfits : (entryOf k kv).Fits)
    (hadd : b.addOrReplace threshold decreaseBy k kv = .ok b') : b'.Unevicted threshold := by
  have hmem := h.memory hthr
  have hroom : b.makeRoom threshold decreaseBy = b := if_neg (not_lt.mpr hle)
  have hcases := h.ledger.wf.addOrReplace_cases hadd
  have hlen := h.length
  rw [Data.Fits] at hfits
  rw [hroom] at hcases
  refine ⟨h.ledger.addOrReplace hadd, h.fits.addOrReplace Data.fits_empty hfits hadd, ?_, ?_⟩
  · rw [length_eq_weigh] at hlen ⊢
    rcases hcases with ⟨-, hid, hf⟩ | ⟨n, -, -, hid, hf⟩
    · rw [hf, hid, hlen]
      push_cast
      ring
    · rw [hf, hid, hlen]
      ring
  · rcases hcases with ⟨-, -, hf⟩ | ⟨n, -, -, -, hf⟩
    · have hcont : b'.contents = b.contents + (entryOf k kv).size := hf _
      omega
    · have hcont : b'.contents = b.contents - n.data.size + (entryOf k kv).size := hf _
      omega

theorem Unevicted.get (h : b.Unevicted threshold) {r : Bool × KeyValue}
    (hget : b.get k kv = .ok (b', r)) : b'.Unevicted threshold := by
  obtain ⟨n, hfind⟩ := exists_findOrInsertData_of_get hget
  have hlen := h.length
  obtain ⟨-, hcases⟩ := h.ledger.wf.weigh_findOrInsertData hfind
  refine ⟨h.ledger.get hget, h.fits.findOrInsertData Data.fits_empty hfind, ?_, ?_⟩
  · rw [length_eq_weigh] at hlen ⊢
    rcases hcases with ⟨-, hid, hf⟩ | ⟨-, -, hid, hf⟩
    · rw [hf, hid, hlen]
    · rw [hf, hid, hlen]
      push_cast
      ring
  · have hlt := h.contents_lt
    rcases hcases with ⟨-, -, hf⟩ | ⟨-, -, -, hf⟩
    · have hcont : b'.contents = b.contents := hf _
      omega
    · have hcont : b'.contents = b.contents + (Data.size {} : ℕ) := hf _
      have hzero : Data.size {} = 0 := rfl
      omega

/-- `AddOrReplace` under a new key, in a bucket that is not above its threshold: the entry goes to
the back, and the counter grows by its size. -/
theorem WF.addOrReplace_new (hb : b.WF) (decreaseBy : ℕ) (hnone : b.keyToLitr k = none)
    (hle : b.memory ≤ threshold) (hthr : threshold < 2 ^ 60) (hfits : (entryOf k kv).Fits) :
    b.addOrReplace threshold decreaseBy k kv = .ok {
      keyToLitr := Function.update b.keyToLitr k (some b.nextId)
      accessList := b.accessList ++ [⟨b.nextId, entryOf k kv⟩]
      memory := b.memory + (entryOf k kv).size
      nextId := b.nextId + 1 } := by
  have hroom : b.makeRoom threshold decreaseBy = b := if_neg (not_lt.mpr hle)
  have hold : (b.accessList.map fun m ↦ if m.id = b.nextId then ⟨m.id, entryOf k kv⟩ else m)
      = b.accessList := by
    conv_rhs => rw [← List.map_id' b.accessList]
    exact List.map_congr_left fun m hm ↦ if_neg (hb.id_lt m hm).ne
  have hmemory : toUInt64 (toUInt64 (b.memory - Data.used {}) + (entryOf k kv).used)
      = b.memory + (entryOf k kv).size := by
    have hsize := hfits
    rw [Data.Fits] at hsize
    have hcast := cast_toUInt64 (b.memory - Data.used {} + (entryOf k kv).used)
    rw [toUInt64_toUInt64_add, Data.used_empty, hfits.used]
    rw [Data.used_empty, hfits.used] at hcast
    omega
  rw [Bucket.addOrReplace, hroom, Bucket.findOrInsertData, hnone]
  simp only [Bucket.write, List.map_append, List.map_singleton, if_true, hold, hmemory]

theorem unevicted_empty (threshold : ℕ) : Unevicted {} threshold where
  ledger := ledger_empty
  fits := by
    intro n hn
    cases hn
  length := rfl
  contents_lt := by
    have h : contents {} = 0 := rfl
    omega

theorem stale_ne_nil (h : b.accessList ≠ []) (decreaseBy : ℕ) : b.stale decreaseBy ≠ [] := by
  rw [stale]
  cases hl : b.accessList with
  | nil => exact absurd hl h
  | cons n rest => exact List.cons_ne_nil _ _

/-- **One eviction is enough.** As long as the bucket has inserted fewer nodes than it takes for
their overhead to wrap the counter around, the first eviction breaks the accounting. -/
theorem Unevicted.not_accounted (h : b.Unevicted threshold) (hthr : threshold < 2 ^ 60)
    (hlt : threshold < b.memory) (hid : b.nextId < 2 ^ 60) (hfits : (entryOf k kv).Fits)
    (hadd : b.addOrReplace threshold decreaseBy k kv = .ok b') : ¬b'.Accounted := by
  have hmem := h.memory hthr
  have hne : b.accessList ≠ [] := by
    intro hnil
    have hzero : b.contents = 0 := by rw [contents, weigh, hnil]; rfl
    omega
  -- At least one node is erased, and from then on the list has fewer nodes than were inserted.
  have hroom : b.makeRoom threshold decreaseBy = b.deleteStaleData decreaseBy := if_pos hlt
  have hgone := List.length_pos_of_ne_nil (stale_ne_nil hne decreaseBy)
  have hlist := congrArg List.length (b.accessList_eq_stale_append decreaseBy)
  rw [List.length_append] at hlist
  have hstale : 0 ≤ sumOf (fun d ↦ (d.size : ℤ)) (b.stale decreaseBy) :=
    sumOf_nonneg fun n _ ↦ Int.natCast_nonneg n.data.size
  have hcont : (b.deleteStaleData decreaseBy).contents ≤ b.contents := by
    rw [contents, weigh_deleteStaleData]
    exact sub_le_self _ hstale
  have hshort : b'.accessList.length < b'.nextId ∧ b'.nextId ≤ 2 ^ 60 ∧
      b'.contents ≤ b.contents + (entryOf k kv).size := by
    have hcases := h.ledger.wf.addOrReplace_cases hadd
    have hlen := b'.length_eq_weigh
    have hlen' := (b.deleteStaleData decreaseBy).length_eq_weigh
    have hlen₀ := h.length
    rw [hroom, nextId_deleteStaleData] at hcases
    rcases hcases with ⟨-, hid', hf⟩ | ⟨n, -, -, hid', hf⟩
    · have hc : b'.contents = (b.deleteStaleData decreaseBy).contents + _ := hf _
      rw [hf] at hlen
      refine ⟨by omega, by omega, by omega⟩
    · have hc : b'.contents = (b.deleteStaleData decreaseBy).contents - (n.data.size : ℕ) + _ :=
        hf _
      rw [hf] at hlen
      refine ⟨by omega, by omega, by omega⟩
  have hledger := cast_toUInt64 (b'.totalUsed - 12 * b'.nextId)
  have hused := (h.fits.addOrReplace Data.fits_empty hfits hadd).totalUsed
  have hnonneg := b'.contents_nonneg
  have hlt' := h.contents_lt
  rw [← (h.ledger.addOrReplace hadd).memory, hused] at hledger
  rw [Data.Fits] at hfits
  rw [Accounted, hused]
  rintro ⟨hlow, hhigh⟩
  -- Either the counter is short of the contents, or it has wrapped and is far above them.
  by_cases hwrap : b'.contents + 12 * b'.accessList.length < 12 * b'.nextId
  · rw [← Int.add_emod_right, Int.emod_eq_of_lt (by omega) (by omega)] at hledger
    omega
  · rw [Int.emod_eq_of_lt (by omega) (by omega)] at hledger
    omega

end Bucket

/-! ## Histories of the whole cache -/

namespace Cache

/-- The entry that a call stores fits. -/
def Call.Fits : Call → Prop
  | .addOrReplace k kv => (Bucket.entryOf k kv).Fits
  | .get _ _ => True

/-- The call starts an eviction. -/
def Evicts (c : Cache) : Call → Prop
  | .addOrReplace k _ => c.threshold < (c.bucketOf k).memory
  | .get _ _ => False

/-- The call evicts nothing, and what it stores fits. -/
def KeepsAccounts (c : Cache) (op : Call) : Prop := ¬c.Evicts op ∧ op.Fits

variable {c c' : Cache} {op : Call} {ops : List Call} {capacity : UInt64} {strHash : Bytes → ℕ}

/-- What a lookup leaves of its bucket. -/
theorem exists_get_of_callBucket {k : Bytes} {kv : KeyValue} {b b' : Bucket}
    (h : c.callBucket b (.get k kv) = .ok b') : ∃ r, b.get k kv = .ok (b', r) := by
  rw [callBucket] at h
  cases hget : b.get k kv with
  | error e =>
    rw [hget] at h
    cases h
  | ok r =>
    rw [hget] at h
    obtain rfl : r.1 = b' := Except.ok.inj h
    exact ⟨r.2, rfl⟩

/-- **The drift of the counter.** After every history, in every bucket: `memory` is the sum of
`Used` less twelve bytes for every node that was ever inserted, modulo `2 ^ 64`. -/
theorem ledger_of_run (hrun : Run Step (new capacity strHash) ops c) (i : Fin kNumBuckets) :
    (c.buckets i).Ledger := by
  revert i
  refine hrun.invariant (I := fun c ↦ ∀ i, (c.buckets i).Ledger) (fun _ ↦ Bucket.ledger_empty) ?_
  intro c₁ op c₂ h hstep
  refine forall_buckets_of_call h hstep fun b hb ↦ ?_
  rcases op with ⟨k, kv⟩ | ⟨k, kv⟩
  · exact (h _).addOrReplace hb
  · obtain ⟨r, hget⟩ := exists_get_of_callBucket hb
    exact (h _).get hget

theorem unevicted_of_run (hrun : Run (Guarded Step KeepsAccounts) (new capacity strHash) ops c) :
    ∀ i, (c.buckets i).Unevicted c.threshold := by
  induction hrun with
  | nil => exact fun i ↦ Bucket.unevicted_empty _
  | @snoc c₁ c₂ ops op hrun hstep ih =>
    obtain ⟨-, hthr₁, -⟩ := sameParams_of_run hrun.of_guarded
    obtain ⟨-, -, -, -, hthr₂, -⟩ := buckets_of_call hstep.1
    have hthr : c₁.threshold < 2 ^ 60 := hthr₁ ▸ threshold_lt capacity strHash
    rw [hthr₂]
    refine forall_buckets_of_call (I := fun b ↦ b.Unevicted c₁.threshold) ih hstep.1 fun b hb ↦ ?_
    rcases op with ⟨k, kv⟩ | ⟨k, kv⟩
    · exact (ih _).addOrReplace hthr (not_lt.mp hstep.2.1) hstep.2.2 hb
    · obtain ⟨r, hget⟩ := exists_get_of_callBucket hb
      exact (ih _).get hget

/-- **The accounting holds as long as nothing is evicted.** In every history whose calls evict
nothing and store entries whose `Used` fits an `int`, the counter of every bucket lies between the
sum of the key and value sizes and the sum of `Used`. -/
theorem accounted_of_keepsAccounts (capacity : UInt64) (strHash : Bytes → ℕ) (ops : List Call)
    (c : Cache) (hrun : Run (Guarded Step KeepsAccounts) (new capacity strHash) ops c)
    (i : Fin kNumBuckets) : (c.buckets i).Accounted := by
  obtain ⟨-, hthr, -⟩ := sameParams_of_run hrun.of_guarded
  exact (unevicted_of_run hrun i).accounted (hthr ▸ threshold_lt capacity strHash)

/-- **And no longer.** The first eviction breaks it, in a bucket that has not inserted nodes without
end. -/
theorem not_accounted_of_evicts
    (hrun : Run (Guarded Step KeepsAccounts) (new capacity strHash) ops c) (hfits : op.Fits)
    (hev : c.Evicts op) (hid : (c.bucketOf op.key).nextId < 2 ^ 60) (hstep : c.Step op c') :
    ¬(c'.bucketOf op.key).Accounted := by
  rcases op with ⟨k, kv⟩ | ⟨k, kv⟩
  · obtain ⟨-, hthr, -⟩ := sameParams_of_run hrun.of_guarded
    obtain ⟨b, hb, hbuckets, hhash, -⟩ := buckets_of_call hstep
    rw [bucketOf_update hhash hbuckets, if_pos rfl]
    exact (unevicted_of_run hrun _).not_accounted (hthr ▸ threshold_lt capacity strHash) hev hid
      hfits hb
  · exact absurd hev id

instance (c : Cache) : ∀ op, Decidable (c.KeepsAccounts op)
  | .addOrReplace k kv => inferInstanceAs (Decidable
      (¬c.threshold < (c.bucketOf k).memory ∧ (Bucket.entryOf k kv).size + 12 < 2 ^ 31))
  | .get _ _ => inferInstanceAs (Decidable (¬False ∧ True))

/-- A missed lookup, whose node is used for a value later, a value that is replaced and looked up,
and a value in another bucket. -/
def missAndReplace : List Call :=
  [.get [97] {}, .addOrReplace [98] { val? := some [49] },
    .addOrReplace [1, 2] { val? := some [7] }, .addOrReplace [98] { val? := some [50, 50] },
    .get [98] {}, .addOrReplace [97] { val? := some [51] }, .get [99] {}]

/-- Three nodes hold five bytes of keys and values, which the counter says, and use 41 bytes. -/
theorem accounted_of_keepsAccounts_missAndReplace : ∃ c,
    Run (Guarded Step KeepsAccounts) (new 0 List.length) missAndReplace c ∧
      (c.bucketOf [97]).memory = 5 ∧ (c.bucketOf [97]).contents = 5 ∧
      (c.bucketOf [97]).totalUsed = 41 ∧ ∀ i, (c.buckets i).Accounted := by
  have hcheck : ∀ (c : Cache) (op : Call),
      decide (c.KeepsAccounts op) = true → c.KeepsAccounts op :=
    fun _ _ ↦ of_decide_eq_true
  obtain ⟨c, hrun, hc⟩ := exists_run_of_execChecked hcheck
    (show (execChecked (fun c op ↦ (c.call op).toOption) _ (new 0 List.length)
      missAndReplace).map (fun c ↦ ((c.bucketOf [97]).memory, (c.bucketOf [97]).contents,
        (c.bucketOf [97]).totalUsed)) = some (5, 5, 41) by decide +kernel)
  simp only [Prod.mk.injEq] at hc
  obtain ⟨hmemory, hcontents, hused⟩ := hc
  have hrun : Run (Guarded Step KeepsAccounts) (new 0 List.length) missAndReplace c :=
    hrun.mono fun _ _ _ h ↦ ⟨step_of_toOption h.1, h.2⟩
  exact ⟨c, hrun, hmemory, hcontents, hused, accounted_of_keepsAccounts _ _ _ _ hrun⟩

/-- Storing a value under a new key, in a bucket that is not above its threshold. -/
theorem WF.exists_step_store (hc : c.WF) (hthr : c.threshold < 2 ^ 60) (k : Bytes) (kv : KeyValue)
    (hnone : (c.bucketOf k).keyToLitr k = none) (hle : (c.bucketOf k).memory ≤ c.threshold)
    (hfits : (Bucket.entryOf k kv).Fits) :
    ∃ c', c.Step (.addOrReplace k kv) c' ∧ c.SameParams c' ∧
      c'.bucketOf k = {
        keyToLitr := Function.update (c.bucketOf k).keyToLitr k (some (c.bucketOf k).nextId)
        accessList := (c.bucketOf k).accessList ++
          [⟨(c.bucketOf k).nextId, Bucket.entryOf k kv⟩]
        memory := (c.bucketOf k).memory + (Bucket.entryOf k kv).size
        nextId := (c.bucketOf k).nextId + 1 } := by
  have hadd := (hc (c.getIndex k)).addOrReplace_new c.decreaseBy hnone hle hthr hfits
  obtain ⟨c', hstep, hbucket, hparams⟩ := exists_step_bucketOf (.addOrReplace k kv) k hadd rfl
  exact ⟨c', hstep, hparams, hbucket⟩

/-- The same, as the next call of a history without an eviction. -/
theorem exists_run_store (k : Bytes) (kv : KeyValue)
    (hrun : Run (Guarded Step KeepsAccounts) (new capacity strHash) ops c)
    (hnone : (c.bucketOf k).keyToLitr k = none) (hle : (c.bucketOf k).memory ≤ c.threshold)
    (hfits : (Bucket.entryOf k kv).Fits) :
    ∃ c', Run (Guarded Step KeepsAccounts) (new capacity strHash)
        (ops ++ [.addOrReplace k kv]) c' ∧ c.SameParams c' ∧
      c'.bucketOf k = {
        keyToLitr := Function.update (c.bucketOf k).keyToLitr k (some (c.bucketOf k).nextId)
        accessList := (c.bucketOf k).accessList ++
          [⟨(c.bucketOf k).nextId, Bucket.entryOf k kv⟩]
        memory := (c.bucketOf k).memory + (Bucket.entryOf k kv).size
        nextId := (c.bucketOf k).nextId + 1 } := by
  obtain ⟨-, hthr, -⟩ := sameParams_of_run hrun.of_guarded
  have hwf : c.WF := (wf_new capacity strHash).of_run hrun.of_guarded
  obtain ⟨c', hstep, hparams, hbucket⟩ :=
    hwf.exists_step_store (hthr ▸ threshold_lt capacity strHash) k kv hnone hle hfits
  exact ⟨c', hrun.snoc ⟨hstep, not_lt.mpr hle, hfits⟩, hparams, hbucket⟩

/-- Storing a value that fills its bucket. -/
private theorem exists_run_filled {v : Bytes} (hv : v.length = 10 <<< 20) :
    ∃ c, Run (Guarded Step KeepsAccounts) (new 0 fun _ ↦ 0)
        [.addOrReplace [98] { val? := some v }] c ∧
      c.Evicts (.addOrReplace [99] {}) ∧ (c.bucketOf [99]).keyToLitr [99] = none ∧
      (c.bucketOf [99]).nextId = 1 := by
  have hsize : (Bucket.entryOf [98] { val? := some v }).size = 10485761 := by
    simp [Data.size, Bucket.entryOf, KeyValue.val, hv]
  obtain ⟨c, hrun, ⟨hhash, hthr, -⟩, hb⟩ := exists_run_store [98] { val? := some v }
    (Run.nil (new 0 fun _ ↦ 0)) rfl (Nat.zero_le _) (by rw [Data.Fits, hsize]; decide)
  have hthr₀ : (new 0 fun _ ↦ 0).threshold = 10485760 := by decide +kernel
  have hsame : c.bucketOf [99] = c.bucketOf [98] := by
    rw [bucketOf, bucketOf, getIndex_congr hhash, getIndex_congr hhash]
    rfl
  refine ⟨c, hrun, ?_, ?_, ?_⟩
  · rw [Evicts, hsame, hb, hsize, hthr, hthr₀]
    exact Nat.lt_add_of_pos_left (by decide)
  · rw [hsame, hb]
    rfl
  · rw [hsame, hb]
    rfl

/-- The accounting does not survive an eviction: a value that fills its bucket is evicted, and the
counter wraps around. -/
theorem accounting_drifts : ∃ c, Run Step (new 0 fun _ ↦ 0)
    [.addOrReplace [98] { val? := some (List.replicate (10 <<< 20) 0) }, .addOrReplace [99] {}] c ∧
      ¬∀ i, (c.buckets i).Accounted := by
  obtain ⟨c, hrun, hev, hnone, hid⟩ :=
    exists_run_filled (List.length_replicate (n := 10 <<< 20) (a := (0 : UInt8)))
  obtain ⟨c', hstep⟩ := exists_step_of_keyToLitr_eq_none (.addOrReplace [99] {}) hnone
  refine ⟨c', hrun.of_guarded.snoc hstep, fun h ↦ ?_⟩
  refine not_accounted_of_evicts hrun ?_ hev ?_ hstep (h _)
  · rw [Call.Fits, Data.Fits, Data.size]
    decide
  · rw [Call.key, hid]
    decide

end Cache

end MemcacheRouter
