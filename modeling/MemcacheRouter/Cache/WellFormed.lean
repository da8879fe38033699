import MemcacheRouter.Cache.Lru
import MemcacheRouter.Foundations.LossyMap

/-!
# What every reachable bucket keeps

`Bucket.WF` collects the facts that hold of a bucket after any history of calls that used no erased
node, whatever was evicted on the way. It does not say that every registered iterator is live: an
eviction can leave the registration of a key behind (`Cache.Index`). What it does say is enough to
read the cache as a map that may forget: `view` is what a `Get` would return, a `Get` leaves it
alone, and an `AddOrReplace` of `k` sets it at `k` and elsewhere changes it only by forgetting
(`LossyMap.Put`).
-/

namespace MemcacheRouter

namespace Bucket

/-- Facts that survive any history in which no erased node is used. -/
structure WF (b : Bucket) : Prop where
  nodup : (b.accessList.map Node.id).Nodup
  id_lt : ∀ n ∈ b.accessList, n.id < b.nextId
  litr_lt : ∀ k id, b.keyToLitr k = some id → id < b.nextId
  /-- Different keys designate different nodes. -/
  litr_inj : ∀ k k' id, b.keyToLitr k = some id → b.keyToLitr k' = some id → k = k'
  /-- A designated node stores its key, or it is an empty one that a missed lookup inserted. -/
  stored : ∀ k n, n ∈ b.accessList → b.keyToLitr k = some n.id →
    n.data.key = k ∨ (n.data.key = [] ∧ n.data.value = [])
  /-- A node that stores a non-empty key is designated by it. -/
  registered : ∀ n ∈ b.accessList, n.data.key ≠ [] → b.keyToLitr n.data.key = some n.id
  /-- The registration of the empty key is never left behind. -/
  nil_live : ∀ id, b.keyToLitr [] = some id → ∃ n ∈ b.accessList, n.id = id

theorem wf_empty : WF {} where
  nodup := by simp
  id_lt := by simp
  litr_lt := by simp
  litr_inj := by simp
  stored := by simp
  registered := by simp
  nil_live := by simp

variable {b b' : Bucket} {k j : Bytes} {kv kv' : KeyValue} {n m : Node}

theorem WF.eq_of_id (hb : b.WF) (hn : n ∈ b.accessList) (hm : m ∈ b.accessList)
    (h : n.id = m.id) : n = m :=
  List.inj_on_of_nodup_map hb.nodup hn hm h

theorem mem_of_node? {id : ℕ} (h : b.node? id = some n) : n ∈ b.accessList ∧ n.id = id :=
  ⟨List.mem_of_find?_eq_some h, by simpa using List.find?_some h⟩

theorem WF.node?_eq_some_iff (hb : b.WF) {id : ℕ} :
    b.node? id = some n ↔ n ∈ b.accessList ∧ n.id = id := by
  refine ⟨mem_of_node?, ?_⟩
  rintro ⟨hn, rfl⟩
  cases hf : b.node? n.id with
  | none =>
    have hne : n.id ≠ n.id := by simpa using List.find?_eq_none.mp hf n hn
    exact absurd rfl hne
  | some m =>
    obtain ⟨hm, hid⟩ := mem_of_node? hf
    rw [hb.eq_of_id hm hn hid]

theorem node?_eq_none_iff {id : ℕ} : b.node? id = none ↔ ∀ n ∈ b.accessList, n.id ≠ id := by
  rw [node?, List.find?_eq_none]
  simp

/-! ## `FindOrInsertData` -/

/-- The two ways `FindOrInsertData` returns: the registered node, now at the back, or a new empty
node. -/
theorem findOrInsertData_cases (h : b.findOrInsertData k = .ok (b', n)) :
    (b.keyToLitr k = some n.id ∧ n ∈ b.accessList ∧ b' = { b with
      accessList := b.accessList.filter (·.id != n.id) ++ [n] }) ∨
    (b.keyToLitr k = none ∧ n = ⟨b.nextId, {}⟩ ∧ b' = { b with
      accessList := b.accessList ++ [n]
      keyToLitr := Function.update b.keyToLitr k (some n.id)
      nextId := b.nextId + 1 }) := by
  rw [findOrInsertData] at h
  split at h
  · next id hk =>
    split at h
    · next m hm =>
      obtain ⟨hmem, hid⟩ := mem_of_node? hm
      cases h
      subst hid
      refine Or.inl ⟨hk, hmem, ?_⟩
      rw [← hk, Function.update_eq_self]
    · cases h
  · next hk =>
    cases h
    exact Or.inr ⟨hk, rfl, rfl⟩

/-- It fails only on a registration whose node was erased. -/
theorem findOrInsertData_eq_error_iff : (∃ e, b.findOrInsertData k = .error e) ↔
    ∃ id, b.keyToLitr k = some id ∧ b.node? id = none := by
  rw [findOrInsertData]
  cases hk : b.keyToLitr k with
  | none => simp
  | some id =>
    cases hf : b.node? id with
    | none => simp [hf]
    | some m => simp [hf]

theorem WF.mem_moveToBack (hb : b.WF) (hn : n ∈ b.accessList) :
    m ∈ b.accessList.filter (·.id != n.id) ++ [n] ↔ m ∈ b.accessList := by
  simp only [List.mem_append, List.mem_filter, bne_iff_ne, ne_eq, List.mem_singleton]
  constructor
  · rintro (⟨hm, -⟩ | rfl)
    · exact hm
    · exact hn
  · intro hm
    by_cases hid : m.id = n.id
    · exact Or.inr (hb.eq_of_id hm hn hid)
    · exact Or.inl ⟨hm, hid⟩

theorem WF.moveToBack (hb : b.WF) (hn : n ∈ b.accessList) :
    WF { b with accessList := b.accessList.filter (·.id != n.id) ++ [n] } := by
  have hmem := fun m ↦ hb.mem_moveToBack (m := m) hn
  refine ⟨?_, ?_, hb.litr_lt, hb.litr_inj, ?_, ?_, ?_⟩
  · rw [List.map_append, List.nodup_append]
    refine ⟨hb.nodup.sublist (List.filter_sublist.map _), by simp, ?_⟩
    intro i hi i' hi'
    simp only [List.mem_map, List.mem_filter, bne_iff_ne, ne_eq, List.map_cons, List.map_nil,
      List.mem_singleton] at hi hi'
    obtain ⟨m, ⟨-, hne⟩, rfl⟩ := hi
    rw [hi']
    exact hne
  · exact fun m hm ↦ hb.id_lt m ((hmem m).mp hm)
  · exact fun k m hm ↦ hb.stored k m ((hmem m).mp hm)
  · exact fun m hm ↦ hb.registered m ((hmem m).mp hm)
  · intro id hid
    obtain ⟨m, hm, rfl⟩ := hb.nil_live id hid
    exact ⟨m, (hmem m).mpr hm, rfl⟩

/-- What the keys designate after `k` was registered. -/
theorem register_cases {id i : ℕ} (h : Function.update b.keyToLitr k (some i) j = some id) :
    (j = k ∧ i = id) ∨ b.keyToLitr j = some id := by
  rw [Function.update_apply] at h
  split_ifs at h with hj
  · exact Or.inl ⟨hj, Option.some.inj h⟩
  · exact Or.inr h

/-- The first registration of a key leaves the others as they are. -/
theorem register_of_eq_some {id i : ℕ} (hk : b.keyToLitr k = none) (hj : b.keyToLitr j = some id) :
    Function.update b.keyToLitr k (some i) j = some id := by
  have hne : j ≠ k := by
    rintro rfl
    rw [hk] at hj
    cases hj
  rw [Function.update_of_ne hne, hj]

theorem WF.insertEmpty (hb : b.WF) (hk : b.keyToLitr k = none) :
    WF { b with
      accessList := b.accessList ++ [⟨b.nextId, {}⟩]
      keyToLitr := Function.update b.keyToLitr k (some b.nextId)
      nextId := b.nextId + 1 } := by
  -- the new identity is above every identity in use, which settles all the collisions below
  refine ⟨?_, ?_, ?_, ?_, ?_, ?_, ?_⟩
  · rw [List.map_append, List.nodup_append]
    refine ⟨hb.nodup, by simp, ?_⟩
    intro i hi i' hi'
    obtain ⟨m, hm, rfl⟩ := List.mem_map.mp hi
    have hlt := hb.id_lt m hm
    simp only [List.map_cons, List.map_nil, List.mem_singleton] at hi'
    omega
  · intro m hm
    rcases List.mem_append.mp hm with hm | hm
    · exact (hb.id_lt m hm).trans (Nat.lt_succ_self _)
    · rw [List.mem_singleton.mp hm]
      exact Nat.lt_succ_self _
  · intro j id hj
    rcases register_cases hj with ⟨-, rfl⟩ | hj
    · exact Nat.lt_succ_self _
    · exact (hb.litr_lt j id hj).trans (Nat.lt_succ_self _)
  · intro j j' id hj hj'
    rcases register_cases hj with ⟨rfl, rfl⟩ | hj
    · rcases register_cases hj' with ⟨rfl, -⟩ | hj'
      · rfl
      · exact absurd (hb.litr_lt j' _ hj') (lt_irrefl _)
    · rcases register_cases hj' with ⟨-, rfl⟩ | hj'
      · exact absurd (hb.litr_lt j _ hj) (lt_irrefl _)
      · exact hb.litr_inj j j' id hj hj'
  · intro j m hm hj
    rcases List.mem_append.mp hm with hm | hm
    · rcases register_cases hj with ⟨-, hid⟩ | hj
      · exact absurd hid (hb.id_lt m hm).ne'
      · exact hb.stored j m hm hj
    · rw [List.mem_singleton.mp hm]
      exact Or.inr ⟨rfl, rfl⟩
  · intro m hm hne
    rcases List.mem_append.mp hm with hm | hm
    · exact register_of_eq_some hk (hb.registered m hm hne)
    · rw [List.mem_singleton.mp hm] at hne
      exact absurd rfl hne
  · intro id hid
    rcases register_cases hid with ⟨-, rfl⟩ | hid
    · exact ⟨⟨b.nextId, {}⟩, by simp, rfl⟩
    · obtain ⟨m, hm, rfl⟩ := hb.nil_live id hid
      exact ⟨m, List.mem_append_left _ hm, rfl⟩

theorem WF.findOrInsertData (hb : b.WF) (h : b.findOrInsertData k = .ok (b', n)) : b'.WF := by
  rcases findOrInsertData_cases h with ⟨-, hn, rfl⟩ | ⟨hk, rfl, rfl⟩
  · exact hb.moveToBack hn
  · exact hb.insertEmpty hk

/-- Afterwards the key designates the node that was returned. -/
theorem findOrInsertData_litr (h : b.findOrInsertData k = .ok (b', n)) :
    b'.keyToLitr k = some n.id ∧ n ∈ b'.accessList := by
  rcases findOrInsertData_cases h with ⟨hk, -, rfl⟩ | ⟨-, rfl, rfl⟩
  · exact ⟨hk, by simp⟩
  · exact ⟨by simp, by simp⟩

/-! ## Overwriting an entry -/

theorem map_id_write (b : Bucket) (id : ℕ) (d : Data) :
    (b.write id d).accessList.map Node.id = b.accessList.map Node.id := by
  rw [write, List.map_map]
  refine List.map_congr_left fun m _ ↦ ?_
  simp only [Function.comp_apply]
  split <;> rfl

theorem mem_write {id : ℕ} {d : Data} : m ∈ (b.write id d).accessList ↔
    (m ∈ b.accessList ∧ m.id ≠ id) ∨ (m.data = d ∧ m.id = id ∧ ∃ n ∈ b.accessList, n.id = id) := by
  simp only [write, List.mem_map]
  constructor
  · rintro ⟨n, hn, rfl⟩
    split
    · next h => exact Or.inr ⟨rfl, h, n, hn, h⟩
    · next h => exact Or.inl ⟨hn, h⟩
  · rintro (⟨hm, hne⟩ | ⟨rfl, rfl, n, hn, hid⟩)
    · exact ⟨m, hm, if_neg hne⟩
    · refine ⟨n, hn, ?_⟩
      rw [if_pos hid, hid]

theorem WF.write (hb : b.WF) {id : ℕ} {d : Data} (hk : b.keyToLitr k = some id)
    (hd : d.key = k) : (b.write id d).WF := by
  refine ⟨?_, ?_, hb.litr_lt, hb.litr_inj, ?_, ?_, ?_⟩
  · rw [map_id_write]
    exact hb.nodup
  · intro m hm
    rcases mem_write.mp hm with ⟨hm, -⟩ | ⟨-, hid, n, hn, hid'⟩
    · exact hb.id_lt m hm
    · rw [hid, ← hid']
      exact hb.id_lt n hn
  · intro j m hm hj
    rcases mem_write.mp hm with ⟨hm, -⟩ | ⟨hdata, hid, -⟩
    · exact hb.stored j m hm hj
    · left
      rw [hdata, hd]
      exact hb.litr_inj k j id hk (hid ▸ hj)
  · intro m hm hne
    rcases mem_write.mp hm with ⟨hm, -⟩ | ⟨hdata, hid, -⟩
    · exact hb.registered m hm hne
    · rw [hdata, hd, hid]
      exact hk
  · intro i hi
    obtain ⟨m, hm, rfl⟩ := hb.nil_live i hi
    by_cases hid : m.id = id
    · exact ⟨⟨id, d⟩, mem_write.mpr (Or.inr ⟨rfl, rfl, m, hm, hid⟩), hid.symm⟩
    · exact ⟨m, mem_write.mpr (Or.inl ⟨hm, hid⟩), rfl⟩

/-! ## Eviction -/

/-- The nodes one eviction pass erases: the shortest prefix that takes `memory` below the target,
or the whole list. -/
def staleNodes (target : ℕ) : List Node → ℕ → List Node
  | [], _ => []
  | n :: rest, memory =>
    n :: if toUInt64 (memory - n.data.used) < target then []
      else staleNodes target rest (toUInt64 (memory - n.data.used))

theorem staleNodes_isPrefix (target : ℕ) : ∀ (l : List Node) (memory : ℕ),
    staleNodes target l memory <+: l := by
  intro l
  induction l with
  | nil => exact fun _ ↦ List.prefix_refl _
  | cons n rest ih =>
    intro memory
    rw [staleNodes, List.prefix_cons_inj]
    split_ifs
    · exact List.nil_prefix
    · exact ih _

/-- The nodes that `deleteStaleData` erases. -/
def stale (b : Bucket) (decreaseBy : ℕ) : List Node :=
  staleNodes (toUInt64 (b.memory - decreaseBy)) b.accessList b.memory

/-- The map without the entries of the given keys. -/
def eraseKeys (f : Bytes → Option ℕ) (ks : List Bytes) (k : Bytes) : Option ℕ :=
  if k ∈ ks then none else f k

/-- What the eviction loop leaves, in terms of the nodes it erased. -/
private theorem deleteStaleLoop_spec (target : ℕ) : ∀ (l : List Node) (b : Bucket),
    b.accessList = l →
    l = staleNodes target l b.memory ++ (deleteStaleLoop target l b).accessList ∧
    (deleteStaleLoop target l b).keyToLitr =
      eraseKeys b.keyToLitr ((staleNodes target l b.memory).map (·.data.key)) ∧
    (deleteStaleLoop target l b).nextId = b.nextId := by
  intro l
  induction l with
  | nil =>
    intro b hb
    refine ⟨?_, ?_, rfl⟩
    · rw [deleteStaleLoop, hb, staleNodes, List.append_nil]
    · funext k
      simp [deleteStaleLoop, staleNodes, eraseKeys]
  | cons n rest ih =>
    intro b hb
    rw [deleteStaleLoop, staleNodes]
    have hmem : (b.eraseFront n rest).memory = toUInt64 (b.memory - n.data.used) := rfl
    rw [← hmem]
    -- below the target the loop ends with this node, else it goes on with the rest
    by_cases hlt : (b.eraseFront n rest).memory < target
    · rw [if_pos hlt, if_pos hlt]
      refine ⟨rfl, ?_, rfl⟩
      funext k
      simp [eraseFront, eraseKeys, Function.update_apply]
    · rw [if_neg hlt, if_neg hlt]
      obtain ⟨hlist, hmap, hid⟩ := ih (b.eraseFront n rest) rfl
      refine ⟨?_, ?_, hid⟩
      · rw [List.cons_append]
        exact congrArg (n :: ·) hlist
      · rw [hmap]
        funext k
        simp only [eraseFront, eraseKeys, Function.update_apply, List.map_cons, List.mem_cons]
        by_cases hk : k = n.data.key <;> simp [hk]

theorem accessList_eq_stale_append (b : Bucket) (decreaseBy : ℕ) :
    b.accessList = b.stale decreaseBy ++ (b.deleteStaleData decreaseBy).accessList :=
  (deleteStaleLoop_spec (toUInt64 (b.memory - decreaseBy)) b.accessList b rfl).1

theorem keyToLitr_deleteStaleData (b : Bucket) (decreaseBy : ℕ) :
    (b.deleteStaleData decreaseBy).keyToLitr
      = eraseKeys b.keyToLitr ((b.stale decreaseBy).map (·.data.key)) :=
  (deleteStaleLoop_spec (toUInt64 (b.memory - decreaseBy)) b.accessList b rfl).2.1

theorem nextId_deleteStaleData (b : Bucket) (decreaseBy : ℕ) :
    (b.deleteStaleData decreaseBy).nextId = b.nextId :=
  (deleteStaleLoop_spec (toUInt64 (b.memory - decreaseBy)) b.accessList b rfl).2.2

/-- An entry that survives an eviction was there before, and no erased node stored its key. -/
theorem keyToLitr_deleteStaleData_eq_some {decreaseBy id : ℕ} :
    (b.deleteStaleData decreaseBy).keyToLitr k = some id ↔
      b.keyToLitr k = some id ∧ ∀ n ∈ b.stale decreaseBy, n.data.key ≠ k := by
  rw [keyToLitr_deleteStaleData, eraseKeys]
  split
  · next h =>
    obtain ⟨n, hn, hk⟩ := List.mem_map.mp h
    simp only [reduceCtorEq, false_iff, not_and, not_forall]
    exact fun _ ↦ ⟨n, hn, fun hne ↦ hne hk⟩
  · next h =>
    constructor
    · intro hk
      exact ⟨hk, fun n hn hkey ↦ h (List.mem_map.mpr ⟨n, hn, hkey⟩)⟩
    · exact fun hk ↦ hk.1

theorem mem_accessList_iff_stale {decreaseBy : ℕ} : n ∈ b.accessList ↔
    n ∈ b.stale decreaseBy ∨ n ∈ (b.deleteStaleData decreaseBy).accessList := by
  conv_lhs => rw [b.accessList_eq_stale_append decreaseBy]
  exact List.mem_append

theorem WF.not_mem_of_mem_stale (hb : b.WF) {decreaseBy : ℕ} (hn : n ∈ b.stale decreaseBy)
    (hm : m ∈ (b.deleteStaleData decreaseBy).accessList) : n.id ≠ m.id := by
  have hnodup := hb.nodup
  rw [b.accessList_eq_stale_append decreaseBy, List.map_append, List.nodup_append] at hnodup
  exact hnodup.2.2 n.id (List.mem_map_of_mem hn) m.id (List.mem_map_of_mem hm)

theorem WF.deleteStaleData (hb : b.WF) (decreaseBy : ℕ) : (b.deleteStaleData decreaseBy).WF := by
  have hmem : ∀ m ∈ (b.deleteStaleData decreaseBy).accessList, m ∈ b.accessList := fun m hm ↦
    mem_accessList_iff_stale.mpr (Or.inr hm)
  have hlitr : ∀ {k id}, (b.deleteStaleData decreaseBy).keyToLitr k = some id →
      b.keyToLitr k = some id := fun h ↦ (keyToLitr_deleteStaleData_eq_some.mp h).1
  refine ⟨?_, ?_, ?_, ?_, ?_, ?_, ?_⟩
  · have hnodup := hb.nodup
    rw [b.accessList_eq_stale_append decreaseBy, List.map_append] at hnodup
    exact (List.nodup_append.mp hnodup).2.1
  · intro m hm
    rw [nextId_deleteStaleData]
    exact hb.id_lt m (hmem m hm)
  · intro k id hk
    rw [nextId_deleteStaleData]
    exact hb.litr_lt k id (hlitr hk)
  · exact fun k k' id hk hk' ↦ hb.litr_inj k k' id (hlitr hk) (hlitr hk')
  · exact fun k m hm hk ↦ hb.stored k m (hmem m hm) (hlitr hk)
  · intro m hm hne
    refine keyToLitr_deleteStaleData_eq_some.mpr ⟨hb.registered m (hmem m hm) hne, ?_⟩
    intro n hn hkey
    -- two nodes that store the same non-empty key are both designated by it
    have hreg := hb.registered n (mem_accessList_iff_stale.mpr (Or.inl hn)) (hkey ▸ hne)
    rw [hkey, hb.registered m (hmem m hm) hne] at hreg
    exact hb.not_mem_of_mem_stale hn hm (Option.some.inj hreg).symm
  · intro id hid
    obtain ⟨hk, hkeep⟩ := keyToLitr_deleteStaleData_eq_some.mp hid
    obtain ⟨m, hm, rfl⟩ := hb.nil_live id hk
    rcases mem_accessList_iff_stale.mp hm with hs | hs
    · rcases hb.stored [] m hm hk with hkey | ⟨hkey, -⟩ <;> exact absurd hkey (hkeep m hs)
    · exact ⟨m, hs, rfl⟩

theorem WF.makeRoom (hb : b.WF) (threshold decreaseBy : ℕ) :
    (b.makeRoom threshold decreaseBy).WF := by
  rw [Bucket.makeRoom]
  split
  · exact hb.deleteStaleData decreaseBy
  · exact hb

/-! ## The bucket as a map that may forget -/

/-- The entry a `Get` would return: the one of the designated node, unless it is empty. -/
def view (b : Bucket) (k : Bytes) : Option Data :=
  ((b.keyToLitr k).bind b.node?).bind fun n ↦ if n.data.value = [] then none else some n.data

theorem WF.view_eq_some_iff (hb : b.WF) {d : Data} : b.view k = some d ↔
    ∃ n ∈ b.accessList, b.keyToLitr k = some n.id ∧ n.data = d ∧ d.value ≠ [] := by
  simp only [view, Option.bind_eq_some_iff, Option.ite_none_left_eq_some]
  constructor
  · rintro ⟨n, ⟨id, hk, hn⟩, hne, hd⟩
    obtain ⟨hmem, rfl⟩ := mem_of_node? hn
    obtain rfl := Option.some.inj hd
    exact ⟨n, hmem, hk, rfl, hne⟩
  · rintro ⟨n, hmem, hk, rfl, hne⟩
    exact ⟨n, ⟨n.id, hk, hb.node?_eq_some_iff.mpr ⟨hmem, rfl⟩⟩, hne, rfl⟩

/-- A view that only depends on which non-empty entries are designated. -/
theorem view_congr (hb : b.WF) (hb' : b'.WF) (h : ∀ n : Node, n.data.value ≠ [] →
      ((n ∈ b'.accessList ∧ b'.keyToLitr k = some n.id)
        ↔ (n ∈ b.accessList ∧ b.keyToLitr k = some n.id))) : b'.view k = b.view k := by
  refine Option.ext fun d ↦ ?_
  rw [hb'.view_eq_some_iff, hb.view_eq_some_iff]
  constructor
  · rintro ⟨n, hn, hk, rfl, hne⟩
    obtain ⟨hn', hk'⟩ := (h n hne).mp ⟨hn, hk⟩
    exact ⟨n, hn', hk', rfl, hne⟩
  · rintro ⟨n, hn, hk, rfl, hne⟩
    obtain ⟨hn', hk'⟩ := (h n hne).mpr ⟨hn, hk⟩
    exact ⟨n, hn', hk', rfl, hne⟩

theorem WF.view_findOrInsertData (hb : b.WF) (h : b.findOrInsertData k = .ok (b', n)) (j : Bytes) :
    b'.view j = b.view j := by
  have hb' := hb.findOrInsertData h
  refine view_congr hb hb' fun m hne ↦ ?_
  rcases findOrInsertData_cases h with ⟨-, hn, rfl⟩ | ⟨hk, rfl, rfl⟩
  · rw [hb.mem_moveToBack hn]
  · rw [List.mem_append, List.mem_singleton]
    constructor
    · rintro ⟨hm | rfl, hj⟩
      · refine ⟨hm, ?_⟩
        rcases register_cases hj with ⟨-, hid⟩ | hj
        · exact absurd hid (hb.id_lt m hm).ne'
        · exact hj
      · exact absurd rfl hne
    · rintro ⟨hm, hj⟩
      exact ⟨Or.inl hm, register_of_eq_some hk hj⟩

theorem WF.view_deleteStaleData (hb : b.WF) (decreaseBy : ℕ) (j : Bytes) :
    (b.deleteStaleData decreaseBy).view j = none ∨
      (b.deleteStaleData decreaseBy).view j = b.view j := by
  cases hv : (b.deleteStaleData decreaseBy).view j with
  | none => exact Or.inl rfl
  | some d =>
    obtain ⟨n, hn, hj, rfl, hne⟩ := (hb.deleteStaleData decreaseBy).view_eq_some_iff.mp hv
    exact Or.inr (hb.view_eq_some_iff.mpr ⟨n, mem_accessList_iff_stale.mpr (Or.inr hn),
      (keyToLitr_deleteStaleData_eq_some.mp hj).1, rfl, hne⟩).symm

theorem WF.view_makeRoom (hb : b.WF) (threshold decreaseBy : ℕ) (j : Bytes) :
    (b.makeRoom threshold decreaseBy).view j = none ∨
      (b.makeRoom threshold decreaseBy).view j = b.view j := by
  rw [Bucket.makeRoom]
  split
  · exact hb.view_deleteStaleData decreaseBy j
  · exact Or.inr rfl

theorem WF.view_write (hb : b.WF) {id : ℕ} {d : Data} (hk : b.keyToLitr k = some id)
    (hlive : ∃ n ∈ b.accessList, n.id = id) (hd : d.key = k) :
    (b.write id d).view k = if d.value = [] then none else some d := by
  have hw := hb.write hk hd
  refine Option.ext fun e ↦ ?_
  rw [hw.view_eq_some_iff, Option.ite_none_left_eq_some]
  constructor
  · rintro ⟨n, hn, hn', rfl, hne⟩
    rcases mem_write.mp hn with ⟨-, hid⟩ | ⟨hdata, -⟩
    · exact absurd (Option.some.inj (hn'.symm.trans hk)) hid
    · rw [hdata] at hne ⊢
      exact ⟨hne, rfl⟩
  · rintro ⟨hne, he⟩
    obtain rfl := Option.some.inj he
    exact ⟨⟨id, d⟩, mem_write.mpr (Or.inr ⟨rfl, rfl, hlive⟩), hk, rfl, hne⟩

theorem WF.view_write_of_ne (hb : b.WF) {id : ℕ} {d : Data} (hk : b.keyToLitr k = some id)
    (hd : d.key = k) (hj : j ≠ k) : (b.write id d).view j = b.view j := by
  refine view_congr hb (hb.write hk hd) fun m _ ↦ ?_
  constructor
  · rintro ⟨hm, hj'⟩
    rcases mem_write.mp hm with ⟨hm, -⟩ | ⟨-, hid, -⟩
    · exact ⟨hm, hj'⟩
    · exact absurd (hb.litr_inj j k id (hid ▸ hj') hk) hj
  · rintro ⟨hm, hj'⟩
    refine ⟨mem_write.mpr (Or.inl ⟨hm, ?_⟩), hj'⟩
    intro hid
    exact hj (hb.litr_inj j k id (hid ▸ hj') hk)

/-! ## The two operations -/

theorem WF.congr_memory (hb : b.WF) (memory : ℕ) : WF { b with memory := memory } :=
  ⟨hb.nodup, hb.id_lt, hb.litr_lt, hb.litr_inj, hb.stored, hb.registered, hb.nil_live⟩

theorem view_congr_memory (b : Bucket) (memory : ℕ) (j : Bytes) :
    view { b with memory := memory } j = b.view j := rfl

/-- What a `Get` sees of an entry that was stored: an empty value counts as a miss. -/
def storedEntry (k : Bytes) (kv : KeyValue) : Option Data :=
  if kv.val = [] then none else some (entryOf k kv)

theorem storedEntry_eq_some {d : Data} (h : storedEntry k kv = some d) :
    kv.val ≠ [] ∧ d = ⟨k, kv.val, kv.flags, kv.cas⟩ := by
  rw [storedEntry, Option.ite_none_left_eq_some] at h
  exact ⟨h.1, (Option.some.inj h.2).symm⟩

/-- **What `AddOrReplace` does**: it stores the entry under its key, and may forget others. -/
theorem WF.addOrReplace (hb : b.WF) {threshold decreaseBy : ℕ}
    (h : b.addOrReplace threshold decreaseBy k kv = .ok b') :
    b'.WF ∧ LossyMap.Put b.view k (storedEntry k kv) b'.view := by
  rw [Bucket.addOrReplace] at h
  split at h
  · cases h
  · next b₁ n hfind =>
    cases h
    have hroom := hb.makeRoom threshold decreaseBy
    have hb₁ := hroom.findOrInsertData hfind
    obtain ⟨hk, hn⟩ := findOrInsertData_litr hfind
    have hd : (entryOf k kv).key = k := rfl
    refine ⟨(hb₁.write hk hd).congr_memory _, ?_, ?_⟩
    · rw [view_congr_memory, hb₁.view_write hk ⟨n, hn, rfl⟩ hd, storedEntry]
      rfl
    · intro j hj
      rw [view_congr_memory, hb₁.view_write_of_ne hk hd hj, hroom.view_findOrInsertData hfind j]
      exact hb.view_makeRoom threshold decreaseBy j

/-- **What `Get` does**: it returns what the view holds, and leaves the view alone. -/
theorem WF.get (hb : b.WF) {hit : Bool} (h : b.get k kv = .ok (b', hit, kv')) :
    b'.WF ∧ (∀ j, b'.view j = b.view j) ∧
      ((hit = false ∧ kv' = kv ∧ b.view k = none) ∨
        ∃ d, hit = true ∧ b.view k = some d ∧
          kv' = { kv with val? := some d.value, flags? := some d.flags, cas? := some d.cas }) := by
  rw [Bucket.get] at h
  split at h
  · cases h
  · next b₁ n hfind =>
    have hb₁ := hb.findOrInsertData hfind
    have hview := hb.view_findOrInsertData hfind
    obtain ⟨hk, hn⟩ := findOrInsertData_litr hfind
    split at h
    · next hempty =>
      cases h
      refine ⟨hb₁, hview, Or.inl ⟨rfl, rfl, ?_⟩⟩
      rw [← hview k]
      by_contra hne
      obtain ⟨d, hd⟩ := Option.ne_none_iff_exists'.mp hne
      obtain ⟨m, hm, hk', rfl, hne'⟩ := hb₁.view_eq_some_iff.mp hd
      rw [hb₁.eq_of_id hm hn (Option.some.inj (hk'.symm.trans hk))] at hne'
      exact hne' hempty
    · next hne =>
      cases h
      refine ⟨hb₁, hview, Or.inr ⟨n.data, rfl, ?_, rfl⟩⟩
      rw [← hview k]
      exact hb₁.view_eq_some_iff.mpr ⟨n, hn, hk, rfl, hne⟩

end Bucket

/-! ## The whole cache -/

namespace Cache

/-- Every bucket is well formed. -/
def WF (c : Cache) : Prop := ∀ i, (c.buckets i).WF

/-- The entry a `Get` of `k` would return. -/
def view (c : Cache) (k : Bytes) : Option Data := (c.bucketOf k).view k

variable {c c' : Cache} {k j : Bytes} {kv kv' : KeyValue}

theorem wf_new (capacity : UInt64) (strHash : Bytes → ℕ) : (new capacity strHash).WF :=
  fun _ ↦ Bucket.wf_empty

theorem WF.update (hc : c.WF) {i : Fin kNumBuckets} {b : Bucket} (hb : b.WF)
    (h : c'.buckets = Function.update c.buckets i b) : c'.WF := by
  intro i'
  rw [h]
  by_cases hi : i' = i
  · rw [hi, Function.update_self]
    exact hb
  · rw [Function.update_of_ne hi]
    exact hc i'

theorem getIndex_congr (hhash : c'.strHash = c.strHash) (j : Bytes) :
    c'.getIndex j = c.getIndex j := by
  rw [getIndex, getIndex]
  simp only [hhash]

theorem bucketOf_update {b : Bucket} (hhash : c'.strHash = c.strHash)
    (h : c'.buckets = Function.update c.buckets (c.getIndex k) b) :
    c'.bucketOf j = if c.getIndex j = c.getIndex k then b else c.bucketOf j := by
  rw [bucketOf, h, getIndex_congr hhash, Function.update_apply]
  rfl

/-- **`AddOrReplace` on the whole cache.** -/
theorem WF.addOrReplace (hc : c.WF) (h : c.addOrReplace k kv = .ok c') :
    c'.WF ∧ LossyMap.Put c.view k (Bucket.storedEntry k kv) c'.view := by
  obtain ⟨b, hb, hbuckets, hhash, -⟩ :=
    buckets_of_call (show c.call (.addOrReplace k kv) = .ok c' from h)
  obtain ⟨hwf, hput⟩ := (hc _).addOrReplace hb
  refine ⟨hc.update hwf hbuckets, ?_, ?_⟩
  · rw [view, bucketOf_update hhash hbuckets]
    exact (if_pos rfl).symm ▸ hput.same
  · intro j hj
    rw [view, bucketOf_update hhash hbuckets]
    by_cases hidx : c.getIndex j = c.getIndex k
    · rw [Call.key, if_pos hidx, view, bucketOf, hidx]
      exact hput.other j hj
    · rw [Call.key, if_neg hidx]
      exact Or.inr rfl

theorem exists_get_of_call (h : c.call (.get k kv) = .ok c') :
    ∃ hit kv', c.get k kv = .ok (c', hit, kv') := by
  rw [call] at h
  cases hget : c.get k kv with
  | error e =>
    rw [hget] at h
    cases h
  | ok r =>
    rw [hget] at h
    obtain rfl : r.1 = c' := Except.ok.inj h
    exact ⟨r.2.1, r.2.2, rfl⟩

/-- **`Get` on the whole cache.** -/
theorem WF.get (hc : c.WF) {hit : Bool} (h : c.get k kv = .ok (c', hit, kv')) :
    c'.WF ∧ (∀ j, c'.view j = c.view j) ∧
      ((hit = false ∧ kv' = kv ∧ c.view k = none) ∨
        ∃ d, hit = true ∧ c.view k = some d ∧
          kv' = { kv with val? := some d.value, flags? := some d.flags, cas? := some d.cas }) := by
  have hcall : c.call (.get k kv) = .ok c' := by
    rw [call, h]
    rfl
  obtain ⟨b, hb, hbuckets, hhash, -⟩ := buckets_of_call hcall
  rw [Cache.get] at h
  split at h
  · cases h
  · next b' hit' kv'' hb' =>
    rw [callBucket, Call.key, hb'] at hb
    obtain rfl : b' = b := Except.ok.inj hb
    simp only [Except.ok.injEq, Prod.mk.injEq] at h
    obtain ⟨-, rfl, rfl⟩ := h
    obtain ⟨hwf, hview, hcases⟩ := (hc _).get hb'
    refine ⟨hc.update hwf hbuckets, ?_, hcases⟩
    intro j
    rw [view, bucketOf_update hhash hbuckets, Call.key]
    by_cases hidx : c.getIndex j = c.getIndex k
    · rw [if_pos hidx, view, bucketOf, hidx]
      exact hview j
    · rw [if_neg hidx]
      rfl

end Cache

end MemcacheRouter
