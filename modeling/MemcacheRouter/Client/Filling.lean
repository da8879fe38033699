import MemcacheRouter.Cache.Refill
import MemcacheRouter.Client.Answers

/-!
# What GetKeys fills in

`GetKeys` should ask memcached for the keys that missed the cache, byte for byte, and leave in every
entry of its map what the cache holds for the key, or else what memcached holds. Two things stand in
its way. The copies that are handed to `memcached_mget` are made by `strcpy` but sent with the
length of the key, so that a key is only copied in full if it has no NUL before its last byte. And
the results are stored in the cache one after the other, where an eviction may erase the empty node
that the lookup of a key left behind, and with it what the registration of this key designates.

Nothing else does: `getKeys_fills_iff`.
-/

open Transition

namespace MemcacheRouter

/-! ## The calls on the cache -/

/-- What of an item is stored in the cache. -/
def Item.message (it : Item) : KeyValue :=
  { val? := some it.value, flags? := some it.flags, cas? := some it.cas }

/-- The lookups of the first loop of `GetKeys`. -/
def lookupCalls (m : KeyMap) : List Cache.Call := m.map fun e ↦ .get e.1 e.2

/-- The calls by which the second loop stores the results. -/
def storeCalls (rs : List (Bytes × Item)) : List Cache.Call :=
  rs.map fun r ↦ .addOrReplace r.1 r.2.message

variable {lib : Libmemcached} {w w' : Stores} {m m' : KeyMap} {k : Bytes} {kv : KeyValue}
  {ops : List Cache.Call} {rs : List (Bytes × Item)}

/-- The calls return on the cache, if there is one. -/
def Stores.Returns (w : Stores) (ops : List Cache.Call) : Prop :=
  ∀ c ∈ w.cache, ∃ c', Run Cache.Step c ops c'

theorem Stores.returns_cons_iff {c : Cache} {op : Cache.Call} (hc : w.cache = some c) :
    w.Returns (op :: ops) ↔
      ∃ c', c.Step op c' ∧ Stores.Returns { w with cache := some c' } ops := by
  constructor
  · intro h
    obtain ⟨c'', hrun⟩ := h c hc
    obtain ⟨c', hstep, hrest⟩ := hrun.of_cons
    refine ⟨c', hstep, ?_⟩
    rintro _ ⟨⟩
    exact ⟨c'', hrest⟩
  · rintro ⟨c', hstep, hrest⟩ d hd
    obtain rfl := Option.some.inj (hc.symm.trans hd)
    obtain ⟨c'', hrun⟩ := hrest c' rfl
    exact ⟨c'', Run.cons hstep hrun⟩

theorem Stores.returns_of_cache_eq_none (hc : w.cache = none) (ops : List Cache.Call) :
    w.Returns ops := by
  intro c h
  rw [hc] at h
  cases h

theorem Stores.returns_get_iff : w.Returns (.get k kv :: ops) ↔
    ∃ w' hit kv', w.cacheGet k kv = .ok (w', hit, kv') ∧ w'.Returns ops := by
  cases hc : w.cache with
  | none =>
    have hget : w.cacheGet k kv = .ok (w, false, kv) := by rw [Stores.cacheGet, hc]
    refine ⟨fun _ ↦ ⟨w, _, _, hget, returns_of_cache_eq_none hc ops⟩, fun _ ↦ ?_⟩
    exact returns_of_cache_eq_none hc _
  | some c =>
    rw [returns_cons_iff hc]
    constructor
    · rintro ⟨c', hstep, hrest⟩
      obtain ⟨hit, kv', hget⟩ := Cache.exists_get_of_call hstep
      refine ⟨{ w with cache := some c' }, hit, kv', ?_, hrest⟩
      rw [Stores.cacheGet, hc]
      simp only [hget]
      rfl
    · rintro ⟨w', hit, kv', hget, hrest⟩
      rw [Stores.cacheGet, hc] at hget
      obtain ⟨⟨c', hit', kv''⟩, hcget, hret⟩ := bind_eq_ok.mp hget
      cases hret
      refine ⟨c', ?_, hrest⟩
      rw [Cache.Step, Cache.call, hcget]
      rfl

theorem Stores.returns_add_iff : w.Returns (.addOrReplace k kv :: ops) ↔
    ∃ w', w.cacheAdd k kv = .ok w' ∧ w'.Returns ops := by
  cases hc : w.cache with
  | none =>
    have hadd : w.cacheAdd k kv = .ok w := by rw [Stores.cacheAdd, hc]
    refine ⟨fun _ ↦ ⟨w, hadd, returns_of_cache_eq_none hc ops⟩, fun _ ↦ ?_⟩
    exact returns_of_cache_eq_none hc _
  | some c =>
    rw [returns_cons_iff hc]
    constructor
    · rintro ⟨c', hstep, hrest⟩
      have hadd : c.addOrReplace k kv = .ok c' := hstep
      refine ⟨{ w with cache := some c' }, ?_, hrest⟩
      rw [Stores.cacheAdd, hc]
      simp only [hadd]
      rfl
    · rintro ⟨w', hadd, hrest⟩
      rw [Stores.cacheAdd, hc] at hadd
      obtain ⟨c', hcadd, hret⟩ := bind_eq_ok.mp hadd
      cases hret
      exact ⟨c', hcadd, hrest⟩

/-- **When the first loop returns.** -/
theorem returns_lookups_iff (lib : Libmemcached) : w.Returns (lookupCalls m ++ ops) ↔
    ∃ w' m' keys, lookupKeys lib m w = .ok (w', m', keys) ∧ w'.Returns ops := by
  induction m generalizing w with
  | nil =>
    constructor
    · exact fun h ↦ ⟨w, [], [], rfl, h⟩
    · rintro ⟨w', m', keys, hlook, h⟩
      cases hlook
      exact h
  | cons e m ih =>
    rw [lookupCalls, List.map_cons, List.cons_append, Stores.returns_get_iff]
    constructor
    · rintro ⟨w₁, hit, kv₁, hget, h⟩
      obtain ⟨w₂, m₂, keys₂, hlook, h⟩ := ih.mp h
      refine ⟨w₂, (e.1, kv₁) :: m₂, if hit then keys₂ else lib.copyKey e.1 :: keys₂, ?_, h⟩
      rw [lookupKeys]
      simp only [hget, hlook, bind, Except.bind]
      rfl
    · rintro ⟨w₂, m₂, keys₂, hlook, h⟩
      obtain ⟨⟨w₁, hit, kv₁⟩, hget, hlook⟩ := bind_eq_ok.mp hlook
      obtain ⟨⟨w₃, m₃, keys₃⟩, hrest, hret⟩ := bind_eq_ok.mp hlook
      cases hret
      exact ⟨w₁, hit, kv₁, hget, ih.mpr ⟨_, _, _, hrest, h⟩⟩

/-! ## The second loop -/

/-- The cache stores the value, flags and token of an item, and nothing else of the message. -/
theorem cacheAdd_fetched (kv : KeyValue) (it : Item) :
    w.cacheAdd k (lib.fetched kv it) = w.cacheAdd k it.message := rfl

theorem fillKey_eq_ok {r : Bytes × Item} : fillKey lib w m r = .ok (w', m') ↔
    ∃ kv, m.lookup r.1 = some kv ∧ w.cacheAdd r.1 r.2.message = .ok w' ∧
      m' = m.assign r.1 (lib.fetched kv r.2) := by
  rw [fillKey]
  cases hkv : m.lookup r.1 with
  | none => simp
  | some kv =>
    simp only [cacheAdd_fetched, Option.some.injEq, exists_eq_left']
    rw [bind_eq_ok]
    constructor
    · rintro ⟨w₁, hadd, hret⟩
      cases hret
      exact ⟨hadd, rfl⟩
    · rintro ⟨hadd, rfl⟩
      exact ⟨w', hadd, rfl⟩

/-- **When the second loop returns**, with results for keys of the map. -/
theorem returns_stores_iff (lib : Libmemcached) (hrs : ∀ r ∈ rs, r.1 ∈ m.map Prod.fst) :
    w.Returns (storeCalls rs) ↔ ∃ w' m', fillKeys lib rs w m = .ok (w', m') := by
  induction rs generalizing w m with
  | nil => exact ⟨fun _ ↦ ⟨w, m, rfl⟩, fun _ c _ ↦ ⟨c, Run.nil c⟩⟩
  | cons r rs ih =>
    obtain ⟨kv, hkv⟩ := KeyMap.exists_lookup (hrs r List.mem_cons_self)
    have hrs' : ∀ r' ∈ rs, r'.1 ∈ (m.assign r.1 (lib.fetched kv r.2)).map Prod.fst := by
      intro r' hr'
      rw [KeyMap.map_fst_assign]
      exact hrs r' (List.mem_cons_of_mem _ hr')
    rw [storeCalls, List.map_cons, Stores.returns_add_iff]
    constructor
    · rintro ⟨w₁, hadd, h⟩
      obtain ⟨w₂, m₂, hfill⟩ := (ih hrs').mp h
      refine ⟨w₂, m₂, ?_⟩
      rw [fillKeys, fillKey_eq_ok.mpr ⟨kv, hkv, hadd, rfl⟩]
      exact hfill
    · rintro ⟨w₂, m₂, hfill⟩
      obtain ⟨⟨w₁, m₁⟩, hone, hrest⟩ := bind_eq_ok.mp hfill
      obtain ⟨kv', hkv', hadd, rfl⟩ := fillKey_eq_ok.mp hone
      obtain rfl : kv = kv' := Option.some.inj (hkv.symm.trans hkv')
      exact ⟨w₁, hadd, (ih hrs').mpr ⟨w₂, m₂, hrest⟩⟩

/-- Looking a key up in a list without duplicate keys. -/
theorem lookup_eq_some_iff_mem {β : Type*} {l : List (Bytes × β)} (h : (l.map Prod.fst).Nodup)
    {x : β} : l.lookup k = some x ↔ (k, x) ∈ l := by
  induction l with
  | nil => simp
  | cons e l ih =>
    obtain ⟨j, y⟩ := e
    obtain ⟨hj, hl⟩ := List.nodup_cons.mp h
    by_cases hk : k = j
    · subst hk
      rw [List.lookup_cons_self, Option.some.injEq, List.mem_cons, Prod.mk.injEq]
      constructor
      · exact fun hx ↦ Or.inl ⟨rfl, hx.symm⟩
      · rintro (⟨-, rfl⟩ | hmem)
        · rfl
        · exact absurd (List.mem_map_of_mem hmem) hj
    · rw [List.lookup_cons, beq_eq_false_iff_ne.mpr hk, ih hl, List.mem_cons, Prod.mk.injEq]
      exact ⟨Or.inr, fun hmem ↦ hmem.resolve_left fun heq ↦ hk heq.1⟩

/-- **What the second loop fills in.** -/
theorem fillKeys_entries (hm : (m.map Prod.fst).Nodup) (hrs : (rs.map Prod.fst).Nodup)
    (h : fillKeys lib rs w m = .ok (w', m')) :
    m' = m.map fun e ↦ (e.1, (rs.lookup e.1).elim e.2 (lib.fetched e.2)) := by
  induction rs generalizing w m with
  | nil =>
    cases h
    exact (List.map_id' _).symm
  | cons r rs ih =>
    obtain ⟨⟨w₁, m₁⟩, hone, hrest⟩ := bind_eq_ok.mp h
    obtain ⟨kv, hkv, -, rfl⟩ := fillKey_eq_ok.mp hone
    obtain ⟨hr, hrs⟩ := List.nodup_cons.mp hrs
    -- no other result has this key, so what it fills in stays
    have hnone : rs.lookup r.1 = none := by
      rw [List.lookup_eq_none_iff]
      intro r' hr'
      rw [bne_iff_ne]
      rintro heq
      exact hr (heq ▸ List.mem_map_of_mem hr')
    rw [ih (by rwa [KeyMap.map_fst_assign]) hrs hrest, KeyMap.assign, List.map_map]
    refine List.map_congr_left fun e he ↦ ?_
    obtain ⟨j, kv'⟩ := e
    rw [Function.comp_apply]
    by_cases hj : j = r.1
    · subst hj
      have hsame : kv' = kv := by
        rw [← Option.some.injEq, ← hkv, (lookup_eq_some_iff_mem hm).mpr he]
      rw [if_pos rfl, hnone, List.lookup_cons_self, hsame]
      rfl
    · rw [if_neg hj, List.lookup_cons, beq_eq_false_iff_ne.mpr hj]

/-! ## The copies of the keys -/

/-- A key that has no NUL before its last byte is copied in full. -/
theorem copyKey_eq_self_of_le (h : k.length ≤ (cStr k).length + 1) : lib.copyKey k = k := by
  by_cases hnul : 0 ∈ k
  · -- the terminator is the last byte of the key
    obtain ⟨rest, hsplit⟩ := exists_eq_cStr_append hnul
    have hlen := congrArg List.length hsplit
    rw [List.length_append, List.length_cons] at hlen
    have hrest : rest = [] := List.length_eq_zero_iff.mp (by omega)
    rw [hrest] at hsplit
    have hlength : k.length = (cStr k ++ [0]).length := congrArg List.length hsplit
    rw [Libmemcached.copyKey, hlength, List.take_left]
    exact hsplit.symm
  · exact copyKey_eq_self hnul

/-- A library whose fresh buffers are filled with one byte. -/
def Libmemcached.filledBuffers (x : UInt8) : Libmemcached :=
  { Libmemcached.inOrder with
    buffer := fun n ↦ List.replicate n x
    length_buffer := fun _ ↦ List.length_replicate }

/-- A library that returns one set of results in a given order. -/
def Libmemcached.ordered (results rs : List (Bytes × Item)) (h : rs.Perm results) : Libmemcached :=
  { Libmemcached.inOrder with
    fetchOrder := fun l ↦ if l = results then rs else l
    fetchOrder_perm := by
      intro l
      split_ifs with hl
      · rw [hl]
        exact h
      · exact List.Perm.refl l }

/-- A key that is copied in full whatever the buffer holds has no NUL before its last byte. -/
theorem le_of_copyKey_eq_self (h : ∀ lib : Libmemcached, lib.copyKey k = k) :
    k.length ≤ (cStr k).length + 1 := by
  by_contra hlt
  rw [not_le] at hlt
  -- the byte after the terminator is what the buffer held
  have hbyte : ∀ x, k[(cStr k).length + 1] = x := by
    intro x
    have hcopy := congrArg (fun l : Bytes ↦ l[(cStr k).length + 1]?)
      (h (Libmemcached.filledBuffers x))
    simp only [Libmemcached.copyKey, Libmemcached.filledBuffers] at hcopy
    rw [List.getElem?_take_of_lt hlt, List.getElem?_append_right (by simp), List.getElem?_drop,
      List.getElem?_replicate, if_pos (by simp; omega), List.getElem?_eq_getElem hlt] at hcopy
    exact (Option.some.inj hcopy).symm
  have hsame := (hbyte 0).symm.trans (hbyte 1)
  cases hsame

/-! ## What GetKeys fills in -/

/-- The keys of the map that miss the cache, in the order of the map. -/
def missedKeys (w : Stores) (m : KeyMap) : List Bytes :=
  (m.map Prod.fst).filter fun k ↦ (w.view k).isNone

/-- What an entry of the map should hold: the value, flags and token that the cache holds for its
key, or else those that memcached holds, or else what it held before. -/
def Libmemcached.filledEntry (lib : Libmemcached) (w : Stores) (e : Bytes × KeyValue) : KeyValue :=
  match w.view e.1 with
  | some d => { e.2 with val? := some d.value, flags? := some d.flags, cas? := some d.cas }
  | none =>
    match w.memc.lookup e.1 with
    | some it => lib.fetched e.2 it
    | none => e.2

/-- `GetKeys` asks memcached for exactly the keys that missed, and returns with every entry filled
in as it should be. -/
structure Fills (lib : Libmemcached) (w : Stores) (m : KeyMap) : Prop where
  handed : ∃ w₁ m₁, lookupKeys lib m w = .ok (w₁, m₁, missedKeys w m)
  filled : ∃ w', getKeys lib w m = .ok (w', m.map fun e ↦ (e.1, lib.filledEntry w e))

/-- No eviction that storing the results starts takes its node from a key that is still to be
stored, in whatever order the results arrive. -/
def SparesResults (w : Stores) (m : KeyMap) : Prop :=
  ∀ rs : List (Bytes × Item), rs.Perm (w.memc.mget (missedKeys w m)) →
    ∀ c ∈ w.cache, c.SparesPending (lookupCalls m ++ storeCalls rs)

theorem Store.map_fst_mget_sublist (s : Store) (keys : List Bytes) :
    ((s.mget keys).map Prod.fst).Sublist keys := by
  induction keys with
  | nil => exact List.Sublist.refl _
  | cons k keys ih =>
    rw [Store.mget, List.filterMap_cons]
    cases s.lookup k with
    | none => exact ih.cons k
    | some it => exact ih.cons_cons k

/-- Results come for different keys that missed, whatever their order. -/
theorem nodup_results (hm : (m.map Prod.fst).Nodup)
    (hperm : rs.Perm (w.memc.mget (missedKeys w m))) : (rs.map Prod.fst).Nodup := by
  rw [(hperm.map Prod.fst).nodup_iff]
  exact (hm.filter _).sublist (w.memc.map_fst_mget_sublist _)

theorem mem_keys_of_mem_results (hperm : rs.Perm (w.memc.mget (missedKeys w m)))
    {r : Bytes × Item} (hr : r ∈ rs) : r.1 ∈ m.map Prod.fst :=
  List.mem_of_mem_filter (Store.mem_mget.mp (hperm.mem_iff.mp hr)).1

/-- The early return of `GetKeys` makes no difference. -/
theorem getKeys_of_lookupKeys {keys : List Bytes} (hmget : mgetReturn keys = .success)
    (h : lookupKeys lib m w = .ok (w', m', keys)) :
    getKeys lib w m = fillKeys lib (lib.fetchOrder (w'.memc.mget keys)) w' m' := by
  rw [getKeys, h]
  simp only [bind, Except.bind]
  by_cases hnil : keys = []
  · have hperm : (lib.fetchOrder (w'.memc.mget keys)).Perm [] := by
      rw [hnil]
      exact lib.fetchOrder_perm _
    rw [if_pos hnil, hperm.eq_nil]
    rfl
  · rw [if_neg hnil, if_pos hmget]

/-- **What the two loops fill in together.** -/
theorem filledEntry_eq (hm : (m.map Prod.fst).Nodup)
    (hperm : rs.Perm (w.memc.mget (missedKeys w m))) {e : Bytes × KeyValue} (he : e ∈ m) :
    (rs.lookup e.1).elim (e.2.fromCache (w.view e.1)) (lib.fetched (e.2.fromCache (w.view e.1)))
      = lib.filledEntry w e := by
  have hlookup : ∀ it, rs.lookup e.1 = some it ↔
      w.view e.1 = none ∧ w.memc.lookup e.1 = some it := by
    intro it
    rw [lookup_eq_some_iff_mem (nodup_results hm hperm), hperm.mem_iff, Store.mem_mget, missedKeys,
      List.mem_filter, Option.isNone_iff_eq_none]
    exact and_congr_left fun _ ↦ and_iff_right (List.mem_map_of_mem he)
  rw [Libmemcached.filledEntry]
  cases hv : w.view e.1 with
  | some d =>
    have hnone : rs.lookup e.1 = none := by
      rw [Option.eq_none_iff_forall_ne_some]
      intro it hit
      rw [hlookup, hv] at hit
      cases hit.1
    rw [hnone]
    rfl
  | none =>
    have hsame : rs.lookup e.1 = w.memc.lookup e.1 := by
      refine Option.ext fun it ↦ ?_
      rw [hlookup]
      exact and_iff_right hv
    rw [hsame]
    cases w.memc.lookup e.1 <;> rfl

/-- **Enough**: with keys that are copied in full and a cache that spares the nodes of the results,
every entry is filled in as it should be. -/
theorem fills_of_returns (hw : w.CacheWF) (hm : (m.map Prod.fst).Nodup)
    (hmget : mgetReturn (missedKeys w m) = .success)
    (hkeys : (missedKeys w m).map lib.copyKey = missedKeys w m)
    (hret : w.Returns
      (lookupCalls m ++ storeCalls (lib.fetchOrder (w.memc.mget (missedKeys w m))))) :
    Fills lib w m := by
  obtain ⟨w₁, m₁, keys, hlook, hret⟩ := (returns_lookups_iff lib).mp hret
  obtain ⟨-, hmemc, -, rfl, rfl⟩ := lookupKeys_spec hw hlook
  have hfst := map_fst_lookupKeys hlook
  rw [← missedKeys, hkeys] at hlook
  have hperm := lib.fetchOrder_perm (w.memc.mget (missedKeys w m))
  have hrs : ∀ r ∈ lib.fetchOrder (w.memc.mget (missedKeys w m)),
      r.1 ∈ (m.map fun e ↦ (e.1, e.2.fromCache (w.view e.1))).map Prod.fst := by
    intro r hr
    rw [hfst]
    exact mem_keys_of_mem_results hperm hr
  obtain ⟨w₂, m₂, hfill⟩ := (returns_stores_iff lib hrs).mp hret
  refine ⟨⟨w₁, _, hlook⟩, w₂, ?_⟩
  rw [getKeys_of_lookupKeys hmget hlook, hmemc, hfill,
    fillKeys_entries (hfst ▸ hm) (nodup_results hm hperm) hfill, List.map_map]
  congr 2
  exact List.map_congr_left fun e he ↦ congrArg (e.1, ·) (filledEntry_eq hm hperm he)

/-- **GetKeys fills every entry correctly if and only if** every missed key can be copied, and no
eviction takes its node from a key that is still to be stored. For every map of distinct keys, every
cache whose index designates only live nodes, or none, and every content of memcached, if `mget`
succeeds; and whatever fresh buffers hold and in whatever order the results arrive. -/
theorem getKeys_fills_iff (w : Stores) (m : KeyMap) (hw : w.CacheWF)
    (hlive : ∀ c ∈ w.cache, c.IndexLive) (hm : (m.map Prod.fst).Nodup)
    (hmget : mgetReturn (missedKeys w m) = .success) :
    (∀ lib, Fills lib w m) ↔
      (∀ k ∈ missedKeys w m, k.length ≤ (cStr k).length + 1) ∧ SparesResults w m := by
  have hruns : ∀ ops, w.Returns ops ↔ ∀ c ∈ w.cache, c.SparesPending ops := by
    intro ops
    refine forall₂_congr fun c hc ↦ ?_
    exact (hw c hc).exists_run_iff fun op _ ↦ hlive c hc _ op.key
  constructor
  · intro h
    have hcopied : ∀ lib : Libmemcached, ∀ k ∈ missedKeys w m, lib.copyKey k = k := by
      intro lib
      obtain ⟨w₁, m₁, hlook⟩ := (h lib).handed
      obtain ⟨-, -, -, -, hkeys⟩ := lookupKeys_spec hw hlook
      have hmap : (missedKeys w m).map lib.copyKey = (missedKeys w m).map id := by
        rw [List.map_id]
        exact hkeys.symm
      exact List.map_inj_left.mp hmap
    refine ⟨fun k hk ↦ le_of_copyKey_eq_self fun lib ↦ hcopied lib k hk, fun rs hrs ↦ ?_⟩
    -- let the results arrive in this order
    obtain ⟨⟨w₁, m₁, hlook⟩, w', hget⟩ := h (Libmemcached.ordered _ rs hrs)
    obtain ⟨-, hmemc, -, -, -⟩ := lookupKeys_spec hw hlook
    have horder : (Libmemcached.ordered _ rs hrs).fetchOrder (w.memc.mget (missedKeys w m)) = rs :=
      if_pos rfl
    rw [getKeys_of_lookupKeys hmget hlook, hmemc, horder] at hget
    rw [← hruns]
    refine (returns_lookups_iff (Libmemcached.ordered _ rs hrs)).mpr ⟨w₁, m₁, _, hlook, ?_⟩
    refine (returns_stores_iff _ fun r hr ↦ ?_).mpr ⟨w', _, hget⟩
    rw [map_fst_lookupKeys hlook]
    exact mem_keys_of_mem_results hrs hr
  · rintro ⟨hcopied, hspares⟩ lib
    refine fills_of_returns hw hm hmget ?_ ((hruns _).mpr (hspares _ (lib.fetchOrder_perm _)))
    rw [List.map_congr_left fun k hk ↦ copyKey_eq_self_of_le (hcopied k hk), List.map_id']

/-- A lookup leaves the counters alone. -/
private theorem memory_of_get {c c' : Cache} (hstep : c.Step (.get k kv) c')
    (h : ∀ i, (c.buckets i).memory = 0) : ∀ i, (c'.buckets i).memory = 0 := by
  refine Cache.forall_buckets_of_call (I := fun b ↦ b.memory = 0) h hstep fun b hb ↦ ?_
  obtain ⟨r, hget⟩ := Cache.exists_get_of_callBucket hb
  obtain ⟨n, hfind⟩ := Bucket.exists_findOrInsertData_of_get hget
  rcases Bucket.findOrInsertData_cases hfind with ⟨-, -, rfl⟩ | ⟨-, -, rfl⟩ <;> exact h _

/-- A memcached that holds one item. -/
def Store.holding (k : Bytes) (it : Item) : Store :=
  { items := Function.update (fun _ ↦ none) k (some it) }

/-- Two keys are looked up in an empty cache, and memcached holds one of them. -/
theorem getKeys_fills_iff_twoKeys : Fills Libmemcached.inOrder
    ⟨some (Cache.new 0 fun _ ↦ 0), Store.holding [97] ⟨[49], 0, 7, none⟩⟩
    [([97], {}), ([98], {})] := by
  refine (getKeys_fills_iff ⟨some (Cache.new 0 fun _ ↦ 0), Store.holding [97] ⟨[49], 0, 7, none⟩⟩
    [([97], {}), ([98], {})] ?_ ?_ (by decide) ?_).mpr ⟨?_, ?_⟩ Libmemcached.inOrder
  · rintro _ ⟨⟩
    exact Cache.wf_new 0 fun _ ↦ 0
  · rintro _ ⟨⟩ i k ⟨id, hid, -⟩
    cases hid
  · refine if_pos fun k hk ↦ ?_
    rcases List.mem_pair.mp (List.mem_of_mem_filter hk) with rfl | rfl <;> decide
  · intro k hk
    rcases List.mem_pair.mp (List.mem_of_mem_filter hk) with rfl | rfl <;> decide
  · intro rs hrs
    obtain rfl : rs = [([97], ⟨[49], 0, 7, none⟩)] := List.perm_singleton.mp hrs
    rintro _ ⟨⟩
    refine ⟨fun _ _ ↦ trivial, fun c₁ h₁ ↦ ⟨fun _ _ ↦ trivial, fun c₂ h₂ ↦ ⟨?_, fun _ _ ↦ trivial⟩⟩⟩
    have hmem := memory_of_get h₂ (memory_of_get h₁ fun _ ↦ rfl)
    intro op' _ _ hlt
    rw [Cache.bucketOf, hmem] at hlt
    exact absurd hlt (Nat.not_lt_zero _)

/-- A key with a NUL inside is not found although memcached holds it: with buffers of zeros, the key
that is asked for ends in two NULs. -/
theorem getKeys_cuts_key : ¬Fills Libmemcached.inOrder
    ⟨none, Store.holding [97, 0, 98] ⟨[49], 0, 7, none⟩⟩ [([97, 0, 98], {})] := by
  intro h
  obtain ⟨w', hget⟩ := h.filled
  have hval := congrArg (fun r ↦ r.toOption.map fun p ↦ p.2.map fun e ↦ e.2.val?) hget
  revert hval
  simp only [Except.toOption, Option.map_some]
  decide

end MemcacheRouter
