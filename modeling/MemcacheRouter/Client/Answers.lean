import MemcacheRouter.Client.MemClient

/-!
# What a GET answers

The cache *agrees* with memcached on a key if it is not cached, or memcached holds the value and
flags that are cached for it. Where the cache agrees on all keys that a batch of GET packets asks
for, the batch is answered from memcached's contents alone, whichever of its keys hit, in whatever
order the results arrive, and whatever is evicted on the way; and the cache still agrees wherever it
did. The two loops of `GetKeys` are described first, then the map that a batch fills and the packets
it is merged into.
-/

namespace MemcacheRouter

/-! ## Looking keys up -/

/-- A message after a lookup that found `o`. -/
def KeyValue.fromCache (kv : KeyValue) : Option Data → KeyValue
  | none => kv
  | some d => { kv with val? := some d.value, flags? := some d.flags, cas? := some d.cas }

/-- A message cut down to its key, value and flags. -/
def KeyValue.answer (kv : KeyValue) : KeyValue :=
  { key? := kv.key?, val? := kv.val?, flags? := kv.flags? }

/-- The message that a server holding `o` for the key fills in. -/
def answerOf (o : Option (Bytes × UInt32)) : KeyValue :=
  { val? := o.map Prod.fst, flags? := o.map Prod.snd }

variable {lib : Libmemcached} {w w' : Stores} {m m' : KeyMap} {k : Bytes} {kv kv' : KeyValue}
  {K : Set Bytes}

/-- **The first loop of `GetKeys`.** It fills in what the cache remembers and asks for the rest, in
the order of the map. -/
theorem lookupKeys_spec {keys : List Bytes} (hw : w.CacheWF)
    (h : lookupKeys lib m w = .ok (w', m', keys)) :
    w'.CacheWF ∧ w'.memc = w.memc ∧ w'.view = w.view ∧
      m' = m.map (fun e ↦ (e.1, e.2.fromCache (w.view e.1))) ∧
      keys = ((m.map Prod.fst).filter fun k ↦ (w.view k).isNone).map lib.copyKey := by
  induction m generalizing w m' keys with
  | nil =>
    cases h
    exact ⟨hw, rfl, rfl, rfl, rfl⟩
  | cons e m ih =>
    obtain ⟨⟨w₁, hit, kv₁⟩, hget, h⟩ := bind_eq_ok.mp h
    obtain ⟨⟨w₂, m₂, keys₂⟩, hrest, h⟩ := bind_eq_ok.mp h
    cases h
    obtain ⟨hw₁, hmemc₁, hview₁, hcases⟩ := hw.cacheGet hget
    obtain ⟨hw₂, hmemc₂, hview₂, rfl, rfl⟩ := ih hw₁ hrest
    refine ⟨hw₂, hmemc₂.trans hmemc₁, hview₂.trans hview₁, ?_, ?_⟩
    · rcases hcases with ⟨-, rfl, hnone⟩ | ⟨d, -, hd, rfl⟩
      · simp [hview₁, hnone, KeyValue.fromCache]
      · simp [hview₁, hd, KeyValue.fromCache]
    · rcases hcases with ⟨rfl, -, hnone⟩ | ⟨d, rfl, hd, -⟩
      · simp [hview₁, hnone]
      · simp [hview₁, hd]

theorem map_fst_lookupKeys {keys : List Bytes} (h : lookupKeys lib m w = .ok (w', m', keys)) :
    m'.map Prod.fst = m.map Prod.fst := by
  induction m generalizing w m' keys with
  | nil =>
    cases h
    rfl
  | cons e m ih =>
    obtain ⟨⟨w₁, hit, kv₁⟩, -, h⟩ := bind_eq_ok.mp h
    obtain ⟨⟨w₂, m₂, keys₂⟩, hrest, h⟩ := bind_eq_ok.mp h
    cases h
    rw [List.map_cons, List.map_cons, ih hrest]

/-- Without a cache every key is asked for. -/
theorem lookupKeys_of_cache_eq_none (hw : w.cache = none) (m : KeyMap) :
    lookupKeys lib m w = .ok (w, m, m.map fun e ↦ lib.copyKey e.1) := by
  induction m with
  | nil => rfl
  | cons e m ih =>
    have hget : w.cacheGet e.1 e.2 = .ok (w, false, e.2) := by rw [Stores.cacheGet, hw]
    rw [lookupKeys, hget]
    simp only [bind, Except.bind, ih]
    rfl

/-- A key without NUL is copied in full. -/
theorem copyKey_eq_self (h : 0 ∉ k) : lib.copyKey k = k := by
  rw [Libmemcached.copyKey, cStr_eq_self_iff.mpr h, List.append_assoc, List.take_left]

theorem Store.mem_mget {s : Store} {keys : List Bytes} {r : Bytes × Item} :
    r ∈ s.mget keys ↔ r.1 ∈ keys ∧ s.lookup r.1 = some r.2 := by
  simp only [Store.mget, List.mem_filterMap, Option.map_eq_some_iff]
  constructor
  · rintro ⟨k, hk, it, hit, rfl⟩
    exact ⟨hk, hit⟩
  · rintro ⟨hk, hit⟩
    exact ⟨r.1, hk, r.2, hit, rfl⟩

/-! ## Agreement -/

namespace Stores

theorem cacheWF_of_cache_eq_none (h : w.cache = none) : w.CacheWF := by
  simp [CacheWF, h]

theorem cacheWF_new (capacity : UInt64) (strHash : Bytes → ℕ) (memc : Store) :
    CacheWF ⟨some (Cache.new capacity strHash), memc⟩ := by
  rintro _ ⟨⟩
  exact Cache.wf_new capacity strHash

/-- Whatever the cache remembers of these keys, memcached holds for them. -/
structure AgreeOn (w : Stores) (K : Set Bytes) : Prop where
  wf : w.CacheWF
  held : LossyMap.Forall (fun k d ↦ k ∈ K → w.memc.held k = some (d.value, d.flags)) w.view

theorem agreeOn_of_cache_eq_none (h : w.cache = none) (K : Set Bytes) : w.AgreeOn K where
  wf := cacheWF_of_cache_eq_none h
  held := by
    intro k d hk
    simp [view, h] at hk

theorem agreeOn_new (capacity : UInt64) (strHash : Bytes → ℕ) (memc : Store) (K : Set Bytes) :
    AgreeOn ⟨some (Cache.new capacity strHash), memc⟩ K where
  wf := cacheWF_new capacity strHash memc
  held := by
    intro k d hk
    cases hk

/-- On keys that are not cached there is nothing to agree about. -/
theorem AgreeOn.mono {L : Set Bytes} (hw : w.AgreeOn K)
    (hL : ∀ k ∈ L, w.view k ≠ none → k ∈ K) : w.AgreeOn L where
  wf := hw.wf
  held := by
    intro k d hd hk
    exact hw.held k d hd (hL k hk (by simp [hd]))

/-- Storing an entry that memcached holds keeps the agreement. -/
theorem AgreeOn.cacheAdd (hw : w.AgreeOn K) (h : w.cacheAdd k kv = .ok w')
    (hkv : kv.val ≠ [] → w.memc.held k = some (kv.val, kv.flags)) :
    w'.AgreeOn K ∧ w'.memc = w.memc := by
  obtain ⟨hwf, hmemc, hput⟩ := hw.wf.cacheAdd h
  refine ⟨⟨hwf, ?_⟩, hmemc⟩
  rw [hmemc]
  refine hw.held.put hput (fun j _ d hd ↦ hd) fun d hd _ ↦ ?_
  obtain ⟨hne, rfl⟩ := stored_eq_some hd
  exact hkv hne

end Stores

/-! ## Filling in the results -/

theorem KeyMap.map_fst_assign (m : KeyMap) (k : Bytes) (kv : KeyValue) :
    (m.assign k kv).map Prod.fst = m.map Prod.fst := by
  rw [KeyMap.assign, List.map_map]
  refine List.map_congr_left fun e _ ↦ ?_
  by_cases he : e.1 = k <;> simp [he]

theorem KeyMap.mem_of_lookup (h : m.lookup k = some kv) : (k, kv) ∈ m := by
  obtain ⟨l₁, l₂, rfl, -⟩ := List.lookup_eq_some_iff.mp h
  simp

theorem KeyMap.exists_lookup (h : k ∈ m.map Prod.fst) : ∃ kv, m.lookup k = some kv := by
  cases hl : m.lookup k with
  | some kv => exact ⟨kv, rfl⟩
  | none =>
    obtain ⟨e, he, rfl⟩ := List.mem_map.mp h
    exact absurd (List.lookup_eq_none_iff.mp hl e he) (by simp)

/-- **One result.** It goes to the cache and to the entries of its key. -/
theorem fillKey_spec {r : Bytes × Item} (hw : w.AgreeOn K) (hr : w.memc.lookup r.1 = some r.2)
    (h : fillKey lib w m r = .ok (w', m')) :
    w'.AgreeOn K ∧ w'.memc = w.memc ∧
      ∃ kv, (r.1, kv) ∈ m ∧ m' = m.assign r.1 (lib.fetched kv r.2) := by
  rw [fillKey] at h
  split at h
  · cases h
  · next kv hkv =>
    obtain ⟨w₁, hadd, hret⟩ := bind_eq_ok.mp h
    cases hret
    have hheld : w.memc.held r.1 = some (r.2.value, r.2.flags) :=
      Store.held_eq_some_iff.mpr ⟨r.2, hr, rfl, rfl⟩
    obtain ⟨hagree, hmemc⟩ := hw.cacheAdd hadd fun _ ↦ hheld
    exact ⟨hagree, hmemc, kv, KeyMap.mem_of_lookup hkv, rfl⟩

/-- The results that come for a request are what memcached holds. -/
theorem lookup_of_mem_fetchOrder {s : Store} {keys : List Bytes} {r : Bytes × Item}
    (h : r ∈ lib.fetchOrder (s.mget keys)) : s.lookup r.1 = some r.2 :=
  (Store.mem_mget.mp ((lib.fetchOrder_perm _).mem_iff.mp h)).2

/-- **Results keep the agreement**, whatever key they are for. -/
theorem Stores.AgreeOn.of_fillKeys {rs : List (Bytes × Item)} (hw : w.AgreeOn K)
    (hrs : ∀ r ∈ rs, w.memc.lookup r.1 = some r.2) (h : fillKeys lib rs w m = .ok (w', m')) :
    w'.AgreeOn K ∧ w'.memc = w.memc := by
  induction rs generalizing w m with
  | nil =>
    cases h
    exact ⟨hw, rfl⟩
  | cons r rs ih =>
    obtain ⟨⟨w₁, m₁⟩, hfill, h⟩ := bind_eq_ok.mp h
    obtain ⟨hw₁, hmemc₁, -⟩ := fillKey_spec hw (hrs r List.mem_cons_self) hfill
    have hrs₁ : ∀ r' ∈ rs, w₁.memc.lookup r'.1 = some r'.2 := by
      intro r' hr'
      rw [hmemc₁]
      exact hrs r' (List.mem_cons_of_mem _ hr')
    obtain ⟨hw', hmemc'⟩ := ih hw₁ hrs₁ h
    exact ⟨hw', hmemc'.trans hmemc₁⟩

/-- **The second loop of `GetKeys`.** Every key with a result gets the answer of memcached, and the
others stay as they were. -/
theorem fillKeys_spec {rs : List (Bytes × Item)} (hw : w.AgreeOn K)
    (hrs : ∀ r ∈ rs, w.memc.lookup r.1 = some r.2) (hm : ∀ e ∈ m, e.2.key? = none)
    (h : fillKeys lib rs w m = .ok (w', m')) :
    m'.map Prod.fst = m.map Prod.fst ∧
      ∀ e ∈ m', (e ∈ m ∧ e.1 ∉ rs.map Prod.fst) ∨
        e.2.answer = answerOf (w.memc.held e.1) := by
  -- Every result overwrites the entry of its key, and leaves the others to the results after it.
  induction rs generalizing w m with
  | nil =>
    cases h
    exact ⟨rfl, fun e he ↦ Or.inl ⟨he, by simp⟩⟩
  | cons r rs ih =>
    obtain ⟨⟨w₁, m₁⟩, hfill, h⟩ := bind_eq_ok.mp h
    have hr := hrs r List.mem_cons_self
    obtain ⟨hw₁, hmemc₁, kv, hkv, rfl⟩ := fillKey_spec hw hr hfill
    have hkey : (lib.fetched kv r.2).key? = none := hm _ hkv
    have hm₁ : ∀ e ∈ m.assign r.1 (lib.fetched kv r.2), e.2.key? = none := by
      intro e he
      obtain ⟨e₀, he₀, rfl⟩ := List.mem_map.mp he
      by_cases hk : e₀.1 = r.1
      · rw [if_pos hk]
        exact hkey
      · rw [if_neg hk]
        exact hm e₀ he₀
    have hrs₁ : ∀ r' ∈ rs, w₁.memc.lookup r'.1 = some r'.2 := by
      intro r' hr'
      rw [hmemc₁]
      exact hrs r' (List.mem_cons_of_mem _ hr')
    obtain ⟨hkeys, hentries⟩ := ih hw₁ hrs₁ hm₁ h
    refine ⟨hkeys.trans (m.map_fst_assign _ _), ?_⟩
    intro e he
    rcases hentries e he with ⟨hmem, hnot⟩ | hans
    · -- the entry was written by this result, or by none
      obtain ⟨e₀, he₀, rfl⟩ := List.mem_map.mp hmem
      by_cases hk : e₀.1 = r.1
      · right
        have hheld : w.memc.held r.1 = some (r.2.value, r.2.flags) :=
          Store.held_eq_some_iff.mpr ⟨r.2, hr, rfl, rfl⟩
        simp only [hk, if_true, hheld, KeyValue.answer, hkey]
        rfl
      · left
        rw [if_neg hk] at hnot ⊢
        refine ⟨he₀, ?_⟩
        rw [List.map_cons, List.mem_cons]
        exact not_or.mpr ⟨hk, hnot⟩
    · right
      rw [hans, hmemc₁]

/-- Results for keys of the map pass the `CHECK`. -/
theorem exists_fillKeys (hw : w.cache = none) : ∀ {rs : List (Bytes × Item)} {m : KeyMap},
    (∀ r ∈ rs, r.1 ∈ m.map Prod.fst) → ∃ m', fillKeys lib rs w m = .ok (w, m') := by
  intro rs
  induction rs with
  | nil => exact fun _ ↦ ⟨_, rfl⟩
  | cons r rs ih =>
    intro m hrs
    obtain ⟨kv, hkv⟩ := KeyMap.exists_lookup (hrs r List.mem_cons_self)
    have hadd : w.cacheAdd r.1 (lib.fetched kv r.2) = .ok w := by rw [Stores.cacheAdd, hw]
    have hfill : fillKey lib w m r = .ok (w, m.assign r.1 (lib.fetched kv r.2)) := by
      rw [fillKey, hkv]
      simp only [hadd, bind, Except.bind]
      rfl
    have hrs' : ∀ r' ∈ rs, r'.1 ∈ (m.assign r.1 (lib.fetched kv r.2)).map Prod.fst := by
      intro r' hr'
      rw [KeyMap.map_fst_assign]
      exact hrs r' (List.mem_cons_of_mem _ hr')
    obtain ⟨m', hm'⟩ := ih hrs'
    refine ⟨m', ?_⟩
    rw [fillKeys, hfill]
    exact hm'

/-! ## What a GET answers -/

/-- A key that is requested as it is, and that libmemcached accepts. -/
def PlainKey (k : Bytes) : Prop := 0 ∉ k ∧ 0 < k.length ∧ k.length ≤ 250

instance : DecidablePred PlainKey := fun _ ↦ inferInstanceAs (Decidable (_ ∧ _))

/-- The map that a batch of GET packets starts from: empty messages, and plain keys. -/
def KeyMap.Plain (m : KeyMap) : Prop := ∀ e ∈ m, e.2 = {} ∧ PlainKey e.1

private theorem copyKey_keys (hm : m.Plain) (p : Bytes → Bool) :
    ((m.map Prod.fst).filter p).map lib.copyKey = (m.map Prod.fst).filter p := by
  have hid : ∀ k ∈ (m.map Prod.fst).filter p, lib.copyKey k = k := by
    intro k hk
    obtain ⟨e, he, rfl⟩ := List.mem_map.mp (List.mem_of_mem_filter hk)
    exact copyKey_eq_self (hm e he).2.1
  rw [List.map_congr_left hid, List.map_id']

/-- An entry after the first loop, if memcached holds nothing for the keys that missed. -/
private theorem answer_fromCache (hw : w.AgreeOn K) (hm : m.Plain)
    (hK : ∀ k ∈ m.map Prod.fst, k ∈ K) {e : Bytes × KeyValue} (he : e ∈ m)
    (habsent : w.view e.1 = none → w.memc.lookup e.1 = none) :
    (e.2.fromCache (w.view e.1)).answer = answerOf (w.memc.held e.1) := by
  rw [(hm e he).1]
  cases hv : w.view e.1 with
  | none =>
    rw [Store.held, habsent hv]
    rfl
  | some d =>
    rw [hw.held e.1 d hv (hK _ (List.mem_map_of_mem he))]
    rfl

/-- **A GET keeps the agreement**, whatever it asks for. -/
theorem Stores.AgreeOn.of_getKeys (hw : w.AgreeOn K) (h : getKeys lib w m = .ok (w', m')) :
    w'.AgreeOn K ∧ w'.memc = w.memc := by
  obtain ⟨⟨w₁, m₁, keys⟩, hlook, h⟩ := bind_eq_ok.mp h
  dsimp only at h
  obtain ⟨hwf₁, hmemc₁, hview₁, -, -⟩ := lookupKeys_spec hw.wf hlook
  have hw₁ : w₁.AgreeOn K := ⟨hwf₁, by rw [hview₁, hmemc₁]; exact hw.held⟩
  split_ifs at h
  · cases h
    exact ⟨hw₁, hmemc₁⟩
  · obtain ⟨hw', hmemc'⟩ := hw₁.of_fillKeys (fun r hr ↦ lookup_of_mem_fetchOrder hr) h
    exact ⟨hw', hmemc'.trans hmemc₁⟩

/-- **A GET answers from memcached's contents.** With a cache that agrees with memcached on the keys
of the map, every entry ends up with the value and flags that memcached holds for its key. -/
theorem getKeys_spec (hw : w.AgreeOn K) (hm : m.Plain) (hK : ∀ k ∈ m.map Prod.fst, k ∈ K)
    (h : getKeys lib w m = .ok (w', m')) :
    m'.map Prod.fst = m.map Prod.fst ∧
      ∀ e ∈ m', e.2.answer = answerOf (w.memc.held e.1) := by
  obtain ⟨⟨w₁, m₁, keys⟩, hlook, h⟩ := bind_eq_ok.mp h
  dsimp only at h
  obtain ⟨hwf₁, hmemc₁, hview₁, rfl, hkeys⟩ := lookupKeys_spec hw.wf hlook
  rw [copyKey_keys hm] at hkeys
  have hw₁ : w₁.AgreeOn K := ⟨hwf₁, by rw [hview₁, hmemc₁]; exact hw.held⟩
  have hfst : (m.map fun e ↦ (e.1, e.2.fromCache (w.view e.1))).map Prod.fst
      = m.map Prod.fst := by
    rw [List.map_map]
    rfl
  have hmiss : ∀ e ∈ m, w.view e.1 = none → e.1 ∈ keys := by
    intro e he hnone
    rw [hkeys, List.mem_filter]
    exact ⟨List.mem_map_of_mem he, by rw [hnone]; rfl⟩
  by_cases hnil : keys = []
  · rw [if_pos hnil] at h
    cases h
    refine ⟨hfst, ?_⟩
    intro e he
    obtain ⟨e₀, he₀, rfl⟩ := List.mem_map.mp he
    refine answer_fromCache hw hm hK he₀ fun hnone ↦ ?_
    have hmem := hmiss e₀ he₀ hnone
    rw [hnil] at hmem
    cases hmem
  · rw [if_neg hnil] at h
    split_ifs at h
    have hnokey : ∀ e ∈ m.map fun e ↦ (e.1, e.2.fromCache (w.view e.1)), e.2.key? = none := by
      intro e he
      obtain ⟨e₀, he₀, rfl⟩ := List.mem_map.mp he
      rw [(hm e₀ he₀).1]
      cases w.view e₀.1 <;> rfl
    obtain ⟨hfst', hentries⟩ :=
      fillKeys_spec hw₁ (fun r hr ↦ lookup_of_mem_fetchOrder hr) hnokey h
    refine ⟨hfst'.trans hfst, ?_⟩
    intro e he
    rcases hentries e he with ⟨hmem, hnot⟩ | hans
    · obtain ⟨e₀, he₀, rfl⟩ := List.mem_map.mp hmem
      refine answer_fromCache hw hm hK he₀ fun hnone ↦ ?_
      -- a key that was asked for and has no result is absent
      by_contra hsome
      obtain ⟨it, hit⟩ := Option.ne_none_iff_exists'.mp hsome
      refine hnot (List.mem_map.mpr ⟨(e₀.1, it), ?_, rfl⟩)
      rw [(lib.fetchOrder_perm _).mem_iff, Store.mem_mget, hmemc₁]
      exact ⟨hmiss e₀ he₀ hnone, hit⟩
    · rw [hans, hmemc₁]

/-- Plain keys are accepted. -/
theorem KeyMap.Plain.mgetReturn (hm : m.Plain) : mgetReturn (m.map Prod.fst) = .success := by
  refine if_pos fun k hk ↦ ?_
  obtain ⟨e, he, rfl⟩ := List.mem_map.mp hk
  exact (hm e he).2.2

/-- They are requested as they are. -/
theorem KeyMap.Plain.map_copyKey (hm : m.Plain) :
    (m.map fun e ↦ lib.copyKey e.1) = m.map Prod.fst :=
  List.map_congr_left fun e he ↦ copyKey_eq_self (hm e he).2.1

/-- Without a cache a GET of plain keys never fails. -/
theorem exists_getKeys (hw : w.cache = none) (hm : m.Plain) :
    ∃ m', getKeys lib w m = .ok (w, m') := by
  rw [getKeys, lookupKeys_of_cache_eq_none hw, hm.map_copyKey]
  simp only [bind, Except.bind]
  by_cases hnil : m.map Prod.fst = []
  · rw [if_pos hnil]
    exact ⟨m, rfl⟩
  · rw [if_neg hnil, if_pos hm.mgetReturn]
    refine exists_fillKeys hw fun r hr ↦ ?_
    exact (Store.mem_mget.mp ((lib.fetchOrder_perm _).mem_iff.mp hr)).1

/-! ## What a batch of GET packets answers -/

theorem KeyMap.mem_insert {e : Bytes × KeyValue} (h : e ∈ m.insert k) : e ∈ m ∨ e = (k, {}) := by
  induction m with
  | nil => exact Or.inr (List.mem_singleton.mp h)
  | cons e₀ m ih =>
    rw [KeyMap.insert] at h
    split_ifs at h
    · rcases List.mem_cons.mp h with rfl | h
      · exact Or.inr rfl
      · exact Or.inl h
    · exact Or.inl h
    · rcases List.mem_cons.mp h with rfl | h
      · exact Or.inl List.mem_cons_self
      · exact (ih h).imp_left (List.mem_cons_of_mem _)

theorem KeyMap.mem_map_fst_insert {j : Bytes} :
    j ∈ (m.insert k).map Prod.fst ↔ j ∈ m.map Prod.fst ∨ j = k := by
  induction m with
  | nil => simp [KeyMap.insert]
  | cons e₀ m ih =>
    rw [KeyMap.insert]
    split_ifs with hlt heq
    · simp only [List.map_cons, List.mem_cons]
      tauto
    · simp only [List.map_cons, List.mem_cons, heq]
      tauto
    · simp only [List.map_cons, List.mem_cons, ih]
      tauto

/-- The keys of a batch are plain. -/
def PlainKeys (packets : List Packet) : Prop :=
  ∀ p ∈ packets, ∀ kv ∈ p.instruction.getKeys, PlainKey kv.key

/-- A batch asks for the key. -/
def AsksFor (packets : List Packet) (k : Bytes) : Prop :=
  ∃ p ∈ packets, ∃ kv ∈ p.instruction.getKeys, kv.key = k

/-- The two loops that fill the map, as one loop over all the keys. -/
theorem keysOf_eq_foldl (packets : List Packet) : keysOf packets =
    (packets.flatMap fun p ↦ p.instruction.getKeys).foldl (fun (m : KeyMap) kv ↦ m.insert kv.key)
      [] := by
  rw [keysOf, List.foldl_flatMap]

theorem mem_foldl_insert {e : Bytes × KeyValue} {kvs : List KeyValue} :
    ∀ {m : KeyMap}, e ∈ kvs.foldl (fun m kv ↦ m.insert kv.key) m →
      e ∈ m ∨ ∃ kv ∈ kvs, e = (kv.key, {}) := by
  induction kvs with
  | nil => exact fun h ↦ Or.inl h
  | cons kv kvs ih =>
    intro m h
    rcases ih h with h | ⟨kv', hkv', rfl⟩
    · rcases KeyMap.mem_insert h with h | rfl
      · exact Or.inl h
      · exact Or.inr ⟨kv, List.mem_cons_self, rfl⟩
    · exact Or.inr ⟨kv', List.mem_cons_of_mem _ hkv', rfl⟩

theorem mem_map_fst_foldl_insert {j : Bytes} {kvs : List KeyValue} : ∀ {m : KeyMap},
    j ∈ (kvs.foldl (fun m kv ↦ m.insert kv.key) m).map Prod.fst ↔
      j ∈ m.map Prod.fst ∨ ∃ kv ∈ kvs, j = kv.key := by
  induction kvs with
  | nil => simp
  | cons kv kvs ih =>
    intro m
    rw [List.foldl_cons, ih, KeyMap.mem_map_fst_insert]
    simp only [List.mem_cons, exists_eq_or_imp]
    tauto

theorem plain_keysOf {packets : List Packet} (h : PlainKeys packets) : (keysOf packets).Plain := by
  intro e he
  rw [keysOf_eq_foldl] at he
  rcases mem_foldl_insert he with he | ⟨kv, hkv, rfl⟩
  · cases he
  · obtain ⟨p, hp, hkv⟩ := List.mem_flatMap.mp hkv
    exact ⟨rfl, h p hp kv hkv⟩

theorem asksFor_of_mem_keysOf {packets : List Packet}
    (h : k ∈ (keysOf packets).map Prod.fst) : AsksFor packets k := by
  rw [keysOf_eq_foldl, mem_map_fst_foldl_insert] at h
  obtain ⟨kv, hkv, rfl⟩ := h.resolve_left List.not_mem_nil
  obtain ⟨p, hp, hkv⟩ := List.mem_flatMap.mp hkv
  exact ⟨p, hp, kv, hkv, rfl⟩

theorem key_mem_keysOf {packets : List Packet} {p : Packet} (hp : p ∈ packets)
    (hkv : kv ∈ p.instruction.getKeys) : kv.key ∈ (keysOf packets).map Prod.fst := by
  rw [keysOf_eq_foldl, mem_map_fst_foldl_insert]
  exact Or.inr ⟨kv, List.mem_flatMap.mpr ⟨p, hp, hkv⟩, rfl⟩

/-- The answer to one key of a GET packet, from memcached's contents alone. -/
def Store.answerKey (s : Store) (kv : KeyValue) : KeyValue :=
  (kv.mergeFrom (answerOf (s.held kv.key))).answer

/-- A reply as far as keys, values and flags are concerned. -/
def Packet.answers (p : Packet) : List Bytes × List KeyValue :=
  (p.frameIds, p.instruction.getKeys.map KeyValue.answer)

/-- The replies to GET packets, from memcached's contents alone. -/
def Store.answers (s : Store) (packets : List Packet) : List (List Bytes × List KeyValue) :=
  packets.map fun p ↦ (p.frameIds, p.instruction.getKeys.map s.answerKey)

theorem mapM_eq_ok_map {α β γ : Type} {f : α → Except Fault β} {g : β → γ} {g' : α → γ} :
    ∀ {l : List α} {l' : List β}, (∀ a ∈ l, ∀ b, f a = .ok b → g b = g' a) →
      l.mapM f = .ok l' → l'.map g = l.map g' := by
  intro l
  induction l with
  | nil =>
    intro l' _ h
    cases h
    rfl
  | cons a l ih =>
    intro l' hf h
    rw [List.mapM_cons] at h
    obtain ⟨b, hb, h⟩ := bind_eq_ok.mp h
    obtain ⟨bs, hbs, h⟩ := bind_eq_ok.mp h
    cases h
    rw [List.map_cons, List.map_cons, hf a List.mem_cons_self b hb,
      ih (fun a' ha' ↦ hf a' (List.mem_cons_of_mem _ ha')) hbs]

theorem exists_mapM {α β : Type} {f : α → Except Fault β} {l : List α}
    (hf : ∀ a ∈ l, ∃ b, f a = .ok b) : ∃ l', l.mapM f = .ok l' := by
  induction l with
  | nil => exact ⟨[], rfl⟩
  | cons a l ih =>
    obtain ⟨b, hb⟩ := hf a List.mem_cons_self
    obtain ⟨bs, hbs⟩ := ih fun a' ha' ↦ hf a' (List.mem_cons_of_mem _ ha')
    refine ⟨b :: bs, ?_⟩
    rw [List.mapM_cons, hb, hbs]
    rfl

/-- **A batch of GET packets keeps the agreement.** -/
theorem Stores.AgreeOn.of_answerGets {packets replies : List Packet} (hw : w.AgreeOn K)
    (h : answerGets lib w packets = .ok (w', replies)) : w'.AgreeOn K ∧ w'.memc = w.memc := by
  obtain ⟨⟨w₁, m₁⟩, hget, h⟩ := bind_eq_ok.mp h
  obtain ⟨rs, -, h⟩ := bind_eq_ok.mp h
  cases h
  exact hw.of_getKeys hget

/-- **A batch of GET packets is answered from memcached's contents.** -/
theorem answerGets_spec {packets replies : List Packet} (hw : w.AgreeOn K)
    (hp : PlainKeys packets) (hK : ∀ k, AsksFor packets k → k ∈ K)
    (h : answerGets lib w packets = .ok (w', replies)) :
    replies.map Packet.answers = w.memc.answers packets := by
  obtain ⟨⟨w₁, m₁⟩, hget, h⟩ := bind_eq_ok.mp h
  obtain ⟨rs, hrs, h⟩ := bind_eq_ok.mp h
  cases h
  obtain ⟨-, hentries⟩ := getKeys_spec hw (plain_keysOf hp)
    (fun k hk ↦ hK k (asksFor_of_mem_keysOf hk)) hget
  refine mapM_eq_ok_map ?_ hrs
  intro p _ q hq
  obtain ⟨kvs, hkvs, hq⟩ := bind_eq_ok.mp hq
  cases hq
  refine Prod.ext rfl (mapM_eq_ok_map ?_ hkvs)
  intro kv _ kv' hkv'
  rw [mergeKey] at hkv'
  split at hkv'
  · cases hkv'
  · next e he =>
    cases hkv'
    have hans : e.answer = answerOf (w.memc.held kv.key) := hentries _ (KeyMap.mem_of_lookup he)
    rw [Store.answerKey, ← hans]
    rfl

/-- Without a cache a batch of GET packets with plain keys is always answered. -/
theorem exists_answerGets {packets : List Packet} (hw : w.cache = none)
    (hp : PlainKeys packets) : ∃ replies, answerGets lib w packets = .ok (w, replies) := by
  obtain ⟨m', hget⟩ := exists_getKeys hw (plain_keysOf hp)
  obtain ⟨hfst, -⟩ :=
    getKeys_spec (Stores.agreeOn_of_cache_eq_none hw Set.univ) (plain_keysOf hp)
      (fun _ _ ↦ trivial) hget
  have hmerge : ∀ p ∈ packets, ∃ q, mergePacket m' p = .ok q := by
    intro p hpmem
    have hkvs : ∀ kv ∈ p.instruction.getKeys, ∃ kv', mergeKey m' kv = .ok kv' := by
      intro kv hkv
      obtain ⟨e, he⟩ := KeyMap.exists_lookup (hfst ▸ key_mem_keysOf hpmem hkv)
      exact ⟨kv.mergeFrom e, by rw [mergeKey, he]⟩
    obtain ⟨kvs, hkvs⟩ := exists_mapM hkvs
    exact ⟨_, bind_eq_ok.mpr ⟨kvs, hkvs, rfl⟩⟩
  obtain ⟨replies, hreplies⟩ := exists_mapM hmerge
  exact ⟨replies, bind_eq_ok.mpr ⟨_, hget, bind_eq_ok.mpr ⟨_, hreplies, rfl⟩⟩⟩

end MemcacheRouter
