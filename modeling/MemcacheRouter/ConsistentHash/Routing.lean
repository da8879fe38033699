import MemcacheRouter.ConsistentHash.Ring

/-!
# Routing on the ring

A key belongs to the owner of the point that comes next on the ring after the position of the key.
The ring is the set of the points of its servers, so it does not matter in which order these are
listed, and adding a server only adds points: a key whose next point is an old one has it still.
-/

namespace MemcacheRouter

namespace ConsistentHash

variable {md5 : DigestFunction} {servers servers' : List Server} {h h' : ConsistentHash}

theorem mem_points {e : UInt32 × Resource} : e ∈ points md5 servers ↔
    ∃ s ∈ servers, ∃ x ∈ pointKeys s, e = (getKetamaHash md5 x.1 x.2, { server := s }) := by
  simp only [points, List.mem_flatMap, List.mem_map, eq_comm]

/-- A server that is not in the list owns no point. -/
theorem server_mem_of_mem_points {e : UInt32 × Resource} (he : e ∈ points md5 servers) :
    e.2.server ∈ servers := by
  obtain ⟨s, hs, x, -, rfl⟩ := mem_points.mp he
  exact hs

/-- There are points if there are servers. -/
theorem points_ne_nil (md5 : DigestFunction) (hne : servers ≠ []) : points md5 servers ≠ [] := by
  obtain ⟨s, hs⟩ := List.exists_mem_of_ne_nil servers hne
  have hkeys : pointKeys s ≠ [] := by
    apply List.ne_nil_of_length_pos
    rw [length_pointKeys]
    decide
  obtain ⟨x, hx⟩ := List.exists_mem_of_ne_nil _ hkeys
  exact List.ne_nil_of_mem (mem_points.mpr ⟨s, hs, x, hx, rfl⟩)

/-- **The owner of the next point.** -/
theorem serverForKey_eq (hnew : new md5 servers = .ok h) (hne : servers ≠ []) (key : Bytes) :
    ∃ e, h.resources.successor (getKetamaHash md5 key 0) = some e ∧
      OrderedMap.Follows {e | e ∈ points md5 servers} (getKetamaHash md5 key 0) e ∧
      serverForKey md5 h key = some e.2.server := by
  obtain ⟨-, hmem⟩ := new_eq_ok_iff.mp hnew
  have hentries : h.resources.entries ≠ [] := by
    obtain ⟨e, he⟩ := List.exists_mem_of_ne_nil _ (points_ne_nil md5 hne)
    exact List.ne_nil_of_mem ((hmem e).mpr he)
  obtain ⟨e, he⟩ := OrderedMap.exists_successor hentries (getKetamaHash md5 key 0)
  refine ⟨e, he, ?_, ?_⟩
  · have hset : {a | a ∈ h.resources.entries} = {a | a ∈ points md5 servers} := Set.ext hmem
    rw [← hset]
    exact OrderedMap.follows_of_successor he
  · rw [serverForKey, serverForHash, he]
    rfl

/-! ## A server is added -/

/-- **Adding a server only moves keys to it.** Wherever it is inserted into the list, every key
belongs to the new server or to the server it belonged to before, and in both rings this is the
owner of the next point. -/
theorem serverForKey_insert (md5 : DigestFunction) (l₁ l₂ : List Server) (s : Server)
    (h h' : ConsistentHash) (hne : l₁ ++ l₂ ≠ []) (hnew : new md5 (l₁ ++ l₂) = .ok h)
    (hnew' : new md5 (l₁ ++ s :: l₂) = .ok h') (key : Bytes) :
    (serverForKey md5 h' key = some s ∨ serverForKey md5 h' key = serverForKey md5 h key) ∧
      (∃ e, OrderedMap.Follows {e | e ∈ points md5 (l₁ ++ l₂)} (getKetamaHash md5 key 0) e ∧
        serverForKey md5 h key = some e.2.server) ∧
      ∃ e, OrderedMap.Follows {e | e ∈ points md5 (l₁ ++ s :: l₂)} (getKetamaHash md5 key 0) e ∧
        serverForKey md5 h' key = some e.2.server := by
  obtain ⟨e, he, hfollows, hserver⟩ := serverForKey_eq hnew hne key
  obtain ⟨e', he', hfollows', hserver'⟩ := serverForKey_eq hnew' (by simp) key
  refine ⟨?_, ⟨e, hfollows, hserver⟩, ⟨e', hfollows', hserver'⟩⟩
  obtain ⟨-, hmem⟩ := new_eq_ok_iff.mp hnew
  obtain ⟨-, hmem'⟩ := new_eq_ok_iff.mp hnew'
  -- the old points are all still there
  have hsub : ∀ a ∈ h.resources.entries, a ∈ h'.resources.entries := by
    intro a ha
    obtain ⟨t, ht, hx⟩ := mem_points.mp ((hmem a).mp ha)
    refine (hmem' a).mpr (mem_points.mpr ⟨t, ?_, hx⟩)
    rw [List.mem_append] at ht
    rw [List.mem_append, List.mem_cons]
    exact ht.imp_right Or.inr
  rcases OrderedMap.successor_of_subset hsub he' with hnot | hsame
  · left
    rw [hserver']
    obtain ⟨t, ht, hx⟩ := mem_points.mp hfollows'.1
    have hserver : e'.2.server = t := by
      obtain ⟨x, -, rfl⟩ := hx
      rfl
    rw [List.mem_append, List.mem_cons] at ht
    rcases ht with hl₁ | rfl | hl₂
    · exact absurd ((hmem e').mpr (mem_points.mpr ⟨t, List.mem_append_left l₂ hl₁, hx⟩)) hnot
    · rw [hserver]
    · exact absurd ((hmem e').mpr (mem_points.mpr ⟨t, List.mem_append_right l₁ hl₂, hx⟩)) hnot
  · right
    rw [hserver', hserver, ← Option.some.inj (he.symm.trans hsame)]

/-- A second host is added in front of the first one. -/
theorem serverForKey_insert_secondHost : ∃ h h', new readableDigest [⟨[97], 11211⟩] = .ok h ∧
    new readableDigest [⟨[98], 11211⟩, ⟨[97], 11211⟩] = .ok h' ∧ ∀ key,
      serverForKey readableDigest h' key = some ⟨[98], 11211⟩ ∨
        serverForKey readableDigest h' key = serverForKey readableDigest h key := by
  obtain ⟨h, hnew⟩ := exists_new_readableDigest [⟨[97], 11211⟩] (by simp) (by decide)
  obtain ⟨h', hnew'⟩ := exists_new_readableDigest [⟨[98], 11211⟩, ⟨[97], 11211⟩]
    (by simp) (by decide)
  exact ⟨h, h', hnew, hnew', fun key ↦ (serverForKey_insert readableDigest [] [⟨[97], 11211⟩]
    ⟨[98], 11211⟩ h h' (by simp) hnew hnew' key).1⟩

/-! ## The order of the list -/

theorem points_perm (hperm : servers.Perm servers') :
    (points md5 servers).Perm (points md5 servers') :=
  hperm.flatMap_right _

/-- **The order of the list does not matter.** Of two lists with the same servers, both have a ring
or neither has, and on both rings every key belongs to the same server. -/
theorem serverForKey_perm (md5 : DigestFunction) (servers servers' : List Server)
    (hne : servers ≠ []) (hperm : servers.Perm servers') :
    (new md5 servers = .error .checkFailed ↔ new md5 servers' = .error .checkFailed) ∧
      ∀ h h', new md5 servers = .ok h → new md5 servers' = .ok h' → ∀ key,
        ∃ s ∈ servers, serverForKey md5 h key = some s ∧ serverForKey md5 h' key = some s := by
  have hnew : new md5 servers = new md5 servers' := by
    rw [new_eq, new_eq, OrderedMap.insertAll_perm (points_perm hperm)]
  refine ⟨by rw [hnew], fun h h' hok hok' key ↦ ?_⟩
  obtain rfl := Except.ok.inj (hok.symm.trans (hnew.trans hok'))
  obtain ⟨e, -, hfollows, hserver⟩ := serverForKey_eq hok hne key
  exact ⟨e.2.server, server_mem_of_mem_points hfollows.1, hserver, hserver⟩

/-- Two hosts are listed in both orders. -/
theorem serverForKey_perm_twoHosts : ∃ h h',
    new readableDigest [⟨[97], 11211⟩, ⟨[98], 11211⟩] = .ok h ∧
      new readableDigest [⟨[98], 11211⟩, ⟨[97], 11211⟩] = .ok h' ∧ ∀ key,
        serverForKey readableDigest h key = serverForKey readableDigest h' key := by
  obtain ⟨h, hnew⟩ := exists_new_readableDigest [⟨[97], 11211⟩, ⟨[98], 11211⟩]
    (by simp) (by decide)
  obtain ⟨h', hnew'⟩ := exists_new_readableDigest [⟨[98], 11211⟩, ⟨[97], 11211⟩]
    (by simp) (by decide)
  refine ⟨h, h', hnew, hnew', fun key ↦ ?_⟩
  obtain ⟨s, -, hs, hs'⟩ := (serverForKey_perm readableDigest [⟨[97], 11211⟩, ⟨[98], 11211⟩]
    [⟨[98], 11211⟩, ⟨[97], 11211⟩] (by simp) (List.Perm.swap _ _ _)).2 h h' hnew hnew' key
  rw [hs, hs']

end ConsistentHash

end MemcacheRouter
