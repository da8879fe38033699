import Mathlib.Data.List.FinRange
import MemcacheRouter.Foundations.OrderedMap
import MemcacheRouter.Memcached.Store

/-!
# The ring

`class ConsistentHash` keeps a map from positions to servers. Every server owns 160 points: the
digests of 40 texts are cut in four, and the text of a point is the hostname of the server, a dash
and the number of the point. Two points on one position fail a `CHECK`.

The text has no dash after the one behind the hostname, so it tells the hostname and the number. It
does not tell the port: two servers on one host have the same points, and there is no ring for them.
-/

namespace MemcacheRouter.ConsistentHash

/-- `uint32_t` is ordered by value. -/
scoped instance instLinearOrderUInt32 : LinearOrder UInt32 where
  le_refl := UInt32.le_refl
  le_trans _ _ _ := UInt32.le_trans
  le_antisymm _ _ := UInt32.le_antisymm
  le_total := UInt32.le_total
  lt_iff_le_not_ge _ _ := by
    rw [UInt32.not_le]
    exact ⟨fun h ↦ ⟨UInt32.le_of_lt h, h⟩, And.right⟩
  toDecidableLE := inferInstance
  toDecidableEq := inferInstance
  toDecidableLT := inferInstance

end MemcacheRouter.ConsistentHash

namespace MemcacheRouter

/-- `kPointsPerServer`. -/
def kPointsPerServer : ℕ := 160

/-- `kAlignment`. -/
abbrev kAlignment : ℕ := 4

/-- A digest function in the place of `MD5`. -/
abbrev DigestFunction := Bytes → Vector UInt8 16

/-- `struct Resource`. -/
structure Resource where
  server : Server
  position : ℤ := -1
  deriving DecidableEq, Repr

/-- `Resource::GetKeyForPoint`. -/
def Resource.getKeyForPoint (r : Resource) (point : ℕ) : Bytes :=
  r.server.hostname ++ [45] ++ decimal point

open scoped ConsistentHash in
/-- `class ConsistentHash`. -/
structure ConsistentHash where
  resources : OrderedMap UInt32 Resource := .empty

namespace ConsistentHash

theorem digestIndex_lt (i : Fin 4) (alignment : Fin kAlignment) :
    (i : ℕ) + alignment * 4 < 16 := by
  have hlt : (alignment : ℕ) < 4 := alignment.isLt
  omega

/-- `(uint32_t) (digest[i + alignment * 4] & 0xFF)`. -/
def digestByte (digest : Vector UInt8 16) (i : Fin 4) (alignment : Fin kAlignment) : UInt32 :=
  (digest.get ⟨i + alignment * 4, digestIndex_lt i alignment⟩).toUInt32 &&& 0xFF

/-- `ConsistentHash::GetKetamaHash`. -/
def getKetamaHash (md5 : DigestFunction) (key : Bytes) (alignment : Fin kAlignment) : UInt32 :=
  digestByte (md5 key) 3 alignment <<< 24 ||| digestByte (md5 key) 2 alignment <<< 16
    ||| digestByte (md5 key) 1 alignment <<< 8 ||| digestByte (md5 key) 0 alignment

/-- `CHECK(resources_.insert(...).second)`. -/
def insertPoint (h : ConsistentHash) (point : UInt32 × Resource) : Except Fault ConsistentHash :=
  if (h.resources.insert point).2 then .ok ⟨(h.resources.insert point).1⟩ else .error .checkFailed

/-- The constructor of `ConsistentHash`. -/
def new (md5 : DigestFunction) (servers : List Server) : Except Fault ConsistentHash :=
  servers.foldlM (fun h server ↦
    let resource : Resource := { server := server }
    (List.range (kPointsPerServer / kAlignment)).foldlM (fun h j ↦
      let resourceKey := resource.getKeyForPoint j
      (List.finRange kAlignment).foldlM (fun h alignment ↦
        h.insertPoint (getKetamaHash md5 resourceKey alignment, resource)) h) h) {}

/-- `ConsistentHash::ServerForHash`. There is no server if there is no point. -/
def serverForHash (h : ConsistentHash) (hash : UInt32) : Option Server :=
  (h.resources.successor hash).map fun point ↦ point.2.server

/-- `ConsistentHash::ServerForKey`. -/
def serverForKey (md5 : DigestFunction) (h : ConsistentHash) (key : Bytes) : Option Server :=
  h.serverForHash (getKetamaHash md5 key 0)

/-! ## Points -/

/-- The texts and the alignments of the points of a server. -/
def pointKeys (s : Server) : List (Bytes × Fin kAlignment) :=
  (List.range (kPointsPerServer / kAlignment)).flatMap fun j ↦
    (List.finRange kAlignment).map fun a ↦ (Resource.getKeyForPoint { server := s } j, a)

/-- The points of a list of servers. -/
def points (md5 : DigestFunction) (servers : List Server) : List (UInt32 × Resource) :=
  servers.flatMap fun s ↦
    (pointKeys s).map fun x ↦ (getKetamaHash md5 x.1 x.2, { server := s })

variable {md5 : DigestFunction} {servers : List Server} {h : ConsistentHash}

theorem foldlM_flatMap {ε α β γ : Type} {f : α → List β} {g : γ → β → Except ε γ} {l : List α} :
    ∀ {c : γ}, (l.flatMap f).foldlM g c = l.foldlM (fun c a ↦ (f a).foldlM g c) c := by
  induction l with
  | nil => exact fun {_} ↦ rfl
  | cons a l ih =>
    intro c
    rw [List.flatMap_cons, List.foldlM_append, List.foldlM_cons]
    exact congrArg _ (funext fun _ ↦ ih)

/-- The constructor inserts the points one after the other. -/
theorem new_eq_foldlM : new md5 servers = (points md5 servers).foldlM insertPoint {} := by
  simp only [new, points, pointKeys, List.map_flatMap, List.map_map, foldlM_flatMap,
    List.foldlM_map]
  rfl

theorem foldlM_insertPoint (es : List (UInt32 × Resource)) : ∀ h : ConsistentHash,
    es.foldlM insertPoint h = match h.resources.insertAll es with
      | some m => .ok ⟨m⟩
      | none => .error .checkFailed := by
  induction es with
  | nil => exact fun _ ↦ rfl
  | cons e es ih =>
    intro h
    rw [List.foldlM_cons, insertPoint, OrderedMap.insertAll]
    split_ifs
    · exact ih _
    · rfl

/-- **The ring is the map of the points**, and it is not built if two of them have one position. -/
theorem new_eq : new md5 servers = match OrderedMap.empty.insertAll (points md5 servers) with
    | some m => .ok ⟨m⟩
    | none => .error .checkFailed := by
  rw [new_eq_foldlM, foldlM_insertPoint]

theorem new_eq_ok_iff : new md5 servers = .ok h ↔
    ((points md5 servers).map Prod.fst).Nodup ∧
      ∀ e, e ∈ h.resources.entries ↔ e ∈ points md5 servers := by
  have hmap : new md5 servers = .ok h ↔
      OrderedMap.empty.insertAll (points md5 servers) = some h.resources := by
    rw [new_eq]
    rcases OrderedMap.empty.insertAll (points md5 servers) with _ | m
    · simp
    · rw [Except.ok.injEq, Option.some.injEq]
      constructor
      · rintro rfl
        rfl
      · rintro rfl
        rfl
  rw [hmap, OrderedMap.insertAll_eq_some_iff]
  simp [OrderedMap.empty]

theorem exists_new_iff : (∃ h, new md5 servers = .ok h) ↔
    ((points md5 servers).map Prod.fst).Nodup := by
  constructor
  · rintro ⟨h, hnew⟩
    exact (new_eq_ok_iff.mp hnew).1
  · intro hnodup
    obtain ⟨m, hm⟩ := OrderedMap.exists_insertAll (m := .empty) hnodup (by simp [OrderedMap.empty])
    rw [new_eq, hm]
    exact ⟨_, rfl⟩

/-! ## Texts -/

/-- **The text of a point tells the hostname and the number of the point.** -/
theorem getKeyForPoint_inj {r r' : Resource} {j j' : ℕ}
    (hkey : r.getKeyForPoint j = r'.getKeyForPoint j') :
    r.server.hostname = r'.server.hostname ∧ j = j' := by
  -- the last dash is the one behind the hostname
  have hdash : ∀ n, (45 : UInt8) ∉ decimal n := fun n hmem ↦
    absurd (mem_decimal hmem).1 (by decide)
  simp only [Resource.getKeyForPoint, List.append_assoc, List.singleton_append] at hkey
  rcases List.append_eq_append_iff.mp hkey with ⟨cs, hhost, hrest⟩ | ⟨cs, hhost, hrest⟩
  · rcases cs with _ | ⟨c, cs⟩
    · exact ⟨by simpa using hhost.symm, decimal_injective (List.cons.inj hrest).2⟩
    · refine absurd ?_ (hdash j)
      rw [(List.cons.inj hrest).2]
      exact List.mem_append_right cs List.mem_cons_self
  · rcases cs with _ | ⟨c, cs⟩
    · exact ⟨by simpa using hhost, decimal_injective (List.cons.inj hrest).2.symm⟩
    · refine absurd ?_ (hdash j')
      rw [(List.cons.inj hrest).2]
      exact List.mem_append_right cs List.mem_cons_self

theorem mem_pointKeys {s : Server} {x : Bytes × Fin kAlignment} : x ∈ pointKeys s ↔
    ∃ j < kPointsPerServer / kAlignment, Resource.getKeyForPoint { server := s } j = x.1 := by
  simp only [pointKeys, List.mem_flatMap, List.mem_range, List.mem_map, List.mem_finRange, true_and]
  constructor
  · rintro ⟨j, hj, a, rfl⟩
    exact ⟨j, hj, rfl⟩
  · rintro ⟨j, hj, hx⟩
    exact ⟨j, hj, x.2, Prod.ext hx rfl⟩

theorem nodup_pointKeys (s : Server) : (pointKeys s).Nodup := by
  refine List.nodup_flatMap.mpr ⟨fun j _ ↦ ?_, List.nodup_range.imp fun hne x hx hx' ↦ ?_⟩
  · exact (List.nodup_finRange _).map fun a b hab ↦ (Prod.mk.inj hab).2
  · obtain ⟨a, -, rfl⟩ := List.mem_map.mp hx
    obtain ⟨b, -, hab⟩ := List.mem_map.mp hx'
    exact hne (getKeyForPoint_inj (Prod.mk.inj hab).1).2.symm

theorem length_pointKeys (s : Server) : (pointKeys s).length = kPointsPerServer := by
  simp [pointKeys, kPointsPerServer, kAlignment]

/-- Two servers share a text exactly if they share their hostname. -/
theorem disjoint_pointKeys_iff {s t : Server} :
    (pointKeys s).Disjoint (pointKeys t) ↔ s.hostname ≠ t.hostname := by
  constructor
  · intro hdisjoint hhost
    have hkey : Resource.getKeyForPoint { server := s } 0
        = Resource.getKeyForPoint { server := t } 0 := by
      rw [Resource.getKeyForPoint, Resource.getKeyForPoint, hhost]
    refine hdisjoint (a := (Resource.getKeyForPoint { server := s } 0, 0)) ?_ ?_
    · exact mem_pointKeys.mpr ⟨0, by decide, rfl⟩
    · exact mem_pointKeys.mpr ⟨0, by decide, hkey.symm⟩
  · intro hhost x hx hx'
    obtain ⟨j, -, hj⟩ := mem_pointKeys.mp hx
    obtain ⟨j', -, hj'⟩ := mem_pointKeys.mp hx'
    exact hhost (getKeyForPoint_inj (hj.trans hj'.symm)).1

theorem nodup_pointKeys_iff :
    (servers.flatMap pointKeys).Nodup ↔ (servers.map Server.hostname).Nodup := by
  rw [List.nodup_flatMap]
  constructor
  · rintro ⟨-, hdisjoint⟩
    exact List.pairwise_map.mpr (hdisjoint.imp disjoint_pointKeys_iff.mp)
  · intro hhosts
    refine ⟨fun s _ ↦ nodup_pointKeys s, ?_⟩
    exact (List.pairwise_map.mp hhosts).imp disjoint_pointKeys_iff.mpr

/-! ## When the ring is built -/

/-- The digest puts different points of these servers on different positions. -/
def CollisionFree (md5 : DigestFunction) (servers : List Server) : Prop :=
  ∀ x ∈ servers.flatMap pointKeys, ∀ y ∈ servers.flatMap pointKeys, x ≠ y →
    getKetamaHash md5 x.1 x.2 ≠ getKetamaHash md5 y.1 y.2

theorem CollisionFree.mono {servers' : List Server} (hfree : CollisionFree md5 servers)
    (hsub : ∀ s ∈ servers', ∃ t ∈ servers, s.hostname = t.hostname) :
    CollisionFree md5 servers' := by
  have hmem : ∀ x ∈ servers'.flatMap pointKeys, x ∈ servers.flatMap pointKeys := by
    intro x hx
    obtain ⟨s, hs, hx⟩ := List.mem_flatMap.mp hx
    obtain ⟨t, ht, hhost⟩ := hsub s hs
    obtain ⟨j, hj, hkey⟩ := mem_pointKeys.mp hx
    refine List.mem_flatMap.mpr ⟨t, ht, mem_pointKeys.mpr ⟨j, hj, ?_⟩⟩
    rw [← hkey, Resource.getKeyForPoint, Resource.getKeyForPoint, hhost]
  exact fun x hx y hy ↦ hfree x (hmem x hx) y (hmem y hy)

theorem positions_eq : (points md5 servers).map Prod.fst =
    (servers.flatMap pointKeys).map fun x ↦ getKetamaHash md5 x.1 x.2 := by
  simp only [points, List.map_flatMap, List.map_map]
  rfl

/-- Without collisions the positions are as different as the hostnames. -/
theorem nodup_positions_iff (hfree : CollisionFree md5 servers) :
    ((points md5 servers).map Prod.fst).Nodup ↔ (servers.map Server.hostname).Nodup := by
  rw [positions_eq, ← nodup_pointKeys_iff]
  constructor
  · exact List.Nodup.of_map _
  · intro hnodup
    refine (List.nodup_map_iff_inj_on hnodup).mpr fun x hx y hy heq ↦ ?_
    by_contra hne
    exact hfree x hx y hy hne heq

/-- The points of one server among those of a list. -/
theorem countP_points (s : Server) : (points md5 servers).countP (fun e ↦ e.2.server = s) =
    kPointsPerServer * servers.count s := by
  induction servers with
  | nil => rfl
  | cons t servers ih =>
    rw [points, List.flatMap_cons, List.countP_append, List.countP_map, ← points, ih,
      List.count_cons]
    by_cases hts : t = s
    · have hall : (pointKeys t).countP ((fun e : UInt32 × Resource ↦ decide (e.2.server = s)) ∘
          fun x ↦ (getKetamaHash md5 x.1 x.2, { server := t })) = kPointsPerServer := by
        rw [← length_pointKeys t, List.countP_eq_length]
        simp [hts]
      rw [hall]
      simp [hts, Nat.mul_add, Nat.add_comm]
    · have hnone : (pointKeys t).countP ((fun e : UInt32 × Resource ↦ decide (e.2.server = s)) ∘
          fun x ↦ (getKetamaHash md5 x.1 x.2, { server := t })) = 0 := by
        rw [List.countP_eq_zero]
        simp [hts]
      rw [hnone]
      simp [hts]

/-- In a ring every server of a list without repetitions owns 160 points. -/
theorem countP_entries (hnew : new md5 servers = .ok h) (hdistinct : servers.Nodup) {s : Server}
    (hs : s ∈ servers) :
    h.resources.entries.countP (fun e ↦ e.2.server = s) = kPointsPerServer := by
  obtain ⟨hnodup, hmem⟩ := new_eq_ok_iff.mp hnew
  have hperm : h.resources.entries.Perm (points md5 servers) :=
    (List.perm_ext_iff_of_nodup h.resources.nodup_entries hnodup.of_map).mpr hmem
  rw [hperm.countP_eq, countP_points, List.count_eq_one_of_mem hdistinct hs, Nat.mul_one]

/-- **The ring is built if and only if no two servers have one hostname**, if the digest has no
collisions, and then every server owns 160 points. -/
theorem built_iff (md5 : DigestFunction) (servers : List Server) (hdistinct : servers.Nodup)
    (hfree : CollisionFree md5 servers) :
    (∃ h, new md5 servers = .ok h ∧ ∀ s ∈ servers,
      h.resources.entries.countP (fun e ↦ e.2.server = s) = kPointsPerServer) ↔
      (servers.map Server.hostname).Nodup := by
  rw [← nodup_positions_iff hfree, ← exists_new_iff]
  constructor
  · rintro ⟨h, hnew, -⟩
    exact ⟨h, hnew⟩
  · rintro ⟨h, hnew⟩
    exact ⟨h, hnew, fun s hs ↦ countP_entries hnew hdistinct hs⟩

/-- A digest that tells the first letter of a text, and the number that follows its third one. -/
def readableDigest : DigestFunction := fun key ↦
  Vector.ofFn fun i ↦
    if (i : ℕ) % 4 = 0 then UInt8.ofNat (i / 4)
    else if (i : ℕ) % 4 = 1 then
      UInt8.ofNat ((key.drop 2).foldl (fun n c ↦ 10 * n + (c.toNat - 48)) 0)
    else if (i : ℕ) % 4 = 2 then 0
    else key.headD 0

set_option maxRecDepth 4000 in
/-- It puts the points of two hosts in the order in which they are made. -/
theorem collisionFree_readableDigest :
    CollisionFree readableDigest [⟨[97], 11211⟩, ⟨[98], 11211⟩] := by
  have hchain : List.IsChain (· < ·)
      ((([⟨[97], 11211⟩, ⟨[98], 11211⟩] : List Server).flatMap pointKeys).map
        fun x ↦ getKetamaHash readableDigest x.1 x.2) := by
    decide +kernel
  intro x hx y hy hne heq
  exact hne (List.inj_on_of_nodup_map hchain.pairwise.nodup hx hy heq)

/-- There is a ring for these hosts, and for one of them. -/
theorem exists_new_readableDigest (servers : List Server)
    (hhosts : ∀ s ∈ servers, s.hostname = [97] ∨ s.hostname = [98])
    (hnodup : (servers.map Server.hostname).Nodup) : ∃ h, new readableDigest servers = .ok h := by
  have hfree : CollisionFree readableDigest servers :=
    collisionFree_readableDigest.mono (by simpa using hhosts)
  rwa [exists_new_iff, nodup_positions_iff hfree]

/-- There is a ring for two hosts. -/
theorem built_iff_twoHosts : ∃ h, new readableDigest [⟨[97], 11211⟩, ⟨[98], 11211⟩] = .ok h ∧
    ∀ s ∈ ([⟨[97], 11211⟩, ⟨[98], 11211⟩] : List Server),
      h.resources.entries.countP (fun e ↦ e.2.server = s) = kPointsPerServer :=
  (built_iff readableDigest [⟨[97], 11211⟩, ⟨[98], 11211⟩] (by decide)
    collisionFree_readableDigest).mpr (by decide)

/-- **There is no ring for two servers on one host.** -/
theorem not_built_twoPorts :
    ([⟨[97], 11211⟩, ⟨[97], 11212⟩] : List Server).Nodup ∧
      CollisionFree readableDigest [⟨[97], 11211⟩, ⟨[97], 11212⟩] ∧
      ¬∃ h, new readableDigest [⟨[97], 11211⟩, ⟨[97], 11212⟩] = .ok h := by
  have hfree : CollisionFree readableDigest [⟨[97], 11211⟩, ⟨[97], 11212⟩] :=
    collisionFree_readableDigest.mono (by simp)
  refine ⟨by decide, hfree, fun hbuilt ↦ ?_⟩
  rw [exists_new_iff, nodup_positions_iff hfree] at hbuilt
  exact absurd hbuilt (by decide)

end ConsistentHash

end MemcacheRouter
