import Mathlib.Data.List.Nodup
import Mathlib.Data.List.Sort

/-!
# Ordered maps

A finite map that keeps its entries in the order of their keys, as the list of these entries. An
entry is inserted only if its key is not taken. The entries determine the map, so a map that was
filled without a collision does not depend on the order in which it was filled.

A key need not be taken to have a successor: this is the entry with the smallest key that is not
smaller, or the first entry of all if there is none, as if the keys were arranged in a circle. In a
smaller map the successor is the same, if it is still there.
-/

/-- A finite map, as the list of its entries in the order of their keys. -/
@[ext]
structure OrderedMap (κ α : Type*) [LinearOrder κ] where
  entries : List (κ × α)
  sorted : entries.Pairwise fun a b ↦ a.1 < b.1

namespace OrderedMap

variable {κ α : Type*} [LinearOrder κ] {m m' : OrderedMap κ α} {e e' : κ × α} {k : κ}

/-! ## Entries -/

/-- The map without entries. -/
def empty : OrderedMap κ α := ⟨[], List.Pairwise.nil⟩

/-- The place of a new entry is in front of the first entry with a larger key. -/
theorem pairwise_orderedInsert {l : List (κ × α)} (hl : l.Pairwise fun a b ↦ a.1 < b.1)
    (hnew : ∀ a ∈ l, a.1 ≠ e.1) :
    (l.orderedInsert (fun a b ↦ a.1 < b.1) e).Pairwise fun a b ↦ a.1 < b.1 := by
  induction l with
  | nil => exact List.pairwise_singleton _ e
  | cons b l ih =>
    obtain ⟨hb, hnew⟩ := List.forall_mem_cons.mp hnew
    obtain ⟨hlt, hl⟩ := List.pairwise_cons.mp hl
    rw [List.orderedInsert_cons]
    split_ifs with heb
    · refine List.pairwise_cons.mpr ⟨fun a ha ↦ ?_, List.pairwise_cons.mpr ⟨hlt, hl⟩⟩
      rcases List.mem_cons.mp ha with rfl | ha
      · exact heb
      · exact heb.trans (hlt a ha)
    · refine List.pairwise_cons.mpr ⟨fun a ha ↦ ?_, ih hl hnew⟩
      rcases (List.mem_orderedInsert _).mp ha with rfl | ha
      · exact lt_of_le_of_ne (not_lt.mp heb) hb
      · exact hlt a ha

/-- Insert an entry, unless its key is taken. The result also tells whether it was inserted. -/
def insert (m : OrderedMap κ α) (e : κ × α) : OrderedMap κ α × Bool :=
  if h : ∀ a ∈ m.entries, a.1 ≠ e.1 then
    (⟨m.entries.orderedInsert (fun a b ↦ a.1 < b.1) e, pairwise_orderedInsert m.sorted h⟩, true)
  else (m, false)

theorem insert_snd_iff : (m.insert e).2 = true ↔ ∀ a ∈ m.entries, a.1 ≠ e.1 := by
  rw [insert]
  split_ifs with h
  · exact iff_of_true rfl h
  · exact iff_of_false not_false h

theorem mem_insert (h : (m.insert e).2 = true) :
    e' ∈ (m.insert e).1.entries ↔ e' = e ∨ e' ∈ m.entries := by
  rw [insert, dif_pos (insert_snd_iff.mp h)]
  exact List.mem_orderedInsert _

theorem nodup_entries (m : OrderedMap κ α) : m.entries.Nodup :=
  m.sorted.imp fun h ↦ by
    rintro rfl
    exact lt_irrefl _ h

/-- A key has one entry. -/
theorem eq_of_key_eq (he : e ∈ m.entries) (he' : e' ∈ m.entries) (h : e.1 = e'.1) : e = e' := by
  have hkeys : (m.entries.map Prod.fst).Nodup :=
    List.pairwise_map.mpr (m.sorted.imp fun hlt ↦ ne_of_lt hlt)
  exact List.inj_on_of_nodup_map hkeys he he' h

/-- **The entries determine the map.** -/
theorem ext_of_mem (h : ∀ e, e ∈ m.entries ↔ e ∈ m'.entries) : m = m' := by
  apply OrderedMap.ext
  refine List.Perm.eq_of_pairwise ?_ m.sorted m'.sorted ?_
  · exact fun a b _ _ hab hba ↦ absurd hab hba.not_gt
  · exact (List.perm_ext_iff_of_nodup m.nodup_entries m'.nodup_entries).mpr h

/-! ## Filling a map -/

/-- Insert entries one after the other, until one has a key that is taken. -/
def insertAll : OrderedMap κ α → List (κ × α) → Option (OrderedMap κ α)
  | m, [] => some m
  | m, e :: es => if (m.insert e).2 then (m.insert e).1.insertAll es else none

/-- What a map was filled with. -/
theorem of_insertAll {es : List (κ × α)} : ∀ {m : OrderedMap κ α}, m.insertAll es = some m' →
    (es.map Prod.fst).Nodup ∧ (∀ e ∈ es, ∀ a ∈ m.entries, a.1 ≠ e.1) ∧
      ∀ e, e ∈ m'.entries ↔ e ∈ m.entries ∨ e ∈ es := by
  induction es with
  | nil =>
    intro m h
    obtain rfl := Option.some.inj h
    simp
  | cons x es ih =>
    intro m h
    rw [insertAll] at h
    split_ifs at h with hx
    obtain ⟨hnodup, hfree, hm'⟩ := ih h
    refine ⟨List.nodup_cons.mpr ⟨fun hkey ↦ ?_, hnodup⟩, ?_, fun e ↦ ?_⟩
    · obtain ⟨e, he, hkey⟩ := List.mem_map.mp hkey
      exact hfree e he x ((mem_insert hx).mpr (Or.inl rfl)) hkey.symm
    · refine List.forall_mem_cons.mpr ⟨insert_snd_iff.mp hx, fun e he a ha ↦ ?_⟩
      exact hfree e he a ((mem_insert hx).mpr (Or.inr ha))
    · rw [hm', mem_insert hx, List.mem_cons, or_left_comm, or_assoc]

/-- A map can be filled with entries whose keys are not taken. -/
theorem exists_insertAll {es : List (κ × α)} : ∀ {m : OrderedMap κ α}, (es.map Prod.fst).Nodup →
    (∀ e ∈ es, ∀ a ∈ m.entries, a.1 ≠ e.1) → ∃ m', m.insertAll es = some m' := by
  induction es with
  | nil => exact fun {m} _ _ ↦ ⟨m, rfl⟩
  | cons x es ih =>
    intro m hnodup hfree
    obtain ⟨hkey, hnodup⟩ := List.nodup_cons.mp hnodup
    obtain ⟨hx, hfree⟩ := List.forall_mem_cons.mp hfree
    rw [← insert_snd_iff] at hx
    rw [insertAll, if_pos hx]
    apply ih hnodup
    intro e he a ha
    rcases (mem_insert hx).mp ha with rfl | ha
    · exact fun heq ↦ hkey (List.mem_map.mpr ⟨e, he, heq.symm⟩)
    · exact hfree e he a ha

/-- **When a map can be filled, and with what.** -/
theorem insertAll_eq_some_iff {es : List (κ × α)} :
    m.insertAll es = some m' ↔ (es.map Prod.fst).Nodup ∧
      (∀ e ∈ es, ∀ a ∈ m.entries, a.1 ≠ e.1) ∧
      ∀ e, e ∈ m'.entries ↔ e ∈ m.entries ∨ e ∈ es := by
  constructor
  · exact of_insertAll
  · rintro ⟨hnodup, hfree, hm'⟩
    obtain ⟨m'', h⟩ := exists_insertAll hnodup hfree
    obtain ⟨-, -, hm''⟩ := of_insertAll h
    rw [h, ext_of_mem fun e ↦ (hm'' e).trans (hm' e).symm]

/-- The order in which a map is filled does not matter. -/
theorem insertAll_perm {es es' : List (κ × α)} (h : es.Perm es') :
    m.insertAll es = m.insertAll es' := by
  ext m'
  simp only [insertAll_eq_some_iff, h.mem_iff, (h.map Prod.fst).nodup_iff]

/-! ## Successors -/

/-- The first entry whose key is not smaller. -/
def lowerBound (m : OrderedMap κ α) (k : κ) : Option (κ × α) := m.entries.find? fun e ↦ k ≤ e.1

/-- The entry with the smallest key. -/
def first (m : OrderedMap κ α) : Option (κ × α) := m.entries.head?

/-- The first entry whose key is not smaller, and the first of all if there is none. -/
def successor (m : OrderedMap κ α) (k : κ) : Option (κ × α) :=
  match m.lowerBound k with
  | some e => some e
  | none => m.first

/-- Of a set of entries, `e` comes next after `k` on the circle. -/
def Follows (S : Set (κ × α)) (k : κ) (e : κ × α) : Prop :=
  e ∈ S ∧ ((k ≤ e.1 ∧ ∀ a ∈ S, k ≤ a.1 → e.1 ≤ a.1) ∨ (∀ a ∈ S, a.1 < k) ∧ ∀ a ∈ S, e.1 ≤ a.1)

/-- **What comes next in a set comes next in a smaller one**, if it is still there. -/
theorem Follows.mono {S T : Set (κ × α)} (h : Follows T k e) (hST : S ⊆ T) (he : e ∈ S) :
    Follows S k e := by
  refine ⟨he, ?_⟩
  rcases h.2 with ⟨hk, hle⟩ | ⟨hlt, hle⟩
  · exact Or.inl ⟨hk, fun a ha ↦ hle a (hST ha)⟩
  · exact Or.inr ⟨fun a ha ↦ hlt a (hST ha), fun a ha ↦ hle a (hST ha)⟩

/-- What comes next has one key. -/
theorem Follows.key_eq {S : Set (κ × α)} (h : Follows S k e) (h' : Follows S k e') :
    e.1 = e'.1 := by
  rcases h.2 with ⟨hk, hle⟩ | ⟨hlt, hle⟩
  · rcases h'.2 with ⟨hk', hle'⟩ | ⟨hlt', -⟩
    · exact le_antisymm (hle e' h'.1 hk') (hle' e h.1 hk)
    · exact absurd hk (hlt' e h.1).not_ge
  · rcases h'.2 with ⟨hk', -⟩ | ⟨-, hle'⟩
    · exact absurd hk' (hlt e' h'.1).not_ge
    · exact le_antisymm (hle e' h'.1) (hle' e h.1)

theorem lowerBound_eq_some (h : m.lowerBound k = some e) :
    e ∈ m.entries ∧ k ≤ e.1 ∧ ∀ a ∈ m.entries, k ≤ a.1 → e.1 ≤ a.1 := by
  obtain ⟨hk, before, after, hsplit, hbefore⟩ := List.find?_eq_some_iff_append.mp h
  have hsorted := m.sorted
  rw [hsplit, List.pairwise_append, List.pairwise_cons] at hsorted
  obtain ⟨-, ⟨hafter, -⟩, -⟩ := hsorted
  refine ⟨List.mem_of_find?_eq_some h, of_decide_eq_true hk, fun a ha hka ↦ ?_⟩
  rw [hsplit] at ha
  rcases List.mem_append.mp ha with ha | ha
  · simpa [hka] using hbefore a ha
  · rcases List.mem_cons.mp ha with rfl | ha
    · exact le_rfl
    · exact (hafter a ha).le

theorem lowerBound_eq_none (h : m.lowerBound k = none) : ∀ a ∈ m.entries, a.1 < k := by
  intro a ha
  simpa using List.find?_eq_none.mp h a ha

theorem first_eq_some (h : m.first = some e) : e ∈ m.entries ∧ ∀ a ∈ m.entries, e.1 ≤ a.1 := by
  obtain ⟨l, hl⟩ := List.head?_eq_some_iff.mp h
  have hsorted := m.sorted
  rw [hl, List.pairwise_cons] at hsorted
  rw [hl]
  refine ⟨List.mem_cons_self, fun a ha ↦ ?_⟩
  rcases List.mem_cons.mp ha with rfl | ha
  · exact le_rfl
  · exact (hsorted.1 a ha).le

/-- **The successor comes next on the circle.** -/
theorem follows_of_successor (h : m.successor k = some e) : Follows {a | a ∈ m.entries} k e := by
  rw [successor] at h
  split at h
  · next e' hlower =>
    obtain rfl := Option.some.inj h
    obtain ⟨hmem, hk, hle⟩ := lowerBound_eq_some hlower
    exact ⟨hmem, Or.inl ⟨hk, hle⟩⟩
  · next hlower =>
    obtain ⟨hmem, hle⟩ := first_eq_some h
    exact ⟨hmem, Or.inr ⟨lowerBound_eq_none hlower, hle⟩⟩

theorem exists_successor (hne : m.entries ≠ []) (k : κ) : ∃ e, m.successor k = some e := by
  rw [successor]
  split
  · exact ⟨_, rfl⟩
  · exact ⟨_, List.head?_eq_some_head hne⟩

/-- The successor is the only entry that comes next. -/
theorem successor_eq_some_iff : m.successor k = some e ↔ Follows {a | a ∈ m.entries} k e := by
  constructor
  · exact follows_of_successor
  · intro h
    obtain ⟨e', he'⟩ := exists_successor (List.ne_nil_of_mem h.1) k
    have h' := follows_of_successor he'
    rw [he', eq_of_key_eq h'.1 h.1 (h'.key_eq h)]

/-- **The successor in a larger map** is new, or it is the successor in the smaller one. -/
theorem successor_of_subset (hsub : ∀ a ∈ m.entries, a ∈ m'.entries)
    (h : m'.successor k = some e) : e ∉ m.entries ∨ m.successor k = some e := by
  by_cases he : e ∈ m.entries
  · exact Or.inr (successor_eq_some_iff.mpr ((follows_of_successor h).mono hsub he))
  · exact Or.inl he

end OrderedMap
