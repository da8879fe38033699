import MemcacheRouter.Client.Agreement

/-!
# Workers that share a cache

Any number of workers process requests over one cache and one memcached. Each operation of the
cache runs under a mutex and each operation of memcached is atomic, but `GetKeys` and `SetKeys`
are sequences of them, and those of different workers interleave: a GET looks its keys up, reads
the misses from memcached and then stores what it read, and a SET stores its value in the cache and
then in memcached.

The two stores drift apart when these sequences overlap in two ways: a GET stores a value that a SET
of another value has replaced in memcached, or is about to, and a SET that was the last to write to
the cache is not the last to write to memcached. In a run in which neither happens the cache is
coherent. The last value written to the cache is then the last that memcached has, as soon as no SET
of the key is between its two writes.
-/

open Transition

namespace MemcacheRouter

/-- A request as a worker takes it up. -/
inductive Request where
  | get (keys : List Bytes)
  | set (items : List KeyValue)
  | incr (items : List KeyValue)

/-- How far a worker has got. -/
inductive Task where
  | idle
  /-- In `GetKeys`: the keys of the map, those not looked up yet, the copies of those that missed
  and were not read yet, and the results that were not stored yet. -/
  | getting (keys todo missed : List Bytes) (fetched : List (Bytes × Item))
  /-- In `SetKeys`, between two items. -/
  | setting (items : List KeyValue)
  /-- In `SetKeys`: the item is in the cache, and not in memcached yet. -/
  | storing (item : KeyValue) (rest : List KeyValue)
  /-- In `IncrKeys`. -/
  | incring (items : List KeyValue)
  deriving DecidableEq

/-- The next thing a worker does. The results of a request may be read and arrive in any order. -/
inductive Move where
  | begin (req : Request)
  | lookup
  | read (k : Bytes)
  | fill (r : Bytes × Item)
  | cacheWrite
  | memcWrite
  | incr
  | finish

def Request.start : Request → Task
  | get keys => .getting keys keys [] []
  | set items => .setting items
  | incr items => .incring items

/-- One move of a worker over the stores. A fault has no successor. -/
def Task.advance (lib : Libmemcached) (w : Stores) : Task → Move → Option (Stores × Task)
  | .idle, .begin req => some (w, req.start)
  | .getting keys (k :: todo) missed fetched, .lookup =>
    (w.cacheGet k {}).toOption.map fun r ↦ (r.1, .getting keys todo
      (if r.2.1 then missed else missed ++ [lib.copyKey k]) fetched)
  | .getting keys [] missed fetched, .read k =>
    if k ∈ missed then some (w, .getting keys [] (missed.erase k)
      (fetched ++ ((w.memc.lookup k).map fun it ↦ (k, it)).toList))
    else none
  | .getting keys [] missed fetched, .fill r =>
    if r ∈ fetched ∧ r.1 ∈ keys then (w.cacheAdd r.1 (lib.fetched {} r.2)).toOption.map
      fun w' ↦ (w', .getting keys [] missed (fetched.erase r))
    else none
  | .setting (item :: rest), .cacheWrite => (w.cacheAdd item.key item).toOption.map
      fun w' ↦ (w', if item.noPropagate then .setting rest else .storing item rest)
  | .storing item rest, .memcWrite => some ({ w with memc := (w.memc.put item).1 }, .setting rest)
  | .incring (item :: rest), .incr => some ({ w with memc := (w.memc.count item).1 }, .incring rest)
  | .getting _ [] [] [], .finish => some (w, .idle)
  | .setting [], .finish => some (w, .idle)
  | .incring [], .finish => some (w, .idle)
  | _, _ => none

/-- The stores and how far each worker has got. -/
structure System extends Stores where
  task : ℕ → Task

/-- A worker moves, or time passes. -/
inductive Action where
  | move (i : ℕ) (m : Move)
  | tick (n : ℕ)

namespace System

/-- One step of the system. -/
def step (lib : Libmemcached) (s : System) : Action → Option System
  | .move i m => ((s.task i).advance lib s.toStores m).map
      fun r ↦ ⟨r.1, Function.update s.task i r.2⟩
  | .tick n => some { s with memc := s.memc.tick n }

/-- No request is in flight. -/
def Quiescent (s : System) : Prop := ∀ i, s.task i = .idle

/-- The start: no worker has a request. -/
def init (w : Stores) : System := ⟨w, fun _ ↦ .idle⟩

end System

/-- What a move can do, case by case. -/
inductive Task.Advance (lib : Libmemcached) (w : Stores) : Task → Move → Stores → Task → Prop
  | begin (req : Request) : Advance lib w .idle (.begin req) w req.start
  | lookup {keys todo missed k fetched w' hit kv} (h : w.cacheGet k {} = .ok (w', hit, kv)) :
      Advance lib w (.getting keys (k :: todo) missed fetched) .lookup w'
        (.getting keys todo (if hit then missed else missed ++ [lib.copyKey k]) fetched)
  | read {keys missed k fetched} (h : k ∈ missed) :
      Advance lib w (.getting keys [] missed fetched) (.read k) w (.getting keys []
        (missed.erase k) (fetched ++ ((w.memc.lookup k).map fun it ↦ (k, it)).toList))
  | fill {keys missed fetched r w'} (hr : r ∈ fetched) (hkey : r.1 ∈ keys)
      (h : w.cacheAdd r.1 (lib.fetched {} r.2) = .ok w') :
      Advance lib w (.getting keys [] missed fetched) (.fill r) w'
        (.getting keys [] missed (fetched.erase r))
  | cacheWrite {item rest w'} (h : w.cacheAdd item.key item = .ok w') :
      Advance lib w (.setting (item :: rest)) .cacheWrite w'
        (if item.noPropagate then .setting rest else .storing item rest)
  | memcWrite {item rest} : Advance lib w (.storing item rest) .memcWrite
      { w with memc := (w.memc.put item).1 } (.setting rest)
  | incr {item rest} : Advance lib w (.incring (item :: rest)) .incr
      { w with memc := (w.memc.count item).1 } (.incring rest)
  | finish {t} (h : ∀ item rest, t ≠ .storing item rest) : Advance lib w t .finish w .idle

variable {lib : Libmemcached}

theorem toOption_eq_some_iff {α : Type} {x : Except Fault α} {a : α} :
    x.toOption = some a ↔ x = .ok a := by
  cases x <;> simp [Except.toOption]

/-- **Inversion of a move.** -/
theorem Task.advance_cases {w w' : Stores} {t t' : Task} {m : Move}
    (h : t.advance lib w m = some (w', t')) : t.Advance lib w m w' t' := by
  unfold Task.advance at h
  split at h
  · cases h
    exact .begin _
  · obtain ⟨⟨w₁, hit, kv⟩, hget, h⟩ := Option.map_eq_some_iff.mp h
    cases h
    exact .lookup (toOption_eq_some_iff.mp hget)
  · split_ifs at h with hk
    cases h
    exact .read hk
  · split_ifs at h with hr
    obtain ⟨w₁, hadd, h⟩ := Option.map_eq_some_iff.mp h
    cases h
    exact .fill hr.1 hr.2 (toOption_eq_some_iff.mp hadd)
  · obtain ⟨w₁, hadd, h⟩ := Option.map_eq_some_iff.mp h
    cases h
    exact .cacheWrite (toOption_eq_some_iff.mp hadd)
  · cases h
    exact .memcWrite
  · cases h
    exact .incr
  · cases h
    exact .finish (by simp)
  · cases h
    exact .finish (by simp)
  · cases h
    exact .finish (by simp)
  · cases h

/-- **Inversion of a step.** -/
theorem System.step_cases {s s' : System} {a : Action} (h : s.step lib a = some s') :
    (∃ i m w t, a = .move i m ∧ (s.task i).Advance lib s.toStores m w t ∧
        s' = ⟨w, Function.update s.task i t⟩) ∨
      ∃ n, a = .tick n ∧ s' = { s with memc := s.memc.tick n } := by
  cases a with
  | move i m =>
    obtain ⟨⟨w, t⟩, hmove, h⟩ := Option.map_eq_some_iff.mp h
    exact Or.inl ⟨i, m, w, t, rfl, Task.advance_cases hmove, h.symm⟩
  | tick n => exact Or.inr ⟨n, rfl, (Option.some.inj h).symm⟩

/-! ## The functions of `MemClient` as sequences of moves -/

/-- One worker on its own. -/
def Task.alone (lib : Libmemcached) (p : Stores × Task) (m : Move) : Option (Stores × Task) :=
  p.2.advance lib p.1 m

/-- A worker on its own is a worker of the system that is not interrupted. -/
theorem System.run_of_alone {i : ℕ} {p q : Stores × Task} {ms : List Move} {s : System}
    (h : Run (StepOf (Task.alone lib)) p ms q) (hs : s.toStores = p.1) (ht : s.task i = p.2) :
    Run (StepOf (System.step lib)) s (ms.map (Action.move i))
      ⟨q.1, Function.update s.task i q.2⟩ := by
  induction h with
  | nil =>
    rw [← hs, ← ht, Function.update_eq_self]
    exact Run.nil _
  | @snoc t u ms m _ hstep ih =>
    rw [List.map_append]
    refine ih.snoc ?_
    have hmove : t.2.advance lib t.1 m = some u := hstep
    simp only [StepOf, System.step, Function.update_self, hmove, Option.map_some,
      Function.update_idem]

theorem Stores.cacheAdd_congr {w : Stores} {k : Bytes} {kv kv' : KeyValue}
    (h : Bucket.entryOf k kv = Bucket.entryOf k kv') : w.cacheAdd k kv = w.cacheAdd k kv' := by
  simp only [Stores.cacheAdd, Cache.addOrReplace, Bucket.addOrReplace, h]

theorem run_of_setKeys_moves {kvs : List KeyValue} :
    ∀ {w w' : Stores} {kvs' : List KeyValue}, setKeys lib kvs w = .ok (w', kvs') →
      ∃ ms, Run (StepOf (Task.alone lib)) (w, .setting kvs) ms (w', .setting []) := by
  induction kvs with
  | nil =>
    intro w w' kvs' h
    cases h
    exact ⟨[], Run.nil _⟩
  | cons kv kvs ih =>
    intro w w' kvs' h
    obtain ⟨⟨w₁, kv₁⟩, hset, h⟩ := bind_eq_ok.mp h
    obtain ⟨⟨w₂, kvs₂⟩, hrest, h⟩ := bind_eq_ok.mp h
    cases h
    obtain ⟨w₀, hadd, rfl⟩ := setKey_eq_ok hset
    obtain ⟨ms, hms⟩ := ih hrest
    have hcache : Task.alone lib (w, .setting (kv :: kvs)) .cacheWrite
        = some (w₀, if kv.noPropagate then .setting kvs else .storing kv kvs) := by
      simp only [Task.alone, Task.advance, hadd]
      rfl
    -- an item that is not propagated is written to the cache only
    by_cases hno : kv.noPropagate = true
    · rw [if_pos hno] at hcache
      simp only [hno, if_true] at hms
      exact ⟨_, Run.cons hcache hms⟩
    · rw [if_neg hno] at hcache
      have hmemc : Task.alone lib (w₀, .storing kv kvs) .memcWrite
          = some ({ w₀ with memc := (w₀.memc.put kv).1 }, .setting kvs) := rfl
      simp only [hno] at hms
      exact ⟨_, Run.cons hcache (Run.cons hmemc hms)⟩

theorem run_of_lookupKeys {ks : List Bytes} {m : KeyMap} (hm : ∀ e ∈ m, e.2 = {}) :
    ∀ {w w' : Stores} {m' : KeyMap} {keys missed : List Bytes},
      lookupKeys lib m w = .ok (w', m', keys) →
        ∃ ms, Run (StepOf (Task.alone lib)) (w, .getting ks (m.map Prod.fst) missed []) ms
          (w', .getting ks [] (missed ++ keys) []) := by
  induction m with
  | nil =>
    intro w w' m' keys missed h
    cases h
    rw [List.append_nil]
    exact ⟨[], Run.nil _⟩
  | cons e m ih =>
    intro w w' m' keys missed h
    obtain ⟨⟨w₁, hit, kv₁⟩, hget, h⟩ := bind_eq_ok.mp h
    obtain ⟨⟨w₂, m₂, keys₂⟩, hrest, h⟩ := bind_eq_ok.mp h
    cases h
    have hempty := hm e List.mem_cons_self
    have hlook : Task.alone lib (w, .getting ks (e.1 :: m.map Prod.fst) missed []) .lookup
        = some (w₁, .getting ks (m.map Prod.fst)
          (if hit then missed else missed ++ [lib.copyKey e.1]) []) := by
      rw [hempty] at hget
      simp only [Task.alone, Task.advance, hget]
      rfl
    have hm' : ∀ e' ∈ m, e'.2 = {} := fun e' he' ↦ hm e' (List.mem_cons_of_mem _ he')
    cases hit with
    | true =>
      obtain ⟨ms, hms⟩ := @ih hm' _ _ _ _ missed hrest
      exact ⟨_, Run.cons hlook hms⟩
    | false =>
      obtain ⟨ms, hms⟩ := @ih hm' _ _ _ _ (missed ++ [lib.copyKey e.1]) hrest
      rw [List.append_assoc] at hms
      exact ⟨_, Run.cons hlook hms⟩

theorem run_of_reads {ks : List Bytes} {w : Stores} {keys : List Bytes} :
    ∀ {fetched : List (Bytes × Item)}, ∃ ms,
      Run (StepOf (Task.alone lib)) (w, .getting ks [] keys fetched) ms
        (w, .getting ks [] [] (fetched ++ w.memc.mget keys)) := by
  induction keys with
  | nil =>
    intro fetched
    exact ⟨[], by rw [Store.mget, List.filterMap_nil, List.append_nil]; exact Run.nil _⟩
  | cons k keys ih =>
    intro fetched
    have hread : Task.alone lib (w, .getting ks [] (k :: keys) fetched) (.read k)
        = some (w, .getting ks [] keys
          (fetched ++ ((w.memc.lookup k).map fun it ↦ (k, it)).toList)) := by
      rw [Task.alone, Task.advance, if_pos List.mem_cons_self, List.erase_cons_head]
    obtain ⟨ms, hms⟩ := @ih (fetched ++ ((w.memc.lookup k).map fun it ↦ (k, it)).toList)
    have hmget : w.memc.mget (k :: keys)
        = ((w.memc.lookup k).map fun it ↦ (k, it)).toList ++ w.memc.mget keys := by
      rw [Store.mget, List.filterMap_cons]
      cases w.memc.lookup k <;> rfl
    rw [hmget, ← List.append_assoc]
    exact ⟨_, Run.cons hread hms⟩

theorem run_of_fillKeys {ks : List Bytes} {rs : List (Bytes × Item)} :
    ∀ {w w' : Stores} {m m' : KeyMap} {fetched : List (Bytes × Item)}, m.map Prod.fst = ks →
      fetched.Perm rs → fillKeys lib rs w m = .ok (w', m') →
        ∃ ms, Run (StepOf (Task.alone lib)) (w, .getting ks [] [] fetched) ms
          (w', .getting ks [] [] []) := by
  induction rs with
  | nil =>
    intro w w' m m' fetched _ hperm h
    cases h
    rw [hperm.eq_nil]
    exact ⟨[], Run.nil _⟩
  | cons r rs ih =>
    intro w w' m m' fetched hks hperm h
    obtain ⟨⟨w₁, m₁⟩, hfill, h⟩ := bind_eq_ok.mp h
    rw [fillKey] at hfill
    split at hfill
    · cases hfill
    · next kv hkv =>
      obtain ⟨w₂, hadd, hret⟩ := bind_eq_ok.mp hfill
      cases hret
      have hmem : r ∈ fetched := hperm.mem_iff.mpr List.mem_cons_self
      have hkey : r.1 ∈ ks := hks ▸ List.mem_map_of_mem (KeyMap.mem_of_lookup hkv)
      -- what is cached depends on the result, and not on the message it is put into
      have hadd' : w.cacheAdd r.1 (lib.fetched {} r.2) = .ok w₁ := by
        rw [← hadd]
        exact Stores.cacheAdd_congr rfl
      have hmove : Task.alone lib (w, .getting ks [] [] fetched) (.fill r)
          = some (w₁, .getting ks [] [] (fetched.erase r)) := by
        simp only [Task.alone, Task.advance, hmem, hkey, hadd']
        rfl
      have hperm' : (fetched.erase r).Perm rs := by
        have := hperm.erase r
        rwa [List.erase_cons_head] at this
      obtain ⟨ms, hms⟩ := ih ((m.map_fst_assign _ _).trans hks) hperm' h
      exact ⟨_, Run.cons hmove hms⟩

/-- **`GetKeys` is a sequence of moves**: the lookups, the reads, and the results as they arrive. -/
theorem run_of_getKeys_moves {w w' : Stores} {m m' : KeyMap} (hm : ∀ e ∈ m, e.2 = {})
    (h : getKeys lib w m = .ok (w', m')) : ∃ ms, Run (StepOf (Task.alone lib))
      (w, (Request.get (m.map Prod.fst)).start) ms (w', .getting (m.map Prod.fst) [] [] []) := by
  obtain ⟨⟨w₁, m₁, keys⟩, hlook, h⟩ := bind_eq_ok.mp h
  dsimp only at h
  obtain ⟨ms₁, hms₁⟩ := @run_of_lookupKeys lib (m.map Prod.fst) m hm _ _ _ _ [] hlook
  rw [List.nil_append] at hms₁
  by_cases hnil : keys = []
  · rw [if_pos hnil] at h
    cases h
    rw [hnil] at hms₁
    exact ⟨ms₁, hms₁⟩
  · rw [if_neg hnil] at h
    split_ifs at h
    have hfst : m₁.map Prod.fst = m.map Prod.fst := map_fst_lookupKeys hlook
    obtain ⟨ms₂, hms₂⟩ := @run_of_reads lib (m.map Prod.fst) w₁ keys []
    rw [List.nil_append] at hms₂
    obtain ⟨ms₃, hms₃⟩ := run_of_fillKeys hfst (lib.fetchOrder_perm _).symm h
    exact ⟨_, (hms₁.append hms₂).append hms₃⟩

/-! ## Schedules -/

/-- What a worker does that other workers can see: memcached gives it the result `r` for a GET, or
it writes the item of a SET to one of the stores. -/
inductive Access where
  | read (r : Bytes × Item)
  | cacheWrite (item : KeyValue)
  | memcWrite (item : KeyValue)
  deriving DecidableEq

/-- What the workers have done, the latest first. -/
abbrev Schedule := List (ℕ × Access)

namespace Schedule

/-- The SETs of a key that have written to the cache and not to memcached yet, each as its worker
and its value, the latest in the cache first. -/
def pending (k : Bytes) : Schedule → List (ℕ × Bytes)
  | [] => []
  | (_, .read _) :: l => pending k l
  | (i, .cacheWrite item) :: l =>
    if item.key = k then (i, item.val) :: pending k l else pending k l
  | (i, .memcWrite item) :: l =>
    if item.key = k then (pending k l).filter (·.1 ≠ i) else pending k l

/-- The values that SETs have written to memcached for a key since worker `i` read this there. -/
def writtenSince (i : ℕ) (r : Bytes × Item) : Schedule → List Bytes
  | [] => []
  | (j, .read r') :: l => if j = i ∧ r' = r then [] else writtenSince i r l
  | (_, .cacheWrite _) :: l => writtenSince i r l
  | (_, .memcWrite item) :: l =>
    if item.key = r.1 then item.val :: writtenSince i r l else writtenSince i r l

end Schedule

/-- What an action is to the other workers. -/
def System.access (s : System) : Action → Schedule
  | .move i (.read k) => ((s.memc.lookup k).map fun it ↦ (i, .read (k, it))).toList
  | .move i .cacheWrite =>
    match s.task i with
    | .setting (item :: _) => [(i, .cacheWrite item)]
    | _ => []
  | .move i .memcWrite =>
    match s.task i with
    | .storing item _ => [(i, .memcWrite item)]
    | _ => []
  | _ => []

/-- The system with its schedule. -/
structure Traced extends System where
  log : Schedule := []

/-- One step of the system, which is entered in the schedule. -/
def Traced.step (lib : Libmemcached) (s : Traced) (a : Action) : Option Traced :=
  (s.toSystem.step lib a).map fun s' ↦ ⟨s', s.access a ++ s.log⟩

/-- Every run has a schedule. -/
theorem exists_traced {s s' : System} {as : List Action}
    (h : Run (StepOf (System.step lib)) s as s') (log : Schedule) :
    ∃ log', Run (StepOf (Traced.step lib)) ⟨s, log⟩ as ⟨s', log'⟩ := by
  induction h with
  | nil => exact ⟨log, Run.nil _⟩
  | @snoc t u as a _ hstep ih =>
    obtain ⟨log', hrun⟩ := ih
    refine ⟨_, hrun.snoc (show Traced.step lib _ a = some ⟨u, t.access a ++ log'⟩ from ?_)⟩
    rw [Traced.step, show t.step lib a = some u from hstep]
    rfl

/-- It is a run of the system. -/
theorem Traced.run_system {s s' : Traced} {as : List Action}
    (h : Run (StepOf (Traced.step lib)) s as s') :
    Run (StepOf (System.step lib)) s.toSystem as s'.toSystem := by
  induction h with
  | nil => exact Run.nil _
  | snoc _ hstep ih =>
    obtain ⟨u, hsys, rfl⟩ := Option.map_eq_some_iff.mp hstep
    exact ih.snoc hsys

/-! ## Coherence -/

instance : DecidablePred KeyValue.PlainSet := fun kv ↦
  decidable_of_iff (kv.cas = 0 ∧ kv.allowReplace = true ∧ kv.noPropagate = false ∧
    kv.expireInSeconds = 0) ⟨fun ⟨h₁, h₂, h₃, h₄⟩ ↦ ⟨h₁, h₂, h₃, h₄⟩,
      fun ⟨h₁, h₂, h₃, h₄⟩ ↦ ⟨h₁, h₂, h₃, h₄⟩⟩

/-- GETs, and SETs of plain items. -/
def Request.Plain : Request → Prop
  | get _ => True
  | set items => ∀ kv ∈ items, kv.PlainSet
  | incr _ => False

instance : DecidablePred Request.Plain
  | .get _ => inferInstanceAs (Decidable True)
  | .set items => inferInstanceAs (Decidable (∀ kv ∈ items, kv.PlainSet))
  | .incr _ => inferInstanceAs (Decidable False)

/-- The rest of such a request. -/
def Task.Plain : Task → Prop
  | idle => True
  | getting _ _ _ _ => True
  | setting items => ∀ kv ∈ items, kv.PlainSet
  | storing item rest => ∀ kv ∈ item :: rest, kv.PlainSet
  | incring _ => False

theorem Task.Advance.plain {w w' : Stores} {t t' : Task} {m : Move}
    (h : t.Advance lib w m w' t') (ht : t.Plain) (hm : ∀ req, m = .begin req → req.Plain) :
    t'.Plain := by
  cases h with
  | begin req =>
    have hreq := hm req rfl
    cases req with
    | get keys => trivial
    | set items => exact hreq
    | incr items => exact hreq
  | lookup _ => trivial
  | read _ => trivial
  | fill _ _ _ => trivial
  | @cacheWrite item rest _ _ =>
    split_ifs
    · exact fun kv hkv ↦ ht kv (List.mem_cons_of_mem _ hkv)
    · exact ht
  | memcWrite => exact fun kv hkv ↦ ht kv (List.mem_cons_of_mem _ hkv)
  | incr => exact ht
  | finish _ => trivial

/-- What a GET of worker `i` stores in the cache is still the value: since it was read, no SET of
the key has written another value to memcached, and none of another value is between its two
writes. -/
def Schedule.StillHeld (log : Schedule) (i : ℕ) (r : Bytes × Item) : Prop :=
  (∀ v ∈ log.writtenSince i r, v = r.2.value) ∧ ∀ x ∈ log.pending r.1, x.2 = r.2.value

/-- When worker `i` writes the item of a SET to memcached, and this SET was the last to write the
key to the cache, no other SET of the key with another value has still to write to memcached. -/
def Schedule.InOrder (log : Schedule) (i : ℕ) : Task → Prop
  | .storing item _ => (log.pending item.key).head?.map Prod.fst = some i →
      ∀ x ∈ log.pending item.key, x.2 = item.val
  | _ => True

/-- The condition on the schedule: there are only GETs and plain SETs, and where they overlap, they
leave the same value in both stores. -/
def Undisturbed (s : Traced) : Action → Prop
  | .move _ (.begin req) => req.Plain
  | .move i (.fill r) => s.log.StillHeld i r
  | .move i .memcWrite => s.log.InOrder i (s.task i)
  | _ => True

instance (log : Schedule) (i : ℕ) : DecidablePred (log.InOrder i)
  | .storing _ _ => inferInstanceAs (Decidable (_ → _))
  | .idle | .getting _ _ _ _ | .setting _ | .incring _ => inferInstanceAs (Decidable True)

instance (s : Traced) : DecidablePred (Undisturbed s)
  | .move _ (.begin req) => inferInstanceAs (Decidable req.Plain)
  | .move _ (.fill _) => inferInstanceAs (Decidable (_ ∧ _))
  | .move i .memcWrite => inferInstanceAs (Decidable (s.log.InOrder i (s.task i)))
  | .move _ .lookup | .move _ (.read _) | .move _ .cacheWrite | .move _ .incr | .move _ .finish
  | .tick _ => inferInstanceAs (Decidable True)

/-- A worker is between the two writes of a SET of this key and value. -/
def Task.Storing (k v : Bytes) : Task → Prop
  | storing item _ => item.key = k ∧ item.val = v
  | _ => False

/-- No item expires. -/
def Store.Lasting (s : Store) : Prop := ∀ k it, s.items k = some it → it.exptime = none

theorem Store.Lasting.held_tick {s : Store} (h : s.Lasting) (n : ℕ) (k : Bytes) :
    (s.tick n).held k = s.held k := by
  have hlookup : (s.tick n).lookup k = s.lookup k := by
    rw [lookup, lookup, tick]
    change (s.items k).filter _ = _
    rcases hit : s.items k with _ | it
    · rfl
    · rw [Option.filter_some, Option.filter_some, h k it hit]
      rfl
  rw [held, held, hlookup]

theorem Store.Lasting.put {s : Store} (h : s.Lasting) {kv : KeyValue} (hkv : kv.PlainSet) :
    (s.put kv).1.Lasting := by
  have hput : (s.put kv).1 = s.write kv.key kv.val kv.flags none := by
    rw [Store.put, if_neg (by simp [hkv.cas]), if_neg (by simp [hkv.allowReplace]), Store.set,
      hkv.expire]
    rfl
  intro k it hit
  rw [hput] at hit
  by_cases hk : k = kv.key
  · subst hk
    rw [Store.items_write_self] at hit
    obtain rfl := Option.some.inj hit
    rfl
  · rw [Store.items_write_of_ne hk] at hit
    exact h k it hit

/-- The value that memcached holds. -/
def Store.value (s : Store) (k : Bytes) : Option Bytes := (s.held k).map Prod.fst

theorem Store.value_of_lookup {s : Store} {k : Bytes} {it : Item} (h : s.lookup k = some it) :
    s.value k = some it.value := by
  rw [value, held, h]
  rfl

namespace Traced

/-- The value that memcached holds when the SETs under way have written to it. -/
def expected (s : Traced) (k : Bytes) : Option Bytes :=
  ((s.log.pending k).head?.map Prod.snd).or (s.memc.value k)

/-- The invariant of an undisturbed run. The cache has what memcached holds, or will hold, and what
a GET has read is what memcached holds if no SET has written anything else since. -/
structure Coherent (s : Traced) : Prop where
  wf : s.CacheWF
  plain : ∀ i, (s.task i).Plain
  lasting : s.memc.Lasting
  pending : ∀ k i v, (i, v) ∈ s.log.pending k ↔ (s.task i).Storing k v
  cached : LossyMap.Forall (fun k d ↦ s.expected k = some d.value) s.view
  logged : ∀ i keys todo missed fetched, s.task i = .getting keys todo missed fetched →
    ∀ r ∈ fetched, (i, .read r) ∈ s.log
  read : ∀ i r, (i, .read r) ∈ s.log → (∀ v ∈ s.log.writtenSince i r, v = r.2.value) →
    s.memc.value r.1 = some r.2.value

variable {s : Traced} {k v : Bytes} {i : ℕ}

theorem coherent_init {w : Stores} (hwf : w.CacheWF) (hview : w.view = fun _ ↦ none)
    (hlasting : w.memc.Lasting) : Coherent ⟨.init w, []⟩ where
  wf := hwf
  plain _ := trivial
  lasting := hlasting
  pending k i v := ⟨fun h ↦ absurd h List.not_mem_nil, False.elim⟩
  cached := by
    intro k d hd
    have hnone : w.view k = none := by rw [hview]
    exact absurd (hnone.symm.trans hd) (by simp)
  logged i keys todo missed fetched h := by cases h
  read i r h := absurd h List.not_mem_nil

/-- A task that is not between the two writes of a SET is replaced by another such one. -/
theorem storing_update {t : Task} (ht : ∀ k v, ¬t.Storing k v)
    (hi : ∀ k v, ¬(s.task i).Storing k v) (j : ℕ) (k v : Bytes) :
    (Function.update s.task i t j).Storing k v ↔ (s.task j).Storing k v := by
  by_cases hj : j = i
  · subst hj
    rw [Function.update_self]
    exact iff_of_false (ht k v) (hi k v)
  · rw [Function.update_of_ne hj]

theorem Coherent.plain_update (hs : s.Coherent) {t : Task} (ht : t.Plain) (j : ℕ) :
    (Function.update s.task i t j).Plain := by
  rw [Function.update_apply]
  split_ifs
  · exact ht
  · exact hs.plain j

/-- What a worker has read stays in the schedule. -/
theorem Coherent.logged_update (hs : s.Coherent) {t : Task} {log : Schedule}
    (hlog : ∀ x ∈ s.log, x ∈ log)
    (ht : ∀ keys todo missed fetched, t = .getting keys todo missed fetched →
      ∀ r ∈ fetched, (i, .read r) ∈ log) (j : ℕ) (keys todo missed : List Bytes)
    (fetched : List (Bytes × Item))
    (hj : Function.update s.task i t j = .getting keys todo missed fetched) :
    ∀ r ∈ fetched, (j, .read r) ∈ log := by
  rw [Function.update_apply] at hj
  split_ifs at hj with hji
  · subst hji
    exact ht _ _ _ _ hj
  · exact fun r hr ↦ hlog _ (hs.logged j _ _ _ _ hj r hr)

/-- **Nothing happens that others can see.** -/
theorem Coherent.move (hs : s.Coherent) {w : Stores} {t : Task} (hwf : w.CacheWF)
    (hmemc : w.memc = s.memc) (hview : w.view = s.view) (hplain : t.Plain)
    (ht : ∀ k v, ¬t.Storing k v) (hi : ∀ k v, ¬(s.task i).Storing k v)
    (hlogged : ∀ keys todo missed fetched, t = .getting keys todo missed fetched →
      ∀ r ∈ fetched, (i, .read r) ∈ s.log) :
    Coherent ⟨⟨w, Function.update s.task i t⟩, s.log⟩ := by
  obtain ⟨cache, memc⟩ := w
  obtain rfl : memc = s.memc := hmemc
  refine ⟨hwf, hs.plain_update hplain, hs.lasting, fun k j v ↦ ?_, ?_, ?_, hs.read⟩
  · rw [storing_update ht hi]
    exact hs.pending k j v
  · intro k d hd
    exact hs.cached k d (hview ▸ hd)
  · exact hs.logged_update (fun _ ↦ id) hlogged

/-- **A worker reads from memcached.** -/
theorem Coherent.read_step (hs : s.Coherent) {keys missed : List Bytes}
    {fetched : List (Bytes × Item)} (htask : s.task i = .getting keys [] missed fetched)
    (k : Bytes) : Coherent ⟨⟨s.toStores, Function.update s.task i (.getting keys []
      (missed.erase k) (fetched ++ ((s.memc.lookup k).map fun it ↦ (k, it)).toList))⟩,
      ((s.memc.lookup k).map fun it ↦ (i, .read (k, it))).toList ++ s.log⟩ := by
  have hi : ∀ k v, ¬(s.task i).Storing k v := by
    rw [htask]
    exact fun _ _ ↦ id
  have hold := hs.logged i _ _ _ _ htask
  rcases hlook : s.memc.lookup k with _ | it
  · refine hs.move hs.wf rfl rfl trivial (fun _ _ ↦ id) hi ?_
    rintro _ _ _ _ ⟨⟩ r hr
    exact hold r ((List.append_nil fetched) ▸ hr)
  · refine ⟨hs.wf, hs.plain_update trivial, hs.lasting, fun k j v ↦ ?_, hs.cached, ?_, ?_⟩
    · rw [storing_update (fun _ _ ↦ id) hi]
      exact hs.pending k j v
    · refine hs.logged_update (fun _ ↦ List.mem_cons_of_mem _) ?_
      rintro _ _ _ _ ⟨⟩ r hr
      rcases List.mem_append.mp hr with hr | hr
      · exact List.mem_cons_of_mem _ (hold r hr)
      · obtain rfl := List.mem_singleton.mp hr
        exact List.mem_cons_self
    · intro j r hr hsince
      change ∀ v ∈ (if i = j ∧ (k, it) = r then [] else s.log.writtenSince j r), _ at hsince
      -- this read is of now, and the others are as old as they were
      split_ifs at hsince with hsame
      · obtain ⟨rfl, rfl⟩ := hsame
        exact Store.value_of_lookup hlook
      · refine hs.read j r ((List.mem_cons.mp hr).resolve_left ?_) hsince
        simpa [eq_comm] using hsame

/-- **A worker stores in the cache what it has read.** -/
theorem Coherent.fill (hs : s.Coherent) {keys missed : List Bytes}
    {fetched : List (Bytes × Item)} {r : Bytes × Item} {w : Stores}
    (htask : s.task i = .getting keys [] missed fetched) (hr : r ∈ fetched)
    (hadd : s.cacheAdd r.1 (lib.fetched {} r.2) = .ok w) (hheld : s.log.StillHeld i r) :
    Coherent ⟨⟨w, Function.update s.task i (.getting keys [] missed (fetched.erase r))⟩,
      s.log⟩ := by
  have hi : ∀ k v, ¬(s.task i).Storing k v := by
    rw [htask]
    exact fun _ _ ↦ id
  obtain ⟨hwf, hmemc, hput⟩ := hs.wf.cacheAdd hadd
  obtain ⟨cache, memc⟩ := w
  obtain rfl : memc = s.memc := hmemc
  have hold := hs.logged i _ _ _ _ htask
  -- the SETs under way will leave this value, and without one memcached still has it
  have hexpected : s.expected r.1 = some r.2.value := by
    rw [expected]
    rcases hpending : s.log.pending r.1 with _ | ⟨x, xs⟩
    · exact hs.read i r (hold r hr) hheld.1
    · exact congrArg some (hheld.2 x (hpending ▸ List.mem_cons_self))
  refine ⟨hwf, hs.plain_update trivial, hs.lasting, fun k j v ↦ ?_, ?_, ?_, hs.read⟩
  · rw [storing_update (fun _ _ ↦ id) hi]
    exact hs.pending k j v
  · refine LossyMap.Forall.put hs.cached hput (fun _ _ _ hd ↦ hd) fun d hd ↦ ?_
    obtain ⟨-, rfl⟩ := Stores.stored_eq_some hd
    exact hexpected
  · refine hs.logged_update (fun _ ↦ id) ?_
    rintro _ _ _ _ ⟨⟩ r' hr'
    exact hold r' (List.mem_of_mem_erase hr')

/-- **A SET writes to the cache.** -/
theorem Coherent.cacheWrite (hs : s.Coherent) {item : KeyValue} {rest : List KeyValue} {w : Stores}
    (htask : s.task i = .setting (item :: rest)) (hadd : s.cacheAdd item.key item = .ok w) :
    Coherent ⟨⟨w, Function.update s.task i (.storing item rest)⟩,
      (i, .cacheWrite item) :: s.log⟩ := by
  obtain ⟨hwf, hmemc, hput⟩ := hs.wf.cacheAdd hadd
  obtain ⟨cache, memc⟩ := w
  obtain rfl : memc = s.memc := hmemc
  have hpending (k : Bytes) : Schedule.pending k ((i, .cacheWrite item) :: s.log) =
      if item.key = k then (i, item.val) :: s.log.pending k else s.log.pending k := rfl
  have hplain := hs.plain i
  rw [htask] at hplain
  refine ⟨hwf, hs.plain_update hplain, hs.lasting, fun k j v ↦ ?_, ?_, ?_, fun j r hr ↦ ?_⟩
  · change _ ↔ (Function.update s.task i (.storing item rest) j).Storing k v
    rw [hpending]
    have hnot : (i, v) ∉ s.log.pending k := by
      rw [hs.pending, htask]
      exact id
    by_cases hji : j = i
    · subst hji
      rw [Function.update_self]
      by_cases hk : item.key = k
      · rw [if_pos hk, List.mem_cons, or_iff_left hnot, Prod.mk.injEq, and_iff_right rfl]
        exact ⟨fun hv ↦ ⟨hk, hv.symm⟩, fun hv ↦ hv.2.symm⟩
      · rw [if_neg hk]
        exact iff_of_false hnot fun h ↦ hk h.1
    · rw [Function.update_of_ne hji, ← hs.pending]
      split_ifs
      · rw [List.mem_cons, or_iff_right fun h ↦ hji (Prod.mk.inj h).1]
      · rfl
  · refine LossyMap.Forall.put hs.cached hput (fun k hk d hd ↦ ?_) fun d hd ↦ ?_
    · rw [← hd, expected, expected, hpending, if_neg hk.symm]
    · obtain ⟨-, rfl⟩ := Stores.stored_eq_some hd
      rw [expected, hpending, if_pos rfl]
      rfl
  · refine hs.logged_update (fun _ ↦ List.mem_cons_of_mem _) ?_
    rintro _ _ _ _ ⟨⟩
  · exact hs.read j r ((List.mem_cons.mp hr).resolve_left (by simp))

/-- **A SET writes to memcached.** -/
theorem Coherent.memcWrite (hs : s.Coherent) {item : KeyValue} {rest : List KeyValue}
    (htask : s.task i = .storing item rest) (horder : s.log.InOrder i (.storing item rest)) :
    Coherent ⟨⟨{ s.toStores with memc := (s.memc.put item).1 },
      Function.update s.task i (.setting rest)⟩, (i, .memcWrite item) :: s.log⟩ := by
  have hplain : ∀ kv ∈ item :: rest, kv.PlainSet := by
    have hplain := hs.plain i
    rwa [htask] at hplain
  have hitem : item.PlainSet := hplain item List.mem_cons_self
  have hself : (s.memc.put item).1.value item.key = some item.val := by
    rw [Store.value, Store.held_put_of_plainSet hitem]
    rfl
  have hother {k : Bytes} (hk : k ≠ item.key) : (s.memc.put item).1.value k = s.memc.value k :=
    congrArg (Option.map Prod.fst) ((s.memc.writesAt_put item).held_of_ne hk)
  have hpending (k : Bytes) : Schedule.pending k ((i, .memcWrite item) :: s.log) =
      if item.key = k then (s.log.pending k).filter (·.1 ≠ i) else s.log.pending k := rfl
  refine ⟨hs.wf, hs.plain_update fun kv hkv ↦ hplain kv (List.mem_cons_of_mem _ hkv),
    hs.lasting.put hitem, fun k j v ↦ ?_, fun k d hd ↦ ?_, ?_, fun j r hr hsince ↦ ?_⟩
  · change _ ↔ (Function.update s.task i (.setting rest) j).Storing k v
    rw [hpending]
    by_cases hji : j = i
    · subst hji
      rw [Function.update_self]
      refine iff_of_false ?_ id
      split_ifs with hk
      · simp
      · rw [hs.pending, htask]
        exact fun h ↦ hk h.1
    · rw [Function.update_of_ne hji, ← hs.pending]
      split_ifs <;> simp [hji]
  · have hd : s.expected k = some d.value := hs.cached k d hd
    rw [expected] at hd
    change Traced.expected _ k = some d.value
    rw [expected, hpending]
    by_cases hk : item.key = k
    · subst hk
      rw [if_pos rfl]
      have hmem : (i, item.val) ∈ s.log.pending item.key := by
        rw [hs.pending, htask]
        exact ⟨rfl, rfl⟩
      -- either this SET was the last in the cache, or the one that was stays pending
      rcases hlog : s.log.pending item.key with _ | ⟨⟨j, v⟩, xs⟩
      · rw [hlog] at hmem
        cases hmem
      · rw [hlog] at hd
        obtain rfl : v = d.value := Option.some.inj hd
        by_cases hji : j = i
        · subst hji
          have hsame : ∀ x ∈ (j, d.value) :: xs, x.2 = item.val := by
            rw [← hlog]
            exact horder (by rw [hlog]; rfl)
          have hval : d.value = item.val := hsame _ List.mem_cons_self
          rcases hrest : ((j, d.value) :: xs).filter (·.1 ≠ j) with _ | ⟨x, _⟩
          · rw [hrest]
            exact hself.trans (congrArg some hval.symm)
          · have hx : x ∈ ((j, d.value) :: xs).filter (·.1 ≠ j) := hrest ▸ List.mem_cons_self
            rw [hrest]
            exact congrArg some ((hsame x (List.mem_of_mem_filter hx)).trans hval.symm)
        · rw [List.filter_cons_of_pos (by simpa using hji)]
          rfl
    · rw [if_neg hk]
      rcases hlog : s.log.pending k with _ | ⟨x, xs⟩
      · rw [hlog] at hd
        exact (hother (Ne.symm hk)).trans hd
      · rw [hlog] at hd
        exact hd
  · refine hs.logged_update (fun _ ↦ List.mem_cons_of_mem _) ?_
    rintro _ _ _ _ ⟨⟩
  · have hr : (j, .read r) ∈ s.log := (List.mem_cons.mp hr).resolve_left (by simp)
    change ∀ v ∈ (if item.key = r.1 then item.val :: s.log.writtenSince j r
      else s.log.writtenSince j r), _ at hsince
    -- a read from before this write is current only if it has read what is written
    split_ifs at hsince with hk
    · refine hk ▸ hself.trans (congrArg some ?_)
      exact hsince _ List.mem_cons_self
    · exact (hother (Ne.symm hk)).trans (hs.read j r hr hsince)

/-- **Time passes.** -/
theorem Coherent.tick (hs : s.Coherent) (n : ℕ) :
    Coherent ⟨{ s.toSystem with memc := s.memc.tick n }, s.log⟩ := by
  have hvalue (k : Bytes) : (s.memc.tick n).value k = s.memc.value k :=
    congrArg (Option.map Prod.fst) (hs.lasting.held_tick n k)
  refine ⟨hs.wf, hs.plain, hs.lasting, hs.pending, fun k d hd ↦ ?_, hs.logged,
    fun j r hr hsince ↦ ?_⟩
  · have hd : s.expected k = some d.value := hs.cached k d hd
    rwa [expected, ← hvalue] at hd
  · exact (hvalue r.1).trans (hs.read j r hr hsince)

/-- **One undisturbed step keeps the cache coherent.** -/
theorem Coherent.step (hs : s.Coherent) {s' : Traced} {a : Action}
    (hstep : s.step lib a = some s') (ha : Undisturbed s a) : s'.Coherent := by
  obtain ⟨u, hsys, rfl⟩ := Option.map_eq_some_iff.mp hstep
  rcases System.step_cases hsys with ⟨i, m, w, t, rfl, hmove, rfl⟩ | ⟨n, rfl, rfl⟩
  · have hplain : t.Plain := by
      refine hmove.plain (hs.plain i) ?_
      rintro req rfl
      exact ha
    generalize htask : s.task i = t₀ at hmove
    have hi (h : ∀ k v, ¬t₀.Storing k v) : ∀ k v, ¬(s.task i).Storing k v := htask ▸ h
    cases hmove with
    | begin req =>
      refine hs.move hs.wf rfl rfl hplain ?_ (hi fun _ _ ↦ id) ?_
      · cases req <;> exact fun _ _ ↦ id
      · rintro _ _ _ _ ht r hr
        cases req <;> cases ht
        cases hr
    | lookup hget =>
      obtain ⟨hwf, hmemc, hview, -⟩ := hs.wf.cacheGet hget
      refine hs.move hwf hmemc hview hplain (fun _ _ ↦ id) (hi fun _ _ ↦ id) ?_
      rintro _ _ _ _ ⟨⟩
      exact hs.logged i _ _ _ _ htask
    | read _ => exact hs.read_step htask _
    | fill hr _ hadd => exact hs.fill htask hr hadd ha
    | @cacheWrite item rest _ hadd =>
      have hitem : item.PlainSet := by
        have hplain₀ := hs.plain i
        rw [htask] at hplain₀
        exact hplain₀ item List.mem_cons_self
      have hlog : s.access (.move i .cacheWrite) = [(i, .cacheWrite item)] := by
        rw [System.access, htask]
      rw [hlog, if_neg (by simp [hitem.noPropagate])]
      exact hs.cacheWrite htask hadd
    | @memcWrite item rest =>
      have hlog : s.access (.move i .memcWrite) = [(i, .memcWrite item)] := by
        rw [System.access, htask]
      rw [hlog]
      refine hs.memcWrite htask ?_
      have ha : s.log.InOrder i (s.task i) := ha
      rwa [htask] at ha
    | incr => exact hplain.elim
    | finish hne =>
      refine hs.move hs.wf rfl rfl trivial (fun _ _ ↦ id) (hi fun k v hst ↦ ?_) ?_
      · cases t₀ with
        | storing item rest => exact hne item rest rfl
        | _ => exact hst
      · rintro _ _ _ _ ⟨⟩
  · exact hs.tick n

end Traced

/-- **An undisturbed run leaves a coherent cache.** For any number of workers and any interleaving
of GETs and plain SETs that disturb each other in neither way, and with a memcached where nothing
expires, the value that a lookup would return for a key is the one that memcached holds, whenever no
request is in flight. -/
theorem cache_coherent_of_undisturbed (lib : Libmemcached) (capacity : UInt64)
    (strHash : Bytes → ℕ) {memc : Store} (hmemc : memc.Lasting) {as : List Action} {s : Traced}
    (hrun : Run (Guarded (StepOf (Traced.step lib)) Undisturbed)
      ⟨.init ⟨some (Cache.new capacity strHash), memc⟩, []⟩ as s)
    (hquiet : s.Quiescent) (k : Bytes) (d : Data) (hd : s.view k = some d) :
    s.memc.value k = some d.value := by
  have hinit := Traced.coherent_init (w := ⟨some (Cache.new capacity strHash), memc⟩)
    (Stores.cacheWF_new capacity strHash memc) rfl hmemc
  have hs := hrun.invariant hinit fun _ _ _ hs hstep ↦ hs.step hstep.1 hstep.2
  have hnone : s.log.pending k = [] := by
    refine List.eq_nil_iff_forall_not_mem.mpr fun x hx ↦ ?_
    have hstoring := (hs.pending k x.1 x.2).mp hx
    rw [hquiet] at hstoring
    exact hstoring
  have hcached : s.expected k = some d.value := hs.cached k d hd
  rwa [Traced.expected, hnone] at hcached

/-- A worker that does not move stays where it is. -/
theorem System.task_of_run {s s' : System} {as : List Action}
    (h : Run (StepOf (System.step lib)) s as s') {j : ℕ} (hj : ∀ m, Action.move j m ∉ as) :
    s'.task j = s.task j := by
  induction h with
  | nil => rfl
  | snoc _ hstep ih =>
    have hj' := ih fun m hm ↦ hj m (List.mem_append_left _ hm)
    rcases System.step_cases hstep with ⟨i, m, w, t, rfl, -, rfl⟩ | ⟨n, rfl, rfl⟩
    · have hji : j ≠ i := by
        rintro rfl
        exact hj m (by simp)
      exact (Function.update_of_ne hji _ _).trans hj'
    · exact hj'

/-- The values that a lookup would return and that memcached holds, and two of the tasks. -/
def System.snapshot (s : System) : Option Bytes × Option Bytes × Task × Task :=
  ((s.view [107]).map Data.value, (s.memc.held [107]).map Prod.fst, s.task 0, s.task 1)

/-- Memcached with the value `0` for the key `k`, and an empty cache. -/
def oldStores : Stores := ⟨some (Cache.new 0 fun _ ↦ 0), ({} : Store).write [107] [48] 0 none⟩

/-- Worker `0` gets the key `k`, as far as the read from memcached. -/
def readOld : List Action :=
  [.move 0 (.begin (.get [[107]])), .move 0 .lookup, .move 0 (.read [107])]

/-- Worker `0` stores what it read. -/
def fillOld : List Action := [.move 0 (.fill ([107], ⟨[48], 0, 1, none⟩)), .move 0 .finish]

/-- Worker `1` sets the key `k` to `1`. -/
def setNew : List Action :=
  [.move 1 (.begin (.set [setOne])), .move 1 .cacheWrite, .move 1 .memcWrite, .move 1 .finish]

/-- The key is set to `2`. -/
def setNewer : KeyValue := { key? := some [107], val? := some [50] }

/-- Worker `0` gets the key. While it does, the workers `1` and `2` set it, both in the cache and
then both in memcached. Worker `0` reads the second value, and stores it in the cache. -/
def overlapping : List Action :=
  [.move 0 (.begin (.get [[107]])), .move 0 .lookup, .move 1 (.begin (.set [setOne])),
    .move 2 (.begin (.set [setNewer])), .move 1 .cacheWrite, .move 2 .cacheWrite,
    .move 1 .memcWrite, .move 2 .memcWrite, .move 0 (.read [107]), .move 1 .finish,
    .move 0 (.fill ([107], ⟨[50], 0, 3, none⟩)), .move 0 .finish, .move 2 .finish]

theorem cache_coherent_of_undisturbed_overlapping : ∃ s : System,
    Run (StepOf (System.step .inOrder)) (.init oldStores) overlapping s ∧ s.Quiescent ∧
      ∃ d, s.view [107] = some d ∧ d.value = [50] ∧ s.memc.value [107] = some d.value := by
  have hcheck : ∀ s a, decide (Undisturbed s a) = true → Undisturbed s a :=
    fun _ _ ↦ of_decide_eq_true
  obtain ⟨s, hrun, hsnap⟩ := exists_run_of_execChecked hcheck
    (f := fun s : Traced ↦ ((s.view [107]).map Data.value, s.task 0, s.task 1, s.task 2))
    (show (execChecked (Traced.step .inOrder) _ ⟨.init oldStores, []⟩ overlapping).map _ =
      some (some [50], .idle, .idle, .idle) by decide +kernel)
  obtain ⟨hview, hidle₀, hidle₁, hidle₂⟩ := by simpa only [Prod.mk.injEq] using hsnap
  have hsys := Traced.run_system hrun.of_guarded
  have hquiet : s.Quiescent := by
    intro i
    by_cases hi : i = 0 ∨ i = 1 ∨ i = 2
    · rcases hi with rfl | rfl | rfl
      · exact hidle₀
      · exact hidle₁
      · exact hidle₂
    · obtain ⟨h₀, h₁, h₂⟩ := not_or.mp hi |>.imp_right not_or.mp
      exact System.task_of_run hsys (by simp [overlapping, h₀, h₁, h₂])
  have hlasting : oldStores.memc.Lasting := by
    have hempty : Store.Lasting {} := fun _ _ h ↦ by cases h
    have hplain : KeyValue.PlainSet { key? := some [107], val? := some [48] } :=
      ⟨rfl, rfl, rfl, rfl⟩
    exact hempty.put hplain
  obtain ⟨d, hd, hvalue⟩ := Option.map_eq_some_iff.mp hview
  exact ⟨s.toSystem, hsys, hquiet, d, hd, hvalue,
    cache_coherent_of_undisturbed .inOrder 0 (fun _ ↦ 0) hlasting hrun hquiet [107] d hd⟩

/-- A value that was read before a SET is stored in the cache after it, and stays there: the cache
answers `0` where memcached holds `1`, and no request is in flight. -/
theorem cache_incoherent_after_fill : ∃ s : System,
    Run (StepOf (System.step .inOrder)) (.init oldStores) (readOld ++ setNew ++ fillOld) s ∧
      s.Quiescent ∧ (s.view [107]).map Data.value = some [48] ∧
      (s.memc.held [107]).map Prod.fst = some [49] := by
  obtain ⟨s, hrun, hsnap⟩ := exists_run_of_exec (show (exec (System.step .inOrder)
    (.init oldStores) (readOld ++ setNew ++ fillOld)).map System.snapshot
      = some (some [48], some [49], .idle, .idle) by decide +kernel)
  obtain ⟨hview, hheld, hidle₀, hidle₁⟩ := by
    simpa only [System.snapshot, Prod.mk.injEq] using hsnap
  refine ⟨s, hrun, ?_, hview, hheld⟩
  intro i
  by_cases hi₀ : i = 0
  · rw [hi₀, hidle₀]
  · by_cases hi₁ : i = 1
    · rw [hi₁, hidle₁]
    · exact System.task_of_run hrun (by simp [readOld, setNew, fillOld, hi₀, hi₁])

end MemcacheRouter
