import Mathlib.Data.Fintype.Basic
import MemcacheRouter.Cache.Latest
import MemcacheRouter.Foundations.Locking

/-!
# The cache is thread safe

Any number of threads call `AddOrReplace` and `Get` at the same time. A call takes the mutex of the
bucket of its key and then runs its statements one by one, and between any two of them the other
threads run theirs; a turn of the eviction loop and a call of `FindOrInsertData` are one statement
each. The counters are atomics and have no mutex.

Every such execution has the results and leaves the buckets of the calls made one after the other,
in the order in which they release their mutex, and no lookup is counted twice or not at all.
-/

open Transition

namespace MemcacheRouter

/-- `hits_` and `miss_`. -/
structure Counters where
  hits : ℕ := 0
  miss : ℕ := 0
  deriving DecidableEq, Repr

/-- The next statement of a call. The iterator or the pointer a call keeps is the identity of a
node. -/
inductive Statement where
  | check
  | evict (target : ℕ)
  | find
  | subtract (id : ℕ)
  | setKey (id : ℕ)
  | setValue (id : ℕ)
  | setFlags (id : ℕ)
  | setCas (id : ℕ)
  | add (id : ℕ)
  | test (id : ℕ)
  | countMiss
  | countHit (id : ℕ)
  | fillVal (id : ℕ)
  | fillFlags (id : ℕ) (kv : KeyValue)
  | fillCas (id : ℕ) (kv : KeyValue)

namespace Bucket

/-- Change the entry behind a pointer. -/
def modify (b : Bucket) (id : ℕ) (f : Data → Data) : Option Bucket :=
  (b.node? id).map fun n ↦ b.write id (f n.data)

end Bucket

namespace Cache

/-- What a call returns: nothing, or whether it hit and the message it filled in. -/
abbrev Outcome := Option (Bool × KeyValue)

/-- The statements of `AddOrReplace`. -/
def addStatement (threshold decreaseBy : ℕ) (k : Bytes) (kv : KeyValue) (b : Bucket) :
    Statement → Option (Bucket × (Statement ⊕ Outcome))
  | .check =>
    if threshold < b.memory then some (b, .inl (.evict (toUInt64 (b.memory - decreaseBy))))
    else some (b, .inl .find)
  | .evict target =>
    match b.accessList with
    | [] => some (b, .inl .find)
    | n :: rest =>
      if (b.eraseFront n rest).memory < target then some (b.eraseFront n rest, .inl .find)
      else some (b.eraseFront n rest, .inl (.evict target))
  | .find =>
    match b.findOrInsertData k with
    | .error _ => none
    | .ok (b', n) => some (b', .inl (.subtract n.id))
  | .subtract id => (b.node? id).map fun n ↦
      ({ b with memory := toUInt64 (b.memory - n.data.used) }, .inl (.setKey id))
  | .setKey id => (b.modify id fun d ↦ { d with key := k }).map (·, .inl (.setValue id))
  | .setValue id => (b.modify id fun d ↦ { d with value := kv.val }).map (·, .inl (.setFlags id))
  | .setFlags id => (b.modify id fun d ↦ { d with flags := kv.flags }).map (·, .inl (.setCas id))
  | .setCas id => (b.modify id fun d ↦ { d with cas := kv.cas }).map (·, .inl (.add id))
  | .add id => (b.node? id).map fun n ↦
      ({ b with memory := toUInt64 (b.memory + n.data.used) }, .inr none)
  | _ => none

/-- The statements of `Get`. -/
def getStatement (k : Bytes) (kv : KeyValue) (b : Bucket) :
    Statement → Option (Bucket × (Counters → Counters) × (Statement ⊕ Outcome))
  | .find =>
    match b.findOrInsertData k with
    | .error _ => none
    | .ok (b', n) => some (b', id, .inl (.test n.id))
  | .test i => (b.node? i).map fun n ↦
      (b, id, .inl (if n.data.value = [] then .countMiss else .countHit i))
  | .countMiss =>
    some (b, fun c ↦ { c with miss := (c.miss + 1) % 2 ^ 64 }, .inr (some (false, kv)))
  | .countHit i =>
    some (b, fun c ↦ { c with hits := (c.hits + 1) % 2 ^ 64 }, .inl (.fillVal i))
  | .fillVal i => (b.node? i).map fun n ↦
      (b, id, .inl (.fillFlags i { kv with val? := some n.data.value }))
  | .fillFlags i kv' => (b.node? i).map fun n ↦
      (b, id, .inl (.fillCas i { kv' with flags? := some n.data.flags }))
  | .fillCas i kv' => (b.node? i).map fun n ↦
      (b, id, .inr (some (true, { kv' with cas? := some n.data.cas })))
  | _ => none

/-- The buckets behind their mutexes. -/
def objects (c : Cache) :
    Locking.Objects (Fin kNumBuckets) Bucket Counters Call Statement Outcome where
  target op := c.getIndex op.key
  entry
    | .addOrReplace _ _ => .check
    | .get _ _ => .find
  statement op loc b :=
    match op with
    | .addOrReplace k kv =>
      (addStatement c.threshold c.decreaseBy k kv b loc).map fun r ↦ (r.1, id, r.2)
    | .get k kv => getStatement k kv b loc

/-- The cache with its threads. -/
abbrev Shared (T : Type) :=
  Locking.State (Fin kNumBuckets) T Bucket Counters Call Statement Outcome

/-- Nobody has called anything yet. -/
def Shared.init (T : Type) (capacity : UInt64) (strHash : Bytes → ℕ) : Shared T where
  objects := (new capacity strHash).buckets
  free := {}

/-- A call as one step, with what it returns. -/
def callResult (c : Cache) : Call → Except Fault (Cache × Outcome)
  | .addOrReplace k kv => (c.addOrReplace k kv).map (·, none)
  | .get k kv => (c.get k kv).map fun r ↦ (r.1, some r.2)

/-- One call after the other, with what each returns. -/
def Returns (c : Cache) (r : Call × Outcome) (c' : Cache) : Prop := c.callResult r.1 = .ok (c', r.2)

/-! ## One call, statement by statement -/

end Cache

namespace Bucket

variable {b y z : Bucket} {k : Bytes} {kv : KeyValue} {n : Node} {id : ℕ} {d : Data}

theorem node?_write (h : b.node? id = some n) (d : Data) :
    (b.write id d).node? id = some ⟨id, d⟩ := by
  have hid : ((fun m : Node ↦ m.id == id) ∘ fun m : Node ↦ if m.id = id then ⟨m.id, d⟩ else m)
      = fun m ↦ m.id == id := by
    funext m
    simp only [Function.comp_apply]
    split_ifs <;> rfl
  obtain ⟨-, hn⟩ := mem_of_node? h
  rw [node?] at h
  rw [node?, write, List.find?_map, hid, h, Option.map_some, if_pos hn, hn]

theorem write_write (b : Bucket) (id : ℕ) (d d' : Data) :
    (b.write id d).write id d' = b.write id d' := by
  simp only [write, List.map_map]
  congr 1
  refine List.map_congr_left fun m _ ↦ ?_
  simp only [Function.comp_apply]
  by_cases hm : m.id = id
  · rw [if_pos hm, if_pos hm, if_pos hm]
  · rw [if_neg hm, if_neg hm]

/-- A pointer to an entry that was written already. -/
theorem modify_write (h : b.node? id = some n) (d : Data) (m : ℕ) (f : Data → Data) :
    modify { b.write id d with memory := m } id f = some { b.write id (f d) with memory := m } := by
  have hnode : ({ b.write id d with memory := m } : Bucket).node? id = some ⟨id, d⟩ :=
    node?_write h d
  rw [modify, hnode, Option.map_some]
  exact congrArg (fun y : Bucket ↦ some { y with memory := m }) (write_write b id d (f d))

theorem WF.node?_findOrInsertData (hb : b.WF) (h : b.findOrInsertData k = .ok (y, n)) :
    y.node? n.id = some n :=
  (hb.findOrInsertData h).node?_eq_some_iff.mpr ⟨(findOrInsertData_litr h).2, rfl⟩

end Bucket

namespace Cache

variable {threshold decreaseBy : ℕ} {b y z : Bucket} {k : Bytes} {kv : KeyValue}
  {next : Statement ⊕ Outcome} {loc : Statement}

/-- The bucket in the middle of `AddOrReplace`, by the statement that comes next. -/
def AddAt (threshold decreaseBy : ℕ) (k : Bytes) (kv : KeyValue) (b : Bucket) :
    Statement ⊕ Outcome → Bucket → Prop
  | .inl .check, y => y = b
  | .inl (.evict target), y =>
    Bucket.deleteStaleLoop target y.accessList y = b.makeRoom threshold decreaseBy
  | .inl .find, y => y = b.makeRoom threshold decreaseBy
  | .inl (.subtract id), y =>
    ∃ n, (b.makeRoom threshold decreaseBy).findOrInsertData k = .ok (y, n) ∧ n.id = id
  | .inl (.setKey id), y => ∃ y₀ n,
    (b.makeRoom threshold decreaseBy).findOrInsertData k = .ok (y₀, n) ∧ n.id = id ∧
      y = { y₀ with memory := toUInt64 (y₀.memory - n.data.used) }
  | .inl (.setValue id), y => Wrote id y fun d ↦ { d with key := k }
  | .inl (.setFlags id), y => Wrote id y fun d ↦ { d with key := k, value := kv.val }
  | .inl (.setCas id), y =>
    Wrote id y fun d ↦ { d with key := k, value := kv.val, flags := kv.flags }
  | .inl (.add id), y => Wrote id y fun _ ↦ Bucket.entryOf k kv
  | .inr res, y => b.addOrReplace threshold decreaseBy k kv = .ok y ∧ res = none
  | _, _ => False
where
  /-- The entry has been taken out of the account and changed. -/
  Wrote (id : ℕ) (y : Bucket) (f : Data → Data) : Prop := ∃ y₀ n,
    (b.makeRoom threshold decreaseBy).findOrInsertData k = .ok (y₀, n) ∧ n.id = id ∧
      y = { y₀.write id (f n.data) with memory := toUInt64 (y₀.memory - n.data.used) }

/-- The next field is written. -/
theorem AddAt.Wrote.modify (hb : b.WF) {id : ℕ} {f g : Data → Data}
    (h : AddAt.Wrote threshold decreaseBy k b id y f) (hz : y.modify id g = some z) :
    AddAt.Wrote threshold decreaseBy k b id z (g ∘ f) := by
  obtain ⟨y₀, n, hfind, rfl, rfl⟩ := h
  have hnode := (hb.makeRoom threshold decreaseBy).node?_findOrInsertData hfind
  rw [Bucket.modify_write hnode] at hz
  exact ⟨y₀, n, hfind, rfl, (Option.some.inj hz).symm⟩

/-- One statement of `AddOrReplace`. -/
theorem AddAt.step (hb : b.WF) (h : AddAt threshold decreaseBy k kv b (.inl loc) y)
    (hs : addStatement threshold decreaseBy k kv y loc = some (z, next)) :
    AddAt threshold decreaseBy k kv b next z := by
  cases loc with
  | check =>
    obtain rfl : y = b := h
    rw [addStatement] at hs
    split_ifs at hs with hroom
    · obtain ⟨rfl, rfl⟩ := Prod.ext_iff.mp (Option.some.inj hs)
      exact (if_pos hroom).symm
    · obtain ⟨rfl, rfl⟩ := Prod.ext_iff.mp (Option.some.inj hs)
      exact (if_neg hroom).symm
  | evict target =>
    simp only [AddAt] at h
    simp only [addStatement] at hs
    split at hs
    · next hnil =>
      obtain ⟨rfl, rfl⟩ := Prod.ext_iff.mp (Option.some.inj hs)
      rw [hnil, Bucket.deleteStaleLoop] at h
      exact h
    · next n rest hcons =>
      rw [hcons, Bucket.deleteStaleLoop] at h
      split_ifs at hs with hlt
      · obtain ⟨rfl, rfl⟩ := Prod.ext_iff.mp (Option.some.inj hs)
        exact (if_pos hlt).symm.trans h
      · obtain ⟨rfl, rfl⟩ := Prod.ext_iff.mp (Option.some.inj hs)
        exact (if_neg hlt).symm.trans h
  | find =>
    obtain rfl : y = b.makeRoom threshold decreaseBy := h
    simp only [addStatement] at hs
    split at hs
    · cases hs
    · next b' n hfind =>
      obtain ⟨rfl, rfl⟩ := Prod.ext_iff.mp (Option.some.inj hs)
      exact ⟨n, hfind, rfl⟩
  | subtract id =>
    obtain ⟨n, hfind, rfl⟩ := h
    -- nobody else writes to the bucket, so the node is where it was found
    have hnode := (hb.makeRoom threshold decreaseBy).node?_findOrInsertData hfind
    rw [addStatement, hnode, Option.map_some] at hs
    obtain ⟨rfl, rfl⟩ := Prod.ext_iff.mp (Option.some.inj hs)
    exact ⟨y, n, hfind, rfl, rfl⟩
  | setKey id =>
    obtain ⟨y₀, n, hfind, rfl, rfl⟩ := h
    have hnode := (hb.makeRoom threshold decreaseBy).node?_findOrInsertData hfind
    obtain ⟨z', hz, heq⟩ := Option.map_eq_some_iff.mp hs
    obtain ⟨rfl, rfl⟩ := Prod.ext_iff.mp heq
    rw [Bucket.modify] at hz
    obtain ⟨n', hn', rfl⟩ := Option.map_eq_some_iff.mp hz
    obtain rfl : n = n' := Option.some.inj (hnode.symm.trans hn')
    exact ⟨y₀, n, hfind, rfl, rfl⟩
  | setValue id =>
    obtain ⟨z', hz, heq⟩ := Option.map_eq_some_iff.mp hs
    obtain ⟨rfl, rfl⟩ := Prod.ext_iff.mp heq
    simp only [AddAt] at h
    exact AddAt.Wrote.modify hb h hz
  | setFlags id =>
    obtain ⟨z', hz, heq⟩ := Option.map_eq_some_iff.mp hs
    obtain ⟨rfl, rfl⟩ := Prod.ext_iff.mp heq
    simp only [AddAt] at h
    exact AddAt.Wrote.modify hb h hz
  | setCas id =>
    obtain ⟨z', hz, heq⟩ := Option.map_eq_some_iff.mp hs
    obtain ⟨rfl, rfl⟩ := Prod.ext_iff.mp heq
    simp only [AddAt] at h
    exact AddAt.Wrote.modify hb h hz
  | add id =>
    obtain ⟨y₀, n, hfind, rfl, rfl⟩ := h
    have hnode := (hb.makeRoom threshold decreaseBy).node?_findOrInsertData hfind
    obtain ⟨n', hn', heq⟩ := Option.map_eq_some_iff.mp hs
    obtain ⟨rfl, rfl⟩ := Prod.ext_iff.mp heq
    obtain rfl : (⟨n.id, Bucket.entryOf k kv⟩ : Node) = n' :=
      Option.some.inj ((Bucket.node?_write hnode _).symm.trans hn')
    refine ⟨?_, rfl⟩
    rw [Bucket.addOrReplace, hfind]
  | test _ => exact h.elim
  | countMiss => exact h.elim
  | countHit _ => exact h.elim
  | fillVal _ => exact h.elim
  | fillFlags _ _ => exact h.elim
  | fillCas _ _ => exact h.elim

/-- The bucket in the middle of `Get`, by the statement that comes next. -/
def GetAt (k : Bytes) (kv : KeyValue) (b : Bucket) : Statement ⊕ Outcome → Bucket → Prop
  | .inl .find, y => y = b
  | .inl (.test id), y => ∃ n, b.findOrInsertData k = .ok (y, n) ∧ n.id = id
  | .inl .countMiss, y => b.get k kv = .ok (y, false, kv)
  | .inl (.countHit id), y => ∃ n, Found n y ∧ n.id = id
  | .inl (.fillVal id), y => ∃ n, Found n y ∧ n.id = id
  | .inl (.fillFlags id kv'), y =>
    ∃ n, Found n y ∧ n.id = id ∧ kv' = { kv with val? := some n.data.value }
  | .inl (.fillCas id kv'), y => ∃ n, Found n y ∧ n.id = id ∧
    kv' = { kv with val? := some n.data.value, flags? := some n.data.flags }
  | .inr res, y => ∃ hit kv', b.get k kv = .ok (y, hit, kv') ∧ res = some (hit, kv')
  | _, _ => False
where
  /-- The lookup has hit. -/
  Found (n : Node) (y : Bucket) : Prop :=
    b.findOrInsertData k = .ok (y, n) ∧ n.data.value ≠ []

/-- One statement of `Get`. -/
theorem GetAt.step (hb : b.WF) {f : Counters → Counters} (h : GetAt k kv b (.inl loc) y)
    (hs : getStatement k kv y loc = some (z, f, next)) : GetAt k kv b next z := by
  cases loc with
  | find =>
    obtain rfl : y = b := h
    simp only [getStatement] at hs
    split at hs
    · cases hs
    · next b' n hfind =>
      cases hs
      exact ⟨n, hfind, rfl⟩
  | test id =>
    obtain ⟨n, hfind, rfl⟩ := h
    rw [getStatement, hb.node?_findOrInsertData hfind, Option.map_some] at hs
    split_ifs at hs with hval
    · cases hs
      show b.get k kv = .ok (y, false, kv)
      rw [Bucket.get, hfind]
      exact if_pos hval
    · cases hs
      exact ⟨n, ⟨hfind, hval⟩, rfl⟩
  | countMiss =>
    cases hs
    exact ⟨false, kv, h, rfl⟩
  | countHit id =>
    cases hs
    exact h
  | fillVal id =>
    obtain ⟨n, ⟨hfind, hval⟩, rfl⟩ := h
    rw [getStatement, hb.node?_findOrInsertData hfind, Option.map_some] at hs
    cases hs
    exact ⟨n, ⟨hfind, hval⟩, rfl, rfl⟩
  | fillFlags id kv' =>
    obtain ⟨n, ⟨hfind, hval⟩, rfl, rfl⟩ := h
    rw [getStatement, hb.node?_findOrInsertData hfind, Option.map_some] at hs
    cases hs
    exact ⟨n, ⟨hfind, hval⟩, rfl, rfl⟩
  | fillCas id kv' =>
    obtain ⟨n, ⟨hfind, hval⟩, rfl, rfl⟩ := h
    rw [getStatement, hb.node?_findOrInsertData hfind, Option.map_some] at hs
    cases hs
    refine ⟨true, _, ?_, rfl⟩
    rw [Bucket.get, hfind]
    exact if_neg hval
  | check => exact h.elim
  | evict _ => exact h.elim
  | subtract _ => exact h.elim
  | setKey _ => exact h.elim
  | setValue _ => exact h.elim
  | setFlags _ => exact h.elim
  | setCas _ => exact h.elim
  | add _ => exact h.elim

variable {c c' : Cache} {op : Call} {res : Outcome}

/-- The bucket in the middle of a call. -/
def CallAt (c : Cache) (b : Bucket) : Call → Statement ⊕ Outcome → Bucket → Prop
  | .addOrReplace k kv => AddAt c.threshold c.decreaseBy k kv b
  | .get k kv => GetAt k kv b

theorem callAt_of_reach (hb : b.WF) (h : Locking.Reach c.objects op b next y) :
    c.CallAt b op next y := by
  induction h with
  | entry => cases op <;> exact rfl
  | step h hs ih =>
    cases op with
    | addOrReplace k kv =>
      obtain ⟨r, hr, heq⟩ := Option.map_eq_some_iff.mp hs
      cases heq
      exact AddAt.step hb ih hr
    | get k kv => exact GetAt.step hb ih hs

theorem returns_addOrReplace_iff :
    c.Returns (.addOrReplace k kv, res) c' ↔ c.addOrReplace k kv = .ok c' ∧ res = none := by
  rw [Returns, callResult]
  cases hadd : c.addOrReplace k kv with
  | error e => simp [Except.map]
  | ok c₁ => simp [Except.map, eq_comm]

theorem returns_get_iff : c.Returns (.get k kv, res) c' ↔
    ∃ hit kv', c.get k kv = .ok (c', hit, kv') ∧ res = some (hit, kv') := by
  rw [Returns, callResult]
  cases hget : c.get k kv with
  | error e => simp [Except.map]
  | ok r =>
    obtain ⟨c₁, hit, kv'⟩ := r
    simp only [Except.map, Except.ok.injEq, Prod.mk.injEq]
    constructor
    · rintro ⟨rfl, rfl⟩
      exact ⟨hit, kv', ⟨rfl, rfl, rfl⟩, rfl⟩
    · rintro ⟨_, _, ⟨rfl, rfl, rfl⟩, rfl⟩
      exact ⟨rfl, rfl⟩

/-- **The statements of a call make up the call.** -/
theorem returns_of_atomic (hc : c.WF) {x : Fin kNumBuckets → Bucket}
    (h : Locking.Atomic c.objects c.buckets (op, res) x) :
    ∃ c', c.Returns (op, res) c' ∧ c'.buckets = x ∧ c.SameParams c' := by
  obtain ⟨y, hreach, rfl⟩ := h
  have hat := callAt_of_reach (hc _) hreach
  cases op with
  | addOrReplace k kv =>
    obtain ⟨hadd, rfl⟩ := hat
    refine ⟨{ c with buckets := Function.update c.buckets (c.getIndex k) y }, ?_, rfl, rfl, rfl,
      rfl⟩
    have hadd' : (c.bucketOf k).addOrReplace c.threshold c.decreaseBy k kv = .ok y := hadd
    refine returns_addOrReplace_iff.mpr ⟨?_, rfl⟩
    rw [Cache.addOrReplace, hadd']
  | get k kv =>
    obtain ⟨hit, kv', hget, rfl⟩ := hat
    have hget' : (c.bucketOf k).get k kv = .ok (y, hit, kv') := hget
    refine ⟨{ c with
      buckets := Function.update c.buckets (c.getIndex k) y
      hits := if hit then (c.hits + 1) % 2 ^ 64 else c.hits
      miss := if hit then c.miss else (c.miss + 1) % 2 ^ 64 }, ?_, rfl, rfl, rfl, rfl⟩
    refine returns_get_iff.mpr ⟨hit, kv', ?_, rfl⟩
    rw [Cache.get, hget']

theorem SameParams.objects_eq (h : c.SameParams c') : c'.objects = c.objects := by
  obtain ⟨hhash, hthreshold, hdecrease⟩ := h
  rw [objects, objects, hthreshold, hdecrease]
  simp only [getIndex_congr hhash]

theorem SameParams.trans {c'' : Cache} (h : c.SameParams c') (h' : c'.SameParams c'') :
    c.SameParams c'' :=
  ⟨h'.1.trans h.1, h'.2.1.trans h.2.1, h'.2.2.trans h.2.2⟩

/-- A call that returns is a step of the cache. -/
theorem step_of_returns {r : Call × Outcome} (h : c.Returns r c') : c.Step r.1 c' := by
  obtain ⟨op, res⟩ := r
  cases op with
  | addOrReplace k kv => exact (returns_addOrReplace_iff.mp h).1
  | get k kv =>
    obtain ⟨hit, kv', hget, -⟩ := returns_get_iff.mp h
    rw [Step, call, hget]
    rfl

theorem run_step_of_returns {hist : List (Call × Outcome)} (h : Run Returns c hist c') :
    Run Step c (hist.map Prod.fst) c' := by
  induction h with
  | nil => exact Run.nil c
  | snoc _ hstep ih =>
    rw [List.map_append]
    exact ih.snoc (step_of_returns hstep)

/-- A sequence of calls, each made up of its statements. -/
theorem returns_of_run (hc : c.WF) {hist : List (Call × Outcome)} {x : Fin kNumBuckets → Bucket}
    (h : Run (Locking.Atomic c.objects) c.buckets hist x) :
    ∃ c', Run Returns c hist c' ∧ c'.buckets = x ∧ c.SameParams c' ∧ c'.WF := by
  induction h with
  | nil => exact ⟨c, Run.nil c, rfl, ⟨rfl, rfl, rfl⟩, hc⟩
  | snoc _ hstep ih =>
    obtain ⟨c', hrun, rfl, hparams, hwf⟩ := ih
    rw [← hparams.objects_eq] at hstep
    obtain ⟨c'', hret, hx, hparams'⟩ := returns_of_atomic hwf hstep
    exact ⟨c'', hrun.snoc hret, hx, hparams.trans hparams', hwf.step (step_of_returns hret)⟩

/-! ## The counters -/

/-- A lookup that hit. -/
def isHit : Call × Outcome → Bool
  | (_, some (hit, _)) => hit
  | _ => false

/-- A lookup that missed. -/
def isMiss : Call × Outcome → Bool
  | (_, some (hit, _)) => !hit
  | _ => false

/-- The thread has counted a hit and has not released the mutex. -/
def hitPending : Locking.Thread Call Statement Outcome → ℕ
  | .inside _ (.inl (.fillVal _)) => 1
  | .inside _ (.inl (.fillFlags _ _)) => 1
  | .inside _ (.inl (.fillCas _ _)) => 1
  | .inside _ (.inr (some (true, _))) => 1
  | _ => 0

/-- The thread has counted a miss and has not released the mutex. -/
def missPending : Locking.Thread Call Statement Outcome → ℕ
  | .inside _ (.inr (some (false, _))) => 1
  | _ => 0

/-- `AddOrReplace` counts nothing. -/
theorem addStatement_counts (h : addStatement threshold decreaseBy k kv y loc = some (z, next))
    (op : Call) :
    hitPending (.inside op next) = hitPending (.inside op (.inl loc)) ∧
      missPending (.inside op next) = missPending (.inside op (.inl loc)) := by
  cases loc with
  | check =>
    rw [addStatement] at h
    split_ifs at h <;> cases h <;> exact ⟨rfl, rfl⟩
  | evict target =>
    simp only [addStatement] at h
    split at h
    · cases h
      exact ⟨rfl, rfl⟩
    · split_ifs at h <;> cases h <;> exact ⟨rfl, rfl⟩
  | find =>
    simp only [addStatement] at h
    split at h <;> cases h
    exact ⟨rfl, rfl⟩
  | subtract _ | setKey _ | setValue _ | setFlags _ | setCas _ | add _ =>
    obtain ⟨r, -, heq⟩ := Option.map_eq_some_iff.mp h
    cases heq
    exact ⟨rfl, rfl⟩
  | test _ | countMiss | countHit _ | fillVal _ | fillFlags _ _ | fillCas _ _ => cases h

/-- What one statement counts, and what it leaves pending. -/
inductive Counts (th th' : Locking.Thread Call Statement Outcome) :
    (Counters → Counters) → Prop
  | nothing (hhit : hitPending th' = hitPending th) (hmiss : missPending th' = missPending th) :
      Counts th th' id
  | hit (hhit : hitPending th' = hitPending th + 1) (hmiss : missPending th' = missPending th) :
      Counts th th' fun c ↦ { c with hits := (c.hits + 1) % 2 ^ 64 }
  | miss (hhit : hitPending th' = hitPending th) (hmiss : missPending th' = missPending th + 1) :
      Counts th th' fun c ↦ { c with miss := (c.miss + 1) % 2 ^ 64 }

theorem counts_of_statement {f : Counters → Counters}
    (h : c.objects.statement op loc y = some (z, f, next)) :
    Counts (.inside op (.inl loc)) (.inside op next) f := by
  cases op with
  | addOrReplace k kv =>
    obtain ⟨r, hr, heq⟩ := Option.map_eq_some_iff.mp h
    cases heq
    obtain ⟨hhit, hmiss⟩ := addStatement_counts hr (.addOrReplace k kv)
    exact .nothing hhit hmiss
  | get k kv =>
    replace h : getStatement k kv y loc = some (z, f, next) := h
    cases loc with
    | find =>
      simp only [getStatement] at h
      split at h <;> cases h
      exact .nothing rfl rfl
    | test id =>
      obtain ⟨n, -, heq⟩ := Option.map_eq_some_iff.mp h
      cases heq
      split_ifs <;> exact .nothing rfl rfl
    | countMiss =>
      cases h
      exact .miss rfl rfl
    | countHit id =>
      cases h
      exact .hit rfl rfl
    | fillVal _ | fillFlags _ _ | fillCas _ _ =>
      obtain ⟨n, -, heq⟩ := Option.map_eq_some_iff.mp h
      cases heq
      exact .nothing rfl rfl
    | check | evict _ | subtract _ | setKey _ | setValue _ | setFlags _ | setCas _ | add _ =>
      cases h

section Conservation

variable {T : Type} [Fintype T]

/-- Every lookup that has counted itself has returned or is about to. -/
structure Counted (s : Shared T) : Prop where
  hits : s.free.hits = (s.history.countP isHit + ∑ t, hitPending (s.threads t)) % 2 ^ 64
  miss : s.free.miss = (s.history.countP isMiss + ∑ t, missPending (s.threads t)) % 2 ^ 64

theorem counted_init (capacity : UInt64) (strHash : Bytes → ℕ) :
    Counted (Shared.init T capacity strHash) := by
  constructor <;> simp [Shared.init, hitPending, missPending]

variable [DecidableEq T] {s s' : Shared T}

/-- The returned result of a lookup is what it had counted. -/
theorem countP_isHit_concat (hist : List (Call × Outcome)) (op : Call) (res : Outcome) :
    (hist ++ [(op, res)]).countP isHit = hist.countP isHit + hitPending (.inside op (.inr res)) ∧
    (hist ++ [(op, res)]).countP isMiss =
      hist.countP isMiss + missPending (.inside op (.inr res)) := by
  rw [List.countP_append, List.countP_append, List.countP_singleton, List.countP_singleton]
  rcases res with _ | ⟨_ | _, kv⟩ <;> exact ⟨rfl, rfl⟩

theorem Counted.moves (h : Counted s) (hs : Locking.Moves c.objects s s') : Counted s' := by
  have hhit := h.hits
  have hmiss := h.miss
  have hidle : hitPending .idle = 0 ∧ missPending .idle = 0 := ⟨rfl, rfl⟩
  have hwaiting : ∀ op, hitPending (.waiting op) = 0 ∧ missPending (.waiting op) = 0 :=
    fun _ ↦ ⟨rfl, rfl⟩
  -- a call begins, takes the mutex, goes on by a statement, or returns
  rcases hs with ⟨t, op, ht⟩ | ⟨t, op, ht, hfree⟩ | ⟨t, op, loc, z, f, next, ht, hst⟩ |
    ⟨t, op, res, ht⟩
  · have hsum := sum_update hitPending s.threads (Finset.mem_univ t) (.waiting op)
    have hsum' := sum_update missPending s.threads (Finset.mem_univ t) (.waiting op)
    have hpending := hwaiting op
    rw [ht] at hsum hsum'
    constructor <;> dsimp only <;> omega
  · have hsum := sum_update hitPending s.threads (Finset.mem_univ t)
      (.inside op (.inl (c.objects.entry op)))
    have hsum' := sum_update missPending s.threads (Finset.mem_univ t)
      (.inside op (.inl (c.objects.entry op)))
    have hpending := hwaiting op
    have hentry : hitPending (.inside op (.inl (c.objects.entry op))) = 0 ∧
        missPending (.inside op (.inl (c.objects.entry op))) = 0 := by
      cases op <;> exact ⟨rfl, rfl⟩
    rw [ht] at hsum hsum'
    constructor <;> dsimp only <;> omega
  · have hsum := sum_update hitPending s.threads (Finset.mem_univ t)
      (.inside op next)
    have hsum' := sum_update missPending s.threads (Finset.mem_univ t)
      (.inside op next)
    rw [ht] at hsum hsum'
    obtain ⟨h1, h2⟩ | ⟨h1, h2⟩ | ⟨h1, h2⟩ := counts_of_statement hst
    · constructor <;> dsimp only [id] <;> omega
    · constructor <;> dsimp only <;> omega
    · constructor <;> dsimp only <;> omega
  · have hsum := sum_update hitPending s.threads (Finset.mem_univ t) .idle
    have hsum' := sum_update missPending s.threads (Finset.mem_univ t) .idle
    have hcount := countP_isHit_concat s.history op res
    rw [ht] at hsum hsum'
    constructor <;> dsimp only <;> omega

end Conservation

/-- What one call counts. -/
theorem Returns.counters {r : Call × Outcome} (h : c.Returns r c') :
    (isHit r = true ∧ isMiss r = false ∧ c'.hits = (c.hits + 1) % 2 ^ 64 ∧ c'.miss = c.miss) ∨
    (isHit r = false ∧ isMiss r = true ∧ c'.hits = c.hits ∧ c'.miss = (c.miss + 1) % 2 ^ 64) ∨
    (isHit r = false ∧ isMiss r = false ∧ c'.hits = c.hits ∧ c'.miss = c.miss) := by
  obtain ⟨op, res⟩ := r
  cases op with
  | addOrReplace k kv =>
    obtain ⟨hadd, rfl⟩ := returns_addOrReplace_iff.mp h
    rw [Cache.addOrReplace] at hadd
    split at hadd
    · cases hadd
    · cases hadd
      exact Or.inr (Or.inr ⟨rfl, rfl, rfl, rfl⟩)
  | get k kv =>
    obtain ⟨hit, kv', hget, rfl⟩ := returns_get_iff.mp h
    rw [Cache.get] at hget
    split at hget
    · cases hget
    · cases hget
      cases hit
      · exact Or.inr (Or.inl ⟨rfl, rfl, rfl, rfl⟩)
      · exact Or.inl ⟨rfl, rfl, rfl, rfl⟩

/-- The counters after a sequence of calls. -/
theorem counters_of_returns {hist : List (Call × Outcome)} (hhit : c.hits = 0) (hmiss : c.miss = 0)
    (h : Run Returns c hist c') :
    c'.hits = hist.countP isHit % 2 ^ 64 ∧ c'.miss = hist.countP isMiss % 2 ^ 64 := by
  induction h with
  | nil => exact ⟨hhit, hmiss⟩
  | snoc _ hstep ih =>
    rw [List.countP_append, List.countP_append, List.countP_singleton, List.countP_singleton]
    rcases hstep.counters with ⟨h1, h2, h3, h4⟩ | ⟨h1, h2, h3, h4⟩ | ⟨h1, h2, h3, h4⟩
    · rw [h1, h2, if_pos rfl, if_neg Bool.false_ne_true]
      omega
    · rw [h1, h2, if_pos rfl, if_neg Bool.false_ne_true]
      omega
    · rw [h1, h2, if_neg Bool.false_ne_true]
      omega

/-! ## Main result -/

/-- **The cache is thread safe** as long as no statement uses an erased node. Any number of threads
call `AddOrReplace` and `Get`, and their statements run in any order that the mutexes allow. The
calls that have released their mutex have returned what they return one after the other; a bucket
that nobody has locked is as they leave it, and when nobody is inside, so is the whole cache, the
counters included. -/
theorem thread_safe {T : Type} [Fintype T] [DecidableEq T] (capacity : UInt64)
    (strHash : Bytes → ℕ) {ls : List (Locking.Label T Call)} {s : Shared T}
    (h : Run (StepOf (Locking.step (new capacity strHash).objects))
      (Shared.init T capacity strHash) ls s) :
    ∃ c, Run Returns (new capacity strHash) s.history c ∧
      (∀ i, s.holder i = none → s.objects i = c.buckets i) ∧
      ((∀ t op next, s.threads t ≠ .inside op next) →
        s.objects = c.buckets ∧ s.free = ⟨c.hits, c.miss⟩) := by
  obtain ⟨x, hx⟩ := Locking.linearized_of_run h
  obtain ⟨c, hrun, rfl, -, -⟩ := returns_of_run (wf_new capacity strHash) hx.run
  refine ⟨c, hrun, hx.objects, fun hout ↦ ⟨funext fun i ↦ hx.objects i ?_, ?_⟩⟩
  · -- whoever holds a mutex is inside
    cases hi : s.holder i with
    | none => rfl
    | some t =>
      obtain ⟨op, next, hin, -⟩ := hx.holder i t hi
      exact absurd hin (hout t op next)
  · have hcounted : Counted s := h.invariant (counted_init capacity strHash)
      fun _ _ _ hs hstep ↦ hs.moves (Locking.moves_of_step hstep)
    obtain ⟨hhits, hmiss⟩ := counters_of_returns rfl rfl hrun
    have hpending : ∀ t, hitPending (s.threads t) = 0 ∧ missPending (s.threads t) = 0 := by
      intro t
      cases ht : s.threads t with
      | idle => exact ⟨rfl, rfl⟩
      | waiting op => exact ⟨rfl, rfl⟩
      | inside op next => exact absurd ht (hout t op next)
    have hsum : ∑ t, hitPending (s.threads t) = 0 := Finset.sum_eq_zero fun t _ ↦ (hpending t).1
    have hsum' : ∑ t, missPending (s.threads t) = 0 := Finset.sum_eq_zero fun t _ ↦ (hpending t).2
    have h1 := hcounted.hits
    have h2 := hcounted.miss
    rw [hsum, add_zero, ← hhits] at h1
    rw [hsum', add_zero, ← hmiss] at h2
    exact congrArg₂ Counters.mk h1 h2

/-- A value is stored while another thread waits for the bucket and a third one misses in a
different bucket; then the second one hits. -/
def storeWhileReading : List (Locking.Label (Fin 3) Call) :=
  [.call 0 (.addOrReplace [1] { val? := some [7] }), .call 1 (.get [1] {}), .acquire 0, .run 0,
    .call 2 (.get [1, 1] {}), .run 0, .acquire 2, .run 2, .run 0, .run 2, .run 0, .run 0, .run 2,
    .run 0, .release 2, .run 0, .run 0, .release 0, .acquire 1, .run 1, .run 1, .run 1, .run 1,
    .run 1, .run 1, .release 1]

theorem thread_safe_storeWhileReading : ∃ s : Shared (Fin 3), ∃ c,
    s.history.map Prod.snd = [some (false, {}), none,
      some (true, { val? := some [7], flags? := some 0, cas? := some 0 })] ∧
    Run Returns (new 0 List.length) s.history c ∧ s.free = ⟨c.hits, c.miss⟩ := by
  obtain ⟨s, hrun, hs⟩ := exists_run_of_exec (f := fun s : Shared (Fin 3) ↦
      (s.history.map Prod.snd, s.threads 0, s.threads 1, s.threads 2))
    (show (exec (Locking.step (new 0 List.length).objects) (Shared.init (Fin 3) 0 List.length)
      storeWhileReading).map _ = some (_, .idle, .idle, .idle) from rfl)
  obtain ⟨hhist, h0, h1, h2⟩ := by simpa only [Prod.mk.injEq] using hs
  obtain ⟨c, hret, -, hquiet⟩ := thread_safe 0 List.length hrun
  refine ⟨s, c, hhist, hret, (hquiet fun t op next ht ↦ ?_).2⟩
  have hidle : s.threads t = .idle := by
    match t with
    | 0 => exact h0
    | 1 => exact h1
    | 2 => exact h2
  exact nomatch hidle.symm.trans ht

/-- **A hit returns the latest write, whoever wrote it.** With any number of threads and any order
of their statements, a lookup that hit has returned what the last call of `AddOrReplace` under its
key stored that released the mutex before it. -/
theorem concurrent_hit_returns_latest {T : Type} [DecidableEq T] (capacity : UInt64)
    (strHash : Bytes → ℕ) {ls : List (Locking.Label T Call)} {s : Shared T}
    (h : Run (StepOf (Locking.step (new capacity strHash).objects))
      (Shared.init T capacity strHash) ls s)
    {before after : List (Call × Outcome)} {k : Bytes} {kv kv' : KeyValue}
    (hhist : s.history = before ++ (.get k kv, some (true, kv')) :: after) :
    ∃ last, Latest (before.map Prod.fst) k last ∧ kv' = { kv with
      val? := some last.val, flags? := some last.flags, cas? := some last.cas } := by
  obtain ⟨x, hx⟩ := Locking.linearized_of_run h
  obtain ⟨c, hrun, -, -, -⟩ := returns_of_run (wf_new capacity strHash) hx.run
  rw [hhist] at hrun
  obtain ⟨c₁, hbefore, hrest⟩ := hrun.of_append
  obtain ⟨c₂, hget, -⟩ := hrest.of_cons
  have hsteps := run_step_of_returns hbefore
  have hwf := (wf_new capacity strHash).of_run hsteps
  obtain ⟨_, _, hget, hres⟩ := returns_get_iff.mp hget
  cases hres
  obtain ⟨-, -, ⟨hmiss, -⟩ | ⟨d, -, hd, rfl⟩⟩ := hwf.get hget
  · cases hmiss
  · obtain ⟨last, hlast, rfl⟩ := remembersLatest_of_run hsteps k d hd
    exact ⟨last, hlast, rfl⟩

theorem concurrent_hit_storeWhileReading : ∃ s : Shared (Fin 3),
    ∃ before : List (Call × Outcome), ∃ last,
      s.history = before ++ [(.get [1] {},
        some (true, { val? := some [7], flags? := some 0, cas? := some 0 }))] ∧
      Latest (before.map Prod.fst) [1] last ∧ last.val = [7] := by
  obtain ⟨s, hrun, hs⟩ := exists_run_of_exec (f := fun s : Shared (Fin 3) ↦ s.history)
    (show (exec (Locking.step (new 0 List.length).objects) (Shared.init (Fin 3) 0 List.length)
      storeWhileReading).map _ = some ([(.get [1, 1] {}, some (false, {})),
        (.addOrReplace [1] { val? := some [7] }, none)] ++ [(.get [1] {},
          some (true, { val? := some [7], flags? := some 0, cas? := some 0 }))]) from rfl)
  obtain ⟨last, hlast, heq⟩ := concurrent_hit_returns_latest 0 List.length hrun hs
  refine ⟨s, _, last, hs, hlast, ?_⟩
  simpa using (KeyValue.mk.inj heq).2.1.symm

end Cache

end MemcacheRouter
