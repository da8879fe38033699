import MemcacheRouter.Client.Answers
import MemcacheRouter.Foundations.Transition

/-!
# When the cache is transparent

One worker with a cache gives the answers it would give without one, as long as it does not ask for
a key that has gone stale. A SET stores its value in the cache, and a GET what memcached holds for
the keys that missed. What happens to a key in memcached after that does not reach the cache: an
INCREMENT, or the passage of time. So a key is stale from such a change on until the cache stores it
again, and at once if memcached does not end up with the value of a SET.

Where they are not stale, the cache agrees with memcached, and a run whose GETs ask for no other
cached keys refines memcached without a cache.
-/

open Transition

namespace MemcacheRouter

variable {lib : Libmemcached} {w w' : Stores} {k : Bytes} {kv kv' : KeyValue}

/-! ## One worker -/

/-- What happens to one worker, in the order in which it happens: an item of a SET or an INCREMENT
packet, a batch of GET packets, or the passage of time. -/
inductive Op where
  | set (kv : KeyValue)
  | incr (kv : KeyValue)
  | get (packets : List Packet)
  | tick (n : ℕ)

namespace Op

/-- The effect of an operation, and the GET packets it answers. -/
def exec (lib : Libmemcached) (w : Stores) : Op → Except Fault (Stores × List Packet)
  | set kv => do
    let (w, _) ← setKey lib w kv
    return (w, [])
  | incr kv => .ok ((incrKey lib w kv).1, [])
  | get packets => answerGets lib w packets
  | tick n => .ok ({ w with memc := w.memc.tick n }, [])

/-- The effect of an operation on memcached. -/
def memcAfter (s : Store) : Op → Store
  | set kv => if kv.noPropagate then s else (s.put kv).1
  | incr kv => (s.count kv).1
  | get _ => s
  | tick n => s.tick n

/-- The answers of an operation, from memcached's contents alone. -/
def answersAt (s : Store) : Op → List (List Bytes × List KeyValue)
  | get packets => s.answers packets
  | _ => []

end Op

/-- The steps of one worker: an operation and the packets it answers. -/
def OpStep (lib : Libmemcached) (w : Stores) (l : Op × List Packet) (w' : Stores) : Prop :=
  l.1.exec lib w = .ok (w', l.2)

/-- Memcached takes the write of `kv`. -/
def Store.Accepts (s : Store) (kv : KeyValue) : Prop :=
  if 0 < kv.cas then ∃ it, s.lookup kv.key = some it ∧ it.cas = kv.cas
  else kv.allowReplace = true ∨ s.lookup kv.key = none

/-- The keys that are stale after an operation. The key of a SET is, unless memcached has come to
hold what the SET has put into the cache. After a GET only those are that the cache had before it:
what it stores is what memcached holds. -/
def Op.staleAfter (w : Stores) (stale : Set Bytes) : Op → Set Bytes
  | set kv => {k | if k = kv.key then ((set kv).memcAfter w.memc).held k ≠ some (kv.val, kv.flags)
      else k ∈ stale}
  | incr kv => {k | k ∈ stale ∨ ((incr kv).memcAfter w.memc).held k ≠ w.memc.held k}
  | get _ => {k | k ∈ stale ∧ w.view k ≠ none}
  | tick n => {k | k ∈ stale ∨ ((tick n).memcAfter w.memc).held k ≠ w.memc.held k}

/-- A worker, and the keys that are stale. -/
structure Tracked where
  stores : Stores
  stale : Set Bytes := ∅

/-- The steps of one worker, with an eye on the stale keys. -/
def TrackedStep (lib : Libmemcached) (s : Tracked) (l : Op × List Packet) (s' : Tracked) : Prop :=
  OpStep lib s.stores l s'.stores ∧ s'.stale = l.1.staleAfter s.stores s.stale

/-- A GET asks for plain keys, and for none that the cache has and that is stale. -/
def AsksFresh (s : Tracked) (l : Op × List Packet) : Prop :=
  match l.1 with
  | .get packets => PlainKeys packets ∧
      ∀ k, AsksFor packets k → s.stores.view k ≠ none → k ∉ s.stale
  | .set _ | .incr _ | .tick _ => True

/-- Every run can be tracked. -/
theorem exists_tracked {ls : List (Op × List Packet)} (h : Run (OpStep lib) w ls w')
    (stale : Set Bytes) : ∃ stale', Run (TrackedStep lib) ⟨w, stale⟩ ls ⟨w', stale'⟩ := by
  induction h with
  | nil => exact ⟨stale, Run.nil _⟩
  | snoc _ hstep ih =>
    obtain ⟨stale', hrun⟩ := ih
    exact ⟨_, hrun.snoc ⟨hstep, rfl⟩⟩

/-- **The three-way branch of `SetKeys`**: the write is stored as asked, or nothing happens. -/
theorem Store.put_cases (s : Store) (kv : KeyValue) :
    (s.Accepts kv ∧ s.put kv = s.set kv.key kv.val kv.expireInSeconds kv.flags) ∨
      (¬s.Accepts kv ∧ (s.put kv).1 = s ∧ (s.put kv).2 ≠ .success) := by
  rw [Store.put, Store.Accepts]
  by_cases hcas : 0 < kv.cas
  · simp only [if_pos hcas]
    rcases s.cas_cases kv.key kv.val kv.expireInSeconds kv.flags kv.cas with h | h
    · exact Or.inl ⟨h.2, h.1⟩
    · refine Or.inr ⟨?_, h.1, h.2.1⟩
      rintro ⟨it, hit, htok⟩
      exact h.2.2 it hit htok
  · simp only [if_neg hcas]
    by_cases hrep : kv.allowReplace = true
    · simp [hrep]
    · simp only [hrep, Bool.not_false, if_true, Bool.false_eq_true, false_or]
      rw [Store.add]
      cases h : s.lookup kv.key with
      | none => exact Or.inl ⟨rfl, rfl⟩
      | some it => exact Or.inr ⟨by simp, rfl, by simp⟩

theorem Store.writesAt_put (s : Store) (kv : KeyValue) : s.WritesAt kv.key (s.put kv).1 := by
  rcases s.put_cases kv with ⟨-, h⟩ | ⟨-, h, -⟩
  · rw [h]
    exact Or.inr ⟨_, _, _, rfl⟩
  · exact Or.inl h

/-- One item of a SET packet: the entry goes to the cache, then the write to memcached. -/
theorem setKey_eq_ok (h : setKey lib w kv = .ok (w', kv')) :
    ∃ w₁, w.cacheAdd kv.key kv = .ok w₁ ∧ w' = { w₁ with
      memc := if kv.noPropagate then w₁.memc else (w₁.memc.put kv).1 } := by
  obtain ⟨w₁, hadd, h⟩ := bind_eq_ok.mp h
  refine ⟨w₁, hadd, ?_⟩
  by_cases hno : kv.noPropagate = true
  · rw [if_pos hno] at h ⊢
    cases h
    rfl
  · rw [if_neg hno] at h ⊢
    cases h
    rfl

theorem Op.writesAt_memcAfter_set (s : Store) (kv : KeyValue) :
    s.WritesAt kv.key ((Op.set kv).memcAfter s) := by
  rw [memcAfter]
  split_ifs
  · exact Or.inl rfl
  · exact s.writesAt_put kv

/-- **A SET and the agreement.** It stays where it was, and comes about at the key of the SET if
memcached has come to hold the value. -/
theorem Stores.AgreeOn.set {K L : Set Bytes} {r : List Packet} (hw : w.AgreeOn K)
    (h : OpStep lib w (.set kv, r) w') (hK : ∀ k ∈ L, k ≠ kv.key → k ∈ K)
    (hkey : kv.key ∈ L → kv.val ≠ [] →
      ((Op.set kv).memcAfter w.memc).held kv.key = some (kv.val, kv.flags)) :
    w'.AgreeOn L ∧ w'.memc = (Op.set kv).memcAfter w.memc ∧ r = [] := by
  obtain ⟨⟨w₁, kv₁⟩, hset, h⟩ := bind_eq_ok.mp h
  obtain ⟨w₂, hadd, rfl⟩ := setKey_eq_ok hset
  cases h
  obtain ⟨hwf, hmemc, hput⟩ := hw.wf.cacheAdd hadd
  have hafter : (Op.set kv).memcAfter w.memc
      = if kv.noPropagate then w₂.memc else (w₂.memc.put kv).1 := by
    rw [hmemc]
    rfl
  refine ⟨⟨hwf, ?_⟩, hafter.symm, rfl⟩
  rw [← hafter]
  refine hw.held.put hput (fun j hj d hd hjL ↦ ?_) fun d hd hkL ↦ ?_
  · rw [(Op.writesAt_memcAfter_set w.memc kv).held_of_ne hj]
    exact hd (hK j hjL hj)
  · obtain ⟨hne, rfl⟩ := Stores.stored_eq_some hd
    exact hkey hkL hne

/-- What changes memcached only, and is not stale after it, agrees as before. -/
theorem Stores.AgreeOn.change {stale : Set Bytes} {s : Store} (hw : w.AgreeOn staleᶜ) :
    AgreeOn ⟨w.cache, s⟩ {k | k ∈ stale ∨ s.held k ≠ w.memc.held k}ᶜ where
  wf := hw.wf
  held := by
    intro k d hd hk
    obtain ⟨hfresh, hsame⟩ := not_or.mp hk
    rw [not_not.mp hsame]
    exact hw.held k d hd hfresh

/-- **One step keeps the agreement** off the stale keys, whatever is asked for. -/
theorem TrackedStep.agreeOn {s s' : Tracked} {l : Op × List Packet}
    (hs : s.stores.AgreeOn s.staleᶜ) (h : TrackedStep lib s l s') :
    s'.stores.AgreeOn s'.staleᶜ ∧ s'.stores.memc = l.1.memcAfter s.stores.memc := by
  obtain ⟨op, replies⟩ := l
  obtain ⟨hstep, hstale⟩ := h
  rw [hstale]
  cases op with
  | set kv =>
    have hrest : ∀ k ∈ ((Op.set kv).staleAfter s.stores s.stale)ᶜ, k ≠ kv.key →
        k ∈ s.staleᶜ := by
      intro k hk hne hstale
      refine hk ?_
      rwa [Op.staleAfter, Set.mem_ofPred_eq, if_neg hne]
    obtain ⟨hagree, hmemc, -⟩ := hs.set hstep hrest fun hfresh _ ↦ by
      rw [Set.mem_compl_iff, Op.staleAfter, Set.mem_ofPred_eq, if_pos rfl] at hfresh
      exact not_not.mp hfresh
    exact ⟨hagree, hmemc⟩
  | incr kv =>
    obtain ⟨stores', _⟩ := s'
    cases hstep
    exact ⟨hs.change, rfl⟩
  | get packets =>
    -- on a key that is not cached there is nothing to agree about
    have hcached : s.stores.AgreeOn ((Op.get packets).staleAfter s.stores s.stale)ᶜ :=
      hs.mono fun k hk hcached hstale ↦ hk ⟨hstale, hcached⟩
    exact hcached.of_answerGets hstep
  | tick n =>
    obtain ⟨stores', _⟩ := s'
    cases hstep
    exact ⟨hs.change, rfl⟩

/-- **One step is answered from memcached's contents**, if it asks for nothing stale. -/
theorem TrackedStep.answers {s s' : Tracked} {l : Op × List Packet}
    (hs : s.stores.AgreeOn s.staleᶜ) (hl : AsksFresh s l) (h : TrackedStep lib s l s') :
    l.2.map Packet.answers = l.1.answersAt s.stores.memc := by
  obtain ⟨op, replies⟩ := l
  obtain ⟨hstep, -⟩ := h
  cases op with
  | set kv =>
    obtain ⟨_, -, h⟩ := bind_eq_ok.mp hstep
    obtain rfl : [] = replies := (Prod.mk.inj (Except.ok.inj h)).2
    rfl
  | incr kv | tick n =>
    obtain ⟨stores', _⟩ := s'
    cases hstep
    rfl
  | get packets =>
    obtain ⟨hplain, hfresh⟩ := hl
    have hasked : s.stores.AgreeOn {k | AsksFor packets k} :=
      hs.mono fun k hasks hcached ↦ hfresh k hasks hcached
    exact answerGets_spec hasked hplain (fun _ ↦ id) hstep

/-! ## A turn of `ProcessPackets` -/

/-- The items of a packet that are executed on their own. -/
def Packet.ops (p : Packet) : List Op :=
  match p.getType with
  | .ok .set => p.instruction.setKeys.map Op.set
  | .ok .increment => p.instruction.incrKeys.map Op.incr
  | _ => []

/-- The operations of a batch: the items of its packets in order, then its GET packets at once. -/
def batchOps (batch : List Packet) : List Op :=
  batch.flatMap Packet.ops ++
    if batch.filter Packet.isGet = [] then [] else [.get (batch.filter Packet.isGet)]

theorem run_of_setKeys {kvs : List KeyValue} : ∀ {w w' : Stores} {kvs' : List KeyValue},
    setKeys lib kvs w = .ok (w', kvs') →
      Run (OpStep lib) w ((kvs.map Op.set).map fun op ↦ (op, [])) w' := by
  induction kvs with
  | nil =>
    intro w w' kvs' h
    cases h
    exact Run.nil _
  | cons kv kvs ih =>
    intro w w' kvs' h
    obtain ⟨⟨w₁, kv₁⟩, hset, h⟩ := bind_eq_ok.mp h
    obtain ⟨⟨w₂, kvs₂⟩, hrest, h⟩ := bind_eq_ok.mp h
    cases h
    exact Run.cons (bind_eq_ok.mpr ⟨_, hset, rfl⟩) (ih hrest)

theorem run_of_incrKeys {kvs : List KeyValue} : ∀ {w : Stores},
    Run (OpStep lib) w ((kvs.map Op.incr).map fun op ↦ (op, [])) (incrKeys lib kvs w).1 := by
  induction kvs with
  | nil => exact fun {_} ↦ Run.nil _
  | cons kv kvs ih => exact fun {_} ↦ Run.cons rfl ih

theorem isGet_iff_getType {p : Packet} : p.isGet = true ↔ p.getType = .ok .get := by
  rw [Packet.isGet, decide_eq_true_eq, Packet.getType]
  constructor
  · exact fun h ↦ if_pos h
  · intro h
    by_contra hnil
    rw [if_neg (not_not.mpr hnil)] at h
    split_ifs at h <;> cases h

/-- The first loop of a turn is the run of the items of its packets. -/
theorem run_of_runPackets {ps : List Packet} : ∀ {w w' : Stores} {replies gets : List Packet},
    runPackets lib ps w = .ok (w', replies, gets) → gets = ps.filter Packet.isGet ∧
      Run (OpStep lib) w ((ps.flatMap Packet.ops).map fun op ↦ (op, [])) w' := by
  induction ps with
  | nil =>
    intro w w' replies gets h
    cases h
    exact ⟨rfl, Run.nil _⟩
  | cons p ps ih =>
    intro w w' replies gets h
    rw [runPackets] at h
    obtain ⟨t, ht, h⟩ := bind_eq_ok.mp h
    have hget : p.isGet = true ↔ t = .get := by
      rw [isGet_iff_getType, ht, Except.ok.injEq]
    rw [List.flatMap_cons, List.map_append, Packet.ops, ht]
    cases t with
    | set =>
      obtain ⟨⟨w₁, kvs⟩, hset, h⟩ := bind_eq_ok.mp h
      obtain ⟨hgets, hrun⟩ := ih h
      rw [List.filter_cons_of_neg (by simp [hget])]
      exact ⟨hgets, (run_of_setKeys hset).append hrun⟩
    | increment =>
      obtain ⟨⟨w₁, replies₁, gets₁⟩, hrest, h⟩ := bind_eq_ok.mp h
      cases h
      obtain ⟨hgets, hrun⟩ := ih hrest
      rw [List.filter_cons_of_neg (by simp [hget])]
      exact ⟨hgets, run_of_incrKeys.append hrun⟩
    | get =>
      obtain ⟨⟨w₁, replies₁, gets₁⟩, hrest, h⟩ := bind_eq_ok.mp h
      cases h
      obtain ⟨rfl, hrun⟩ := ih hrest
      rw [List.filter_cons_of_pos (hget.mpr rfl)]
      exact ⟨rfl, hrun⟩
    | serverList =>
      obtain ⟨hgets, hrun⟩ := ih h
      rw [List.filter_cons_of_neg (by simp [hget])]
      exact ⟨hgets, hrun⟩
    | stats =>
      obtain ⟨hgets, hrun⟩ := ih h
      rw [List.filter_cons_of_neg (by simp [hget])]
      exact ⟨hgets, hrun⟩

/-- **A turn of `ProcessPackets` is the run of its operations**, and the answers to its GET packets
are the last packets it sends. -/
theorem run_of_processPackets {batch out : List Packet}
    (h : processPackets lib w batch = .ok (w', out)) :
    ∃ ls, ls.map Prod.fst = batchOps batch ∧ Run (OpStep lib) w ls w' ∧
      ls.flatMap Prod.snd <:+ out := by
  obtain ⟨⟨w₁, replies, gets⟩, hpackets, h⟩ := bind_eq_ok.mp h
  obtain ⟨rfl, hrun⟩ := run_of_runPackets hpackets
  dsimp only at h
  have hops : ((batch.flatMap Packet.ops).map fun op ↦ (op, ([] : List Packet))).map Prod.fst
      = batch.flatMap Packet.ops := by
    rw [List.map_map]
    exact List.map_id _
  have hnil : ((batch.flatMap Packet.ops).map fun op ↦ (op, ([] : List Packet))).flatMap Prod.snd
      = [] := by
    simp
  rw [batchOps]
  by_cases hgets : batch.filter Packet.isGet = []
  · rw [if_pos hgets] at h ⊢
    cases h
    exact ⟨_, by rw [hops, List.append_nil], hrun, by rw [hnil]; exact List.nil_suffix⟩
  · rw [if_neg hgets] at h ⊢
    obtain ⟨⟨w₂, answers⟩, hans, h⟩ := bind_eq_ok.mp h
    cases h
    have hstep : OpStep lib w₁ (.get (batch.filter Packet.isGet), answers) w₂ := hans
    refine ⟨_, ?_, hrun.snoc hstep, ?_⟩
    · rw [List.map_append, hops]
      rfl
    · rw [List.flatMap_append, hnil, List.nil_append, List.flatMap_singleton]
      exact List.suffix_append _ _

/-! ## Whole runs -/

/-- Memcached after a sequence of operations. -/
def memcRun (s : Store) (ops : List Op) : Store := ops.foldl Op.memcAfter s

/-- The answers of a sequence of operations, from memcached's contents alone. -/
def memcAnswers : Store → List Op → List (List (List Bytes × List KeyValue))
  | _, [] => []
  | s, op :: ops => op.answersAt s :: memcAnswers (op.memcAfter s) ops

/-- The answers along a run. -/
def answersOf (ls : List (Op × List Packet)) : List (List (List Bytes × List KeyValue)) :=
  ls.map fun l ↦ l.2.map Packet.answers

theorem memcAnswers_concat (ops : List Op) (op : Op) : ∀ s,
    memcAnswers s (ops ++ [op]) = memcAnswers s ops ++ [op.answersAt (memcRun s ops)] := by
  induction ops with
  | nil => exact fun _ ↦ rfl
  | cons op' ops ih =>
    intro s
    rw [List.cons_append, memcAnswers, ih]
    rfl

/-- **A run keeps the agreement** off the stale keys, and memcached is what it would be alone. -/
theorem agreeOn_of_run {ls : List (Op × List Packet)} {s s' : Tracked}
    (hs : s.stores.AgreeOn s.staleᶜ) (hrun : Run (TrackedStep lib) s ls s') :
    s'.stores.AgreeOn s'.staleᶜ ∧ s'.stores.memc = memcRun s.stores.memc (ls.map Prod.fst) := by
  induction hrun with
  | nil => exact ⟨hs, rfl⟩
  | snoc _ hstep ih =>
    obtain ⟨hagree, hmemc⟩ := ih
    obtain ⟨hagree', hmemc'⟩ := hstep.agreeOn hagree
    refine ⟨hagree', ?_⟩
    rw [hmemc', hmemc, List.map_append, memcRun, memcRun, List.foldl_append]
    rfl

/-- **A run that asks for nothing stale refines memcached alone**: its answers are those of
memcached without a cache. -/
theorem run_refines_memc {ls : List (Op × List Packet)} {s s' : Tracked}
    (hs : s.stores.AgreeOn s.staleᶜ) (hrun : Run (Guarded (TrackedStep lib) AsksFresh) s ls s') :
    answersOf ls = memcAnswers s.stores.memc (ls.map Prod.fst) := by
  induction hrun with
  | nil => rfl
  | snoc hrun hstep ih =>
    obtain ⟨hagree, hmemc⟩ := agreeOn_of_run hs hrun.of_guarded
    rw [List.map_append, answersOf, List.map_append, ← answersOf, ih, List.map_singleton,
      List.map_singleton, memcAnswers_concat, hstep.1.answers hagree hstep.2, hmemc]

/-- Without a cache every sequence of operations runs through, if the keys it asks for are plain. -/
theorem exists_run_of_cache_eq_none (ops : List Op) : ∀ (s : Store),
    (∀ packets, Op.get packets ∈ ops → PlainKeys packets) →
      ∃ ls, ls.map Prod.fst = ops ∧ Run (OpStep lib) ⟨none, s⟩ ls ⟨none, memcRun s ops⟩ ∧
        answersOf ls = memcAnswers s ops := by
  intro s hplain
  -- from the end, since what the last operation meets is `memcRun` of the others
  induction ops using List.reverseRecOn with
  | nil => exact ⟨[], rfl, Run.nil _, rfl⟩
  | append_singleton ops op ih =>
    obtain ⟨ls, hls, hrun, hans⟩ := ih fun packets h ↦ hplain packets (List.mem_append_left _ h)
    have hstep : ∃ r, OpStep lib ⟨none, memcRun s ops⟩ (op, r)
        ⟨none, op.memcAfter (memcRun s ops)⟩ ∧
          r.map Packet.answers = op.answersAt (memcRun s ops) := by
      cases op with
      | set kv =>
        refine ⟨[], ?_, rfl⟩
        rw [OpStep, Op.exec, setKey, Op.memcAfter]
        by_cases hno : kv.noPropagate = true
        · simp only [hno]
          rfl
        · simp only [hno]
          rfl
      | incr kv => exact ⟨[], rfl, rfl⟩
      | get packets =>
        have hp := hplain packets (by simp)
        obtain ⟨r, hr⟩ := exists_answerGets (w := ⟨none, memcRun s ops⟩) rfl hp
        have hagree : Stores.AgreeOn ⟨none, memcRun s ops⟩ Set.univ :=
          Stores.agreeOn_of_cache_eq_none rfl Set.univ
        have hanswers := answerGets_spec hagree hp (fun _ _ ↦ trivial) hr
        exact ⟨r, hr, hanswers⟩
      | tick n => exact ⟨[], rfl, rfl⟩
    obtain ⟨r, hstep, hr⟩ := hstep
    refine ⟨ls ++ [(op, r)], by rw [List.map_append, hls]; rfl, ?_, ?_⟩
    · rw [memcRun, List.foldl_append]
      exact hrun.snoc hstep
    · rw [answersOf, List.map_append, ← answersOf, hans, memcAnswers_concat, ← hr]
      rfl

/-- Execute a sequence of operations. -/
def runOps (lib : Libmemcached) :
    Stores → List Op → Except Fault (Stores × List (Op × List Packet))
  | w, [] => .ok (w, [])
  | w, op :: ops => do
    let (w, r) ← op.exec lib w
    let (w, ls) ← runOps lib w ops
    return (w, (op, r) :: ls)

theorem run_of_runOps {ops : List Op} : ∀ {w w' : Stores} {ls : List (Op × List Packet)},
    runOps lib w ops = .ok (w', ls) → Run (OpStep lib) w ls w' ∧ ls.map Prod.fst = ops := by
  induction ops with
  | nil =>
    intro w w' ls h
    cases h
    exact ⟨Run.nil _, rfl⟩
  | cons op ops ih =>
    intro w w' ls h
    obtain ⟨⟨w₁, r⟩, hstep, h⟩ := bind_eq_ok.mp h
    obtain ⟨⟨w₂, ls₂⟩, hrest, h⟩ := bind_eq_ok.mp h
    cases h
    obtain ⟨hrun, hops⟩ := ih hrest
    refine ⟨Run.cons (l := (op, r)) hstep hrun, ?_⟩
    rw [List.map_cons, hops]

/-- **The cache is transparent to a worker that asks for nothing stale.** The run with a cache of
any capacity and the run without one give the same answers to every GET: the same keys, with the
same values and flags. -/
theorem cache_transparent (lib : Libmemcached) (capacity : UInt64) (strHash : Bytes → ℕ)
    (memc : Store) {ls : List (Op × List Packet)} {s : Tracked}
    (hrun : Run (Guarded (TrackedStep lib) AsksFresh)
      { stores := ⟨some (Cache.new capacity strHash), memc⟩ } ls s) :
    ∃ ls', ls'.map Prod.fst = ls.map Prod.fst ∧
      Run (OpStep lib) ⟨none, memc⟩ ls' ⟨none, s.stores.memc⟩ ∧ answersOf ls' = answersOf ls := by
  have hans := run_refines_memc (Stores.agreeOn_new capacity strHash memc _) hrun
  obtain ⟨-, hmemc⟩ := agreeOn_of_run (Stores.agreeOn_new capacity strHash memc _) hrun.of_guarded
  have hplain : ∀ packets, Op.get packets ∈ ls.map Prod.fst → PlainKeys packets := by
    intro packets hmem
    obtain ⟨l, hl, hget⟩ := List.mem_map.mp hmem
    obtain ⟨u, hu⟩ := hrun.exists_guard hl
    rw [AsksFresh, hget] at hu
    exact hu.1
  obtain ⟨ls', hops, hrun', hans'⟩ := exists_run_of_cache_eq_none (ls.map Prod.fst) memc hplain
  exact ⟨ls', hops, hmemc ▸ hrun', hans'.trans hans.symm⟩

/-- A GET packet for one key. -/
def getPacket (k : Bytes) : Packet := { instruction := { getKeys := [{ key? := some k }] } }

/-- The answers along a run, one after the other. -/
def getAnswers (ls : List (Op × List Packet)) : List KeyValue :=
  ls.flatMap fun l ↦ l.2.flatMap fun p ↦ p.instruction.getKeys.map KeyValue.answer

/-- The run and the answers that an execution computes. -/
theorem exists_run_of_runOps {ops : List Op} {answers : List KeyValue}
    (h : ((runOps lib w ops).toOption.map fun r ↦ getAnswers r.2) = some answers) :
    ∃ ls w', Run (OpStep lib) w ls w' ∧ ls.map Prod.fst = ops ∧ getAnswers ls = answers := by
  obtain ⟨⟨w', ls⟩, hls, hans⟩ := Option.map_eq_some_iff.mp h
  cases hrun : runOps lib w ops with
  | error e =>
    rw [hrun] at hls
    cases hls
  | ok r =>
    rw [hrun] at hls
    cases hls
    obtain ⟨hrun, hops⟩ := run_of_runOps hrun
    exact ⟨ls, w', hrun, hops, hans⟩

/-- An unconditional SET item that is propagated and never expires. -/
structure KeyValue.PlainSet (kv : KeyValue) : Prop where
  cas : kv.cas = 0
  allowReplace : kv.allowReplace = true
  noPropagate : kv.noPropagate = false
  expire : kv.expireInSeconds = 0

theorem Store.held_put_of_plainSet {s : Store} {kv : KeyValue} (h : kv.PlainSet) :
    (s.put kv).1.held kv.key = some (kv.val, kv.flags) := by
  rw [Store.put, if_neg (by simp [h.cas]), if_neg (by simp [h.allowReplace]), Store.set]
  refine Store.held_write_self ?_
  rw [h.expire]
  rintro t ⟨⟩

/-- After such a SET its key is not stale. -/
theorem KeyValue.PlainSet.notMem_staleAfter {kv : KeyValue} (h : kv.PlainSet)
    (stale : Set Bytes) : kv.key ∉ (Op.set kv).staleAfter w stale := by
  rw [Op.staleAfter, Set.mem_ofPred_eq, if_pos rfl, not_not, Op.memcAfter,
    if_neg (by simp [h.noPropagate])]
  exact Store.held_put_of_plainSet h

theorem asksFresh_getPacket {s : Tracked} {r : List Packet} (hkey : PlainKey k)
    (hfresh : k ∉ s.stale) : AsksFresh s (.get [getPacket k], r) := by
  have hasked : ∀ p ∈ [getPacket k], ∀ kv ∈ p.instruction.getKeys, kv.key = k := by
    simp [getPacket, KeyValue.key]
  refine ⟨fun p hp kv hkv ↦ (hasked p hp kv hkv).symm ▸ hkey, ?_⟩
  rintro _ ⟨p, hp, kv, hkv, rfl⟩ -
  exact (hasked p hp kv hkv).symm ▸ hfresh

/-- The key `k` is set to `1`. -/
def setOne : KeyValue := { key? := some [107], val? := some [49] }

theorem plainSet_setOne : setOne.PlainSet := ⟨rfl, rfl, rfl, rfl⟩

/-- Another key is set to `2`. -/
def setTwo : KeyValue := { key? := some [106], val? := some [50] }

/-- The key `k` is incremented, which the cache does not see, and the other key is set and asked
for. -/
theorem cache_transparent_afterIncr : ∃ ls ls' w,
    Run (OpStep .inOrder) ⟨none, {}⟩ ls' ⟨none, w⟩ ∧
      ls.map Prod.fst = [.set setOne, .incr { key? := some [107], offset? := some 5 },
        .set setTwo, .get [getPacket [106]]] ∧
      getAnswers ls = [{ key? := some [106], val? := some [50], flags? := some 0 }] ∧
      answersOf ls' = answersOf ls := by
  obtain ⟨ls, w, hrun, hops, hans⟩ := exists_run_of_runOps
    (show ((runOps .inOrder ⟨some (Cache.new 0 fun _ ↦ 0), {}⟩
      ([.set setOne, .incr { key? := some [107], offset? := some 5 }] ++ [.set setTwo] ++
        [.get [getPacket [106]]])).toOption.map fun r ↦ getAnswers r.2) =
        some [{ key? := some [106], val? := some [50], flags? := some 0 }] by decide +kernel)
  obtain ⟨stale, htracked⟩ := exists_tracked hrun ∅
  obtain ⟨ls₁, ls₂, rfl, hops₁, hops₂⟩ := List.map_eq_append_iff.mp hops
  obtain ⟨ls₀, ls₁, rfl, hops₀, hops₁⟩ := List.map_eq_append_iff.mp hops₁
  obtain ⟨⟨_, r⟩, rfl, rfl⟩ := List.map_eq_singleton_iff.mp hops₁
  obtain ⟨⟨_, r'⟩, rfl, rfl⟩ := List.map_eq_singleton_iff.mp hops₂
  obtain ⟨s₂, hrun₂, hget⟩ := htracked.of_concat
  obtain ⟨s₁, hrun₁, hset⟩ := hrun₂.of_concat
  have hbefore : ∀ (s : Tracked), ∀ l ∈ ls₀, AsksFresh s l := by
    intro s l hl
    have hop : l.1 ∈ ls₀.map Prod.fst := List.mem_map_of_mem hl
    rw [hops₀] at hop
    rw [AsksFresh]
    rcases List.mem_pair.mp hop with hop | hop <;> rw [hop] <;> trivial
  have hplain : setTwo.PlainSet := ⟨rfl, rfl, rfl, rfl⟩
  have hfresh : AsksFresh s₂ (.get [getPacket [106]], r') :=
    asksFresh_getPacket (by decide) (hset.2 ▸ hplain.notMem_staleAfter s₁.stale)
  obtain ⟨ls', -, hrun', hans'⟩ := cache_transparent .inOrder 0 (fun _ ↦ 0) {}
    (((hrun₁.guarded_of_forall hbefore).snoc ⟨hset, trivial⟩).snoc ⟨hget, hfresh⟩)
  exact ⟨_, ls', w.memc, hrun', hops, hans, hans'⟩

/-- An INCREMENT does not reach the cache: after it, a cached key is still answered with the value
from before. -/
theorem cache_stale_after_incr :
    (∃ ls w, Run (OpStep .inOrder) ⟨some (Cache.new 0 fun _ ↦ 0), {}⟩ ls w ∧
      ls.map Prod.fst = [.set setOne, .incr { key? := some [107], offset? := some 5 },
        .get [getPacket [107]]] ∧
      getAnswers ls = [{ key? := some [107], val? := some [49], flags? := some 0 }]) ∧
    ∃ ls w, Run (OpStep .inOrder) ⟨none, {}⟩ ls w ∧
      ls.map Prod.fst = [.set setOne, .incr { key? := some [107], offset? := some 5 },
        .get [getPacket [107]]] ∧
      getAnswers ls = [{ key? := some [107], val? := some [54], flags? := some 0 }] :=
  ⟨exists_run_of_runOps (by decide +kernel), exists_run_of_runOps (by decide +kernel)⟩

/-! ## Rejected writes -/

/-- **A rejected write changes nothing if it would change nothing.** After any run, a SET item that
memcached rejects is not observed by any later GET if its value is empty or if memcached holds its
value and flags already: whatever is run afterwards is answered as if the item had not been
processed, as long as neither run asks for a key that has gone stale otherwise. -/
theorem rejected_set_unobserved (lib : Libmemcached) (capacity : UInt64) (strHash : Bytes → ℕ)
    (memc : Store) {ls ls₁ ls₂ : List (Op × List Packet)} {s u₁ u₂ : Tracked} {w₁ : Stores}
    {kv : KeyValue}
    (hrun : Run (TrackedStep lib) { stores := ⟨some (Cache.new capacity strHash), memc⟩ } ls s)
    (hprop : kv.noPropagate = false) (hrej : ¬s.stores.memc.Accepts kv)
    (hkv : kv.val = [] ∨ s.stores.memc.held kv.key = some (kv.val, kv.flags))
    (hset : OpStep lib s.stores (.set kv, []) w₁)
    (h₁ : Run (Guarded (TrackedStep lib) AsksFresh) ⟨w₁, s.stale \ {kv.key}⟩ ls₁ u₁)
    (h₂ : Run (Guarded (TrackedStep lib) AsksFresh) s ls₂ u₂)
    (hops : ls₁.map Prod.fst = ls₂.map Prod.fst) : answersOf ls₁ = answersOf ls₂ := by
  obtain ⟨hagree, -⟩ := agreeOn_of_run (Stores.agreeOn_new capacity strHash memc _) hrun
  -- The item leaves memcached as it was, and both runs answer as memcached does.
  have hsame : (Op.set kv).memcAfter s.stores.memc = s.stores.memc := by
    rcases s.stores.memc.put_cases kv with ⟨hacc, -⟩ | ⟨-, hput, -⟩
    · exact absurd hacc hrej
    · rw [Op.memcAfter, if_neg (by simp [hprop]), hput]
  -- The cache has the item as memcached has it, or not at all, so its key is stale no longer.
  have hrest : ∀ k ∈ (s.stale \ {kv.key})ᶜ, k ≠ kv.key → k ∈ s.staleᶜ :=
    fun k hk hne hstale ↦ hk ⟨hstale, hne⟩
  obtain ⟨hagree₁, hmemc₁, -⟩ := hagree.set hset hrest fun _ hne ↦ by
    rw [hsame]
    exact hkv.resolve_left hne
  rw [run_refines_memc hagree₁ h₁, run_refines_memc hagree h₂, hops, hmemc₁, hsame]

/-- The key `k` is added with the value `v`, if it is absent. -/
def addItem (v : Bytes) : KeyValue :=
  { key? := some [107], val? := some v, allowReplace? := some false }

/-- After `setOne` memcached holds the key, and rejects what is added to it. -/
private theorem not_accepts_addItem (v : Bytes) :
    ¬((Op.set setOne).memcAfter {}).Accepts (addItem v) := by
  have hitem : ((Op.set setOne).memcAfter {}).lookup [107] = some ⟨[49], 0, 1, none⟩ := by decide
  have hcas : ¬0 < (addItem v).cas := lt_irrefl 0
  rw [Store.Accepts, if_neg hcas]
  rintro (h | h)
  · cases h
  · exact absurd (hitem.symm.trans h) (by simp)

private theorem exists_runOps_eq_ok (lib : Libmemcached) (w : Stores) (ops : List Op)
    (h : (runOps lib w ops).toOption.isSome = true) : ∃ r, runOps lib w ops = .ok r := by
  cases hr : runOps lib w ops with
  | error e =>
    rw [hr] at h
    cases h
  | ok r => exact ⟨r, rfl⟩

private theorem step_of_runOps {op : Op} {ops : List Op} {r : Stores × List (Op × List Packet)}
    (h : runOps lib w (op :: ops) = .ok r) :
    ∃ w₁ r₁ r', OpStep lib w (op, r₁) w₁ ∧ runOps lib w₁ ops = .ok r' := by
  obtain ⟨⟨w₁, r₁⟩, hstep, h⟩ := bind_eq_ok.mp h
  obtain ⟨r', hrest, -⟩ := bind_eq_ok.mp h
  exact ⟨w₁, r₁, r', hstep, hrest⟩

/-- The item that is rejected carries the value that is held. -/
theorem rejected_set_unobserved_same : ∃ w w₁ r₁ r₂ u₁ u₂,
    ¬w.memc.Accepts (addItem [49]) ∧ OpStep .inOrder w (.set (addItem [49]), []) w₁ ∧
      OpStep .inOrder w₁ (.get [getPacket [107]], r₁) u₁ ∧
      OpStep .inOrder w (.get [getPacket [107]], r₂) u₂ ∧
      r₁.map Packet.answers = r₂.map Packet.answers := by
  obtain ⟨r, hr⟩ := exists_runOps_eq_ok .inOrder ⟨some (Cache.new 0 fun _ ↦ 0), {}⟩
    [.set setOne, .set (addItem [49]), .get [getPacket [107]]] (by decide +kernel)
  obtain ⟨r', hr'⟩ := exists_runOps_eq_ok .inOrder ⟨some (Cache.new 0 fun _ ↦ 0), {}⟩
    [.set setOne, .get [getPacket [107]]] (by decide +kernel)
  obtain ⟨w, r₀, r, hw, hr⟩ := step_of_runOps hr
  obtain ⟨w₁, r₁, r, hw₁, hr⟩ := step_of_runOps hr
  obtain ⟨u₁, r₂, -, hu₁, -⟩ := step_of_runOps hr
  obtain ⟨w', r₀', r', hw', hr'⟩ := step_of_runOps hr'
  obtain ⟨u₂, r₃, -, hu₂, -⟩ := step_of_runOps hr'
  obtain ⟨rfl, rfl⟩ := Prod.ext_iff.mp (Except.ok.inj (hw.symm.trans hw'))
  obtain rfl : [] = r₁ := by
    obtain ⟨_, -, h⟩ := bind_eq_ok.mp hw₁
    exact (Prod.ext_iff.mp (Except.ok.inj h)).2
  have htracked : TrackedStep .inOrder { stores := ⟨some (Cache.new 0 fun _ ↦ 0), {}⟩ }
      (.set setOne, r₀)
      ⟨w, (Op.set setOne).staleAfter ⟨some (Cache.new 0 fun _ ↦ 0), {}⟩ ∅⟩ := ⟨hw, rfl⟩
  obtain ⟨-, hmemc⟩ :=
    htracked.agreeOn (l := (.set setOne, r₀)) (Stores.agreeOn_new 0 (fun _ ↦ 0) {} _)
  have hrej : ¬w.memc.Accepts (addItem [49]) := by
    rw [hmemc]
    exact not_accepts_addItem [49]
  have hheld : w.memc.held [107] = some ([49], 0) := by
    rw [hmemc]
    exact Store.held_put_of_plainSet plainSet_setOne
  have hfresh : [107] ∉ (Op.set setOne).staleAfter ⟨some (Cache.new 0 fun _ ↦ 0), {}⟩ ∅ :=
    plainSet_setOne.notMem_staleAfter ∅
  have hstored : [107] ∉ (Op.set setOne).staleAfter ⟨some (Cache.new 0 fun _ ↦ 0), {}⟩ ∅ \
      {(addItem [49]).key} := fun h ↦ hfresh h.1
  have hans := rejected_set_unobserved .inOrder 0 (fun _ ↦ 0) {}
    (Run.single htracked) rfl hrej (Or.inr hheld) hw₁
    (Run.single (l := (.get [getPacket [107]], r₂)) (t := ⟨u₁, _⟩)
      ⟨⟨hu₁, rfl⟩, asksFresh_getPacket (by decide) hstored⟩)
    (Run.single (l := (.get [getPacket [107]], r₃)) (t := ⟨u₂, _⟩)
      ⟨⟨hu₂, rfl⟩, asksFresh_getPacket (by decide) hfresh⟩) rfl
  exact ⟨w, w₁, r₂, r₃, u₁, u₂, hrej, hw₁, hu₁, hu₂, List.head_eq_of_cons_eq hans⟩

/-- A rejected write is observed: the value that memcached refused to add is returned by the next
GET, where the value from before would have been. -/
theorem rejected_set_observed :
    ¬(memcRun {} [.set setOne]).Accepts (addItem [50]) ∧
    (∃ ls w, Run (OpStep .inOrder) ⟨some (Cache.new 0 fun _ ↦ 0), {}⟩ ls w ∧
      ls.map Prod.fst = [.set setOne, .set (addItem [50]), .get [getPacket [107]]] ∧
      getAnswers ls = [{ key? := some [107], val? := some [50], flags? := some 0 }]) ∧
    ∃ ls w, Run (OpStep .inOrder) ⟨some (Cache.new 0 fun _ ↦ 0), {}⟩ ls w ∧
      ls.map Prod.fst = [.set setOne, .get [getPacket [107]]] ∧
      getAnswers ls = [{ key? := some [107], val? := some [49], flags? := some 0 }] :=
  ⟨not_accepts_addItem [50], exists_run_of_runOps (by decide +kernel),
    exists_run_of_runOps (by decide +kernel)⟩

end MemcacheRouter
