import MemcacheRouter.Client.Agreement
import MemcacheRouter.Router.Batches

/-!
# Batches and single packets

One worker, no cache, and a memcached that nobody else writes. The worker pops whatever batches the
queue forms and merges the GET packets of a batch into one request, whose results it scatters back
over the packets. The specification has no batches: it takes one packet after the other.

Both compute the same. Without a cache the map that `GetKeys` fills depends on memcached's contents
alone, entry by entry, so the answer to a packet does not depend on what else is in the batch; and a
batch with anything but GET packets is a single packet. Time may pass between two batches, and the
specification sees it pass at the same place.
-/

open Transition

namespace MemcacheRouter

/-! ## What a GET fills in -/

/-- The entry of a key after `GetKeys`, from memcached's contents alone. -/
def Libmemcached.entryFor (lib : Libmemcached) (s : Store) (k : Bytes) : KeyValue :=
  match s.lookup k with
  | none => {}
  | some it => lib.fetched {} it

/-- The reply to a GET packet, from memcached's contents alone. -/
def Libmemcached.reply (lib : Libmemcached) (s : Store) (p : Packet) : Packet :=
  { p with instruction := { p.instruction with
    getKeys := p.instruction.getKeys.map fun kv ↦ kv.mergeFrom (lib.entryFor s kv.key) } }

variable {lib : Libmemcached} {w w' : Stores} {m : KeyMap}

/-- A message in which a result leaves nothing of what was there. -/
def Libmemcached.Blank (lib : Libmemcached) (kv : KeyValue) : Prop :=
  ∀ it, lib.fetched kv it = lib.fetched {} it

theorem Libmemcached.blank_fetched (it : Item) : lib.Blank (lib.fetched {} it) := fun _ ↦ rfl

/-- **The second loop of `GetKeys`, without a cache.** The keys that have a result get their entry,
in whatever order the results come, and the others stay as they were. -/
theorem fillKeys_eq (hw : w.cache = none) {rs : List (Bytes × Item)} :
    ∀ {m : KeyMap}, (∀ e ∈ m, lib.Blank e.2) →
      (∀ r ∈ rs, r.1 ∈ m.map Prod.fst ∧ w.memc.lookup r.1 = some r.2) →
      fillKeys lib rs w m = .ok (w, m.map fun e ↦
        if e.1 ∈ rs.map Prod.fst then (e.1, lib.entryFor w.memc e.1) else e) := by
  induction rs with
  | nil =>
    intro m _ _
    simp [fillKeys]
  | cons r rs ih =>
    intro m hm hrs
    obtain ⟨hmem, hr⟩ := hrs r List.mem_cons_self
    obtain ⟨kv, hkv⟩ := KeyMap.exists_lookup hmem
    have hentry : lib.fetched kv r.2 = lib.entryFor w.memc r.1 := by
      rw [hm _ (KeyMap.mem_of_lookup hkv), Libmemcached.entryFor, hr]
    have hfill : fillKey lib w m r = .ok (w, m.assign r.1 (lib.entryFor w.memc r.1)) := by
      rw [fillKey, hkv]
      simp only [hentry, Stores.cacheAdd, hw, bind, Except.bind]
      rfl
    have hblank : ∀ e ∈ m.assign r.1 (lib.entryFor w.memc r.1), lib.Blank e.2 := by
      intro e he
      obtain ⟨e₀, he₀, rfl⟩ := List.mem_map.mp he
      split_ifs
      · rw [Libmemcached.entryFor, hr]
        exact Libmemcached.blank_fetched r.2
      · exact hm e₀ he₀
    have hrest : ∀ r' ∈ rs, r'.1 ∈ (m.assign r.1 (lib.entryFor w.memc r.1)).map Prod.fst ∧
        w.memc.lookup r'.1 = some r'.2 := by
      intro r' hr'
      rw [KeyMap.map_fst_assign]
      exact hrs r' (List.mem_cons_of_mem _ hr')
    rw [fillKeys, hfill]
    refine (ih hblank hrest).trans ?_
    rw [KeyMap.assign, List.map_map]
    refine congrArg (fun m ↦ Except.ok (w, m)) (List.map_congr_left fun e _ ↦ ?_)
    -- the entry of this result, or one that only the later results can touch
    by_cases he : e.1 = r.1
    · simp [he]
    · rw [Function.comp_apply, if_neg he, List.map_cons]
      refine if_congr ?_ rfl rfl
      rw [List.mem_cons, or_iff_right he]

/-- **`GetKeys` without a cache.** Every entry is filled from memcached's contents. -/
theorem getKeys_eq (hw : w.cache = none) (hm : m.Plain) :
    getKeys lib w m = .ok (w, m.map fun e ↦ (e.1, lib.entryFor w.memc e.1)) := by
  rw [getKeys, lookupKeys_of_cache_eq_none hw, hm.map_copyKey]
  simp only [bind, Except.bind]
  split_ifs with hnil haccepted
  · rw [List.map_eq_nil_iff.mp hnil]
    rfl
  · have hmget : ∀ r ∈ lib.fetchOrder (w.memc.mget (m.map Prod.fst)),
        r.1 ∈ m.map Prod.fst ∧ w.memc.lookup r.1 = some r.2 := by
      intro r hr
      exact Store.mem_mget.mp ((lib.fetchOrder_perm _).mem_iff.mp hr)
    have hblank : ∀ e ∈ m, lib.Blank e.2 := by
      intro e he it
      rw [(hm e he).1]
    rw [fillKeys_eq hw hblank hmget]
    refine congrArg (fun m ↦ Except.ok (w, m)) (List.map_congr_left fun e he ↦ ?_)
    split_ifs with hres
    · rfl
    · -- a key that was asked for and has no result is absent
      have habsent : w.memc.lookup e.1 = none := by
        by_contra hsome
        obtain ⟨it, hit⟩ := Option.ne_none_iff_exists'.mp hsome
        refine hres (List.mem_map.mpr ⟨(e.1, it), ?_, rfl⟩)
        rw [(lib.fetchOrder_perm _).mem_iff, Store.mem_mget]
        exact ⟨List.mem_map_of_mem he, hit⟩
      rw [Libmemcached.entryFor, habsent, ← (hm e he).1]
  · exact absurd hm.mgetReturn haccepted

theorem KeyMap.lookup_map {k : Bytes} (f : Bytes → KeyValue) (h : k ∈ m.map Prod.fst) :
    (m.map fun e ↦ (e.1, f e.1)).lookup k = some (f k) := by
  induction m with
  | nil => cases h
  | cons e m ih =>
    rw [List.map_cons, List.lookup_cons]
    by_cases he : k = e.1
    · simp [he]
    · rw [beq_eq_false_iff_ne.mpr he]
      exact ih ((List.mem_cons.mp h).resolve_left he)

theorem mapM_eq_ok {α β : Type} {f : α → Except Fault β} {g : α → β} {l : List α}
    (h : ∀ a ∈ l, f a = .ok (g a)) : l.mapM f = .ok (l.map g) := by
  induction l with
  | nil => rfl
  | cons a l ih =>
    rw [List.mapM_cons, h a List.mem_cons_self, ih fun b hb ↦ h b (List.mem_cons_of_mem _ hb)]
    rfl

/-- **A batch of GET packets without a cache.** Every packet gets the reply it would get alone. -/
theorem answerGets_eq {packets : List Packet} (hw : w.cache = none) (hp : PlainKeys packets) :
    answerGets lib w packets = .ok (w, packets.map (lib.reply w.memc)) := by
  rw [answerGets, getKeys_eq hw (plain_keysOf hp)]
  refine bind_eq_ok.mpr ⟨_, rfl, bind_eq_ok.mpr ⟨_, mapM_eq_ok fun p hpm ↦ ?_, rfl⟩⟩
  refine bind_eq_ok.mpr ⟨_, mapM_eq_ok fun kv hkv ↦ ?_, rfl⟩
  rw [mergeKey, KeyMap.lookup_map _ (key_mem_keysOf hpm hkv)]

/-! ## A batch is as good as its packets -/

/-- The packets that may be sent: they ask for something, and the keys to get are plain. -/
structure Packet.Sendable (p : Packet) : Prop where
  type : ∃ t, p.getType = .ok t
  plain : ∀ kv ∈ p.instruction.getKeys, PlainKey kv.key

/-- What happens, seen from memcached: a packet is processed, or time passes. -/
inductive Event where
  | packet (p : Packet)
  | tick (seconds : ℕ)

/-- The packet of an event. -/
def Event.packet? : Event → Option Packet
  | .packet p => some p
  | .tick _ => none

/-- **The specification**: one packet after the other. -/
def sequential (lib : Libmemcached) : List Event → Stores → Except Fault (Stores × List Packet)
  | [], w => .ok (w, [])
  | .packet p :: es, w => do
    let (w, replies) ← processPackets lib w [p]
    let (w, replies') ← sequential lib es w
    return (w, replies ++ replies')
  | .tick n :: es, w => sequential lib es { w with memc := w.memc.tick n }

theorem sequential_append {es es' : List Event} {r r' : List Packet} {w'' : Stores}
    (h : sequential lib es w = .ok (w', r)) (h' : sequential lib es' w' = .ok (w'', r')) :
    sequential lib (es ++ es') w = .ok (w'', r ++ r') := by
  induction es generalizing w r with
  | nil =>
    cases h
    exact h'
  | cons e es ih =>
    rcases e with p | n
    · rw [sequential] at h
      obtain ⟨⟨w₁, r₁⟩, hp, h⟩ := bind_eq_ok.mp h
      obtain ⟨⟨w₂, r₂⟩, hes, h⟩ := bind_eq_ok.mp h
      cases h
      rw [List.append_assoc]
      exact bind_eq_ok.mpr ⟨_, hp, bind_eq_ok.mpr ⟨_, ih hes, rfl⟩⟩
    · exact ih h

/-- GET packets are all put aside. -/
theorem runPackets_gets {batch : List Packet} (h : ∀ p ∈ batch, p.isGet = true) :
    runPackets lib batch w = .ok (w, [], batch) := by
  induction batch with
  | nil => rfl
  | cons p ps ih =>
    have hp : p.getType = .ok .get := isGet_iff_getType.mp (h p List.mem_cons_self)
    rw [runPackets, hp, ih fun q hq ↦ h q (List.mem_cons_of_mem _ hq)]
    rfl

/-- **A batch of GET packets**, of any length. -/
theorem processPackets_gets {batch : List Packet} (hw : w.cache = none)
    (hget : ∀ p ∈ batch, p.isGet = true) (hp : PlainKeys batch) :
    processPackets lib w batch = .ok (w, batch.map (lib.reply w.memc)) := by
  rw [processPackets, runPackets_gets hget]
  simp only [bind, Except.bind]
  split_ifs with hnil
  · rw [hnil]
    rfl
  · rw [answerGets_eq hw hp]
    rfl

theorem exists_setKeys (lib : Libmemcached) (hw : w.cache = none) (kvs : List KeyValue) :
    ∃ memc kvs', setKeys lib kvs w = .ok (⟨none, memc⟩, kvs') := by
  obtain ⟨cache, memc⟩ := w
  obtain rfl : cache = none := hw
  induction kvs generalizing memc with
  | nil => exact ⟨memc, [], rfl⟩
  | cons kv kvs ih =>
    have hkey : ∃ memc' kv', setKey lib ⟨none, memc⟩ kv = .ok (⟨none, memc'⟩, kv') := by
      simp only [setKey, Stores.cacheAdd, bind, Except.bind]
      split_ifs
      · exact ⟨_, _, rfl⟩
      · exact ⟨_, _, rfl⟩
    obtain ⟨memc', kv', hkey⟩ := hkey
    obtain ⟨memc'', kvs', hkvs⟩ := ih memc'
    exact ⟨memc'', kv' :: kvs', bind_eq_ok.mpr ⟨_, hkey, bind_eq_ok.mpr ⟨_, hkvs, rfl⟩⟩⟩

theorem cache_incrKeys (kvs : List KeyValue) (w : Stores) :
    (incrKeys lib kvs w).1.cache = w.cache := by
  induction kvs generalizing w with
  | nil => rfl
  | cons kv kvs ih => exact ih _

/-- A packet other than a GET never fails without a cache. -/
theorem exists_processPackets_of_not_get (lib : Libmemcached) {p : Packet} (hw : w.cache = none)
    (hp : ∃ t, p.getType = .ok t) (hget : p.isGet = false) :
    ∃ w' r, processPackets lib w [p] = .ok (w', r) ∧ w'.cache = none := by
  obtain ⟨t, ht⟩ := hp
  simp only [processPackets, runPackets, ht, bind, Except.bind]
  rcases t with _ | _ | _ | _ | _
  · rw [isGet_iff_getType.mpr ht] at hget
    cases hget
  · obtain ⟨memc, kvs', hset⟩ := exists_setKeys lib hw p.instruction.setKeys
    simp only [hset]
    exact ⟨_, _, rfl, rfl⟩
  · exact ⟨_, _, rfl, (cache_incrKeys _ _).trans hw⟩
  · exact ⟨_, _, rfl, hw⟩
  · exact ⟨_, _, rfl, hw⟩

theorem sequential_gets {batch : List Packet} (hw : w.cache = none)
    (hget : ∀ p ∈ batch, p.isGet = true) (hp : PlainKeys batch) :
    sequential lib (batch.map .packet) w = .ok (w, batch.map (lib.reply w.memc)) := by
  induction batch with
  | nil => rfl
  | cons p ps ih =>
    have hone : processPackets lib w [p] = .ok (w, [lib.reply w.memc p]) := processPackets_gets hw
      (List.forall_mem_singleton.mpr (hget p List.mem_cons_self))
      (fun q hq ↦ hp q (List.mem_singleton.mp hq ▸ List.mem_cons_self))
    have hrest := ih (fun q hq ↦ hget q (List.mem_cons_of_mem _ hq))
      (fun q hq ↦ hp q (List.mem_cons_of_mem _ hq))
    exact bind_eq_ok.mpr ⟨_, hone, bind_eq_ok.mpr ⟨_, hrest, rfl⟩⟩

/-- **A legal batch is as good as its packets, one after the other.** -/
theorem processPackets_eq_sequential {batch : List Packet} (hw : w.cache = none)
    (hlegal : LegalBatch batch) (hsend : ∀ p ∈ batch, p.Sendable) :
    ∃ w' r, processPackets lib w batch = .ok (w', r) ∧
      sequential lib (batch.map .packet) w = .ok (w', r) ∧ w'.cache = none := by
  rcases hlegal with ⟨p, rfl, hget⟩ | ⟨-, hget, -⟩
  · obtain ⟨w', r, hone, hw'⟩ := exists_processPackets_of_not_get lib hw
      (hsend p List.mem_cons_self).type hget
    refine ⟨w', r, hone, bind_eq_ok.mpr ⟨_, hone, bind_eq_ok.mpr ⟨(w', []), rfl, ?_⟩⟩, hw'⟩
    show Except.ok (w', r ++ []) = _
    rw [List.append_nil]
  · have hplain : PlainKeys batch := fun p hp ↦ (hsend p hp).plain
    exact ⟨_, _, processPackets_gets hw hget hplain, sequential_gets hw hget hplain, hw⟩

/-! ## One worker -/

/-- The queue, one worker and its stores. The replies are those sent so far, and the events are what
memcached has seen so far. -/
structure Worker where
  log : QueueLog := {}
  stores : Stores
  /-- The batch that the worker has popped and not processed yet. -/
  batch : Option (List Packet) := none
  replies : List Packet := []
  events : List Event := []

/-- The queue moves, the worker processes its batch, or time passes. -/
inductive WorkerAction where
  | queue (a : QueueAction)
  | process
  | tick (seconds : ℕ)

namespace Worker

/-- The worker is thread 0, and calls `BlockingPop` when it has processed the batch before. -/
def mayMove (s : Worker) : QueueAction → Bool
  | .enter i => i = 0 && s.batch.isNone
  | _ => true

/-- The batch that the worker has after a step of the queue. -/
def batchAfter (s : Worker) : QueueAction → Option (List Packet)
  | .finish _ _ => some s.log.queue.returned
  | _ => s.batch

/-- One step of the queue. -/
def queueStep (s : Worker) (a : QueueAction) : Option Worker :=
  if s.mayMove a then
    (s.log.step a).map fun log ↦ { s with log := log, batch := s.batchAfter a }
  else none

/-- One step. A fault in `ProcessPackets` stops the worker. -/
def step (lib : Libmemcached) (s : Worker) : WorkerAction → Option Worker
  | .queue a => s.queueStep a
  | .process => s.batch.bind fun batch ↦
    (processPackets lib s.stores batch).toOption.map fun r ↦ { s with
      stores := r.1
      batch := none
      replies := s.replies ++ r.2
      events := s.events ++ batch.map .packet }
  | .tick n => some { s with
      stores := { s.stores with memc := s.stores.memc.tick n }
      events := s.events ++ [.tick n] }

/-- `Push` of packets that may be sent, and `BlockingPop`. -/
def Sends (_ : Worker) : WorkerAction → Prop
  | .queue a => QueueLog.PushesOrPops a ∧ ∀ p notified, a = .push p notified → p.Sendable
  | _ => True

end Worker

/-- A thread outside `BlockingPop` stays outside until it enters. -/
theorem PCQueue.out_of_moves {q q' : PCQueue} {a : QueueAction} {i : ℕ} (hq : q.WaitSetOk)
    (h : q.Moves a q') (hi : q.pc i = .out) (ha : a ≠ .enter i) : q'.pc i = .out := by
  have hgoto : ∀ j pc, q.pc j ≠ .out → (q.goto j pc).pc i = .out := by
    intro j pc hj
    rw [pc_goto, if_neg, hi]
    rintro rfl
    exact hj hi
  have hblocked : ∀ j ∈ q.waitSet, q.pc j ≠ .out := by
    intro j hj
    rw [(hq.mem_iff j).mp hj]
    simp
  have hnotify : ∀ {q₁ q₂ : PCQueue} {notified : Option ℕ}, q₁.notifyOne notified = some q₂ →
      q₁.waitSet = q.waitSet → q₁.pc i = .out → q₂.pc i = .out := by
    intro q₁ q₂ notified h hset hpc
    rcases notifyOne_cases h with ⟨-, -, rfl⟩ | ⟨j, hj, -, rfl⟩
    · exact hpc
    · rw [pc_wake, if_neg, hpc]
      rintro rfl
      exact hblocked i (hset ▸ hj) hi
  cases h with
  | @enter j _ =>
    rw [pc_goto, if_neg, hi]
    rintro rfl
    exact ha rfl
  | acquire _ hj => exact hgoto _ _ (by rcases hj with hj | hj <;> simp [hj])
  | mustWait hj _ => exact hgoto _ _ (by simp [hj])
  | mayPop hj _ => exact hgoto _ _ (by simp [hj])
  | wait hj => exact hgoto _ _ (by simp [hj])
  | spurious hj => exact hgoto _ _ (hblocked _ hj)
  | stopped hj _ => exact hgoto _ _ (by simp [hj])
  | popAll hj _ _ => exact hgoto _ _ (by simp [hj])
  | popSome hj _ _ hn => exact hnotify hn rfl (hgoto _ _ (by simp [hj]))
  | push _ hn => exact hnotify hn rfl hi
  | unblockFlag => exact hi
  | unblockNotify _ =>
    show (if i ∈ q.waitSet then _ else q.pc i) = _
    rw [if_neg fun hmem ↦ hblocked i hmem hi, hi]
  | reset => exact hi

/-- A thread that has popped is outside `BlockingPop`. -/
theorem PCQueue.out_of_finish {q q' : PCQueue} {i : ℕ} {notified : Option ℕ} (hq : q.WaitSetOk)
    (h : q.Moves (.finish i notified) q') : q'.pc i = .out := by
  cases h with
  | stopped => exact (q.pc_goto i i _).trans (if_pos rfl)
  | popAll => exact (q.pc_goto i i _).trans (if_pos rfl)
  | popSome hi _ _ hnotify =>
    rcases notifyOne_cases hnotify with ⟨-, -, rfl⟩ | ⟨j, hj, -, rfl⟩
    · exact (q.pc_goto i i _).trans (if_pos rfl)
    · rw [pc_wake, if_neg]
      · exact (q.pc_goto i i _).trans (if_pos rfl)
      · rintro rfl
        rw [(hq.mem_iff i).mp hj] at hi
        cases hi

namespace Worker

/-- The invariant: the worker is the only thread, it is outside the queue while it has a batch, and
the packets that left the queue are those the specification has seen, in the same order. -/
structure Matches (lib : Libmemcached) (w : Stores) (s : Worker) : Prop where
  faithful : s.log.Faithful
  waitSet : s.log.queue.WaitSetOk
  done : s.log.queue.done = false
  alone : ∀ i ≠ 0, s.log.queue.pc i = .out
  busy : s.batch ≠ none → s.log.queue.pc 0 = .out
  popped : (s.log.pops.map Popped.batch).flatten
    = s.events.filterMap Event.packet? ++ s.batch.getD []
  legal : ∀ b, s.batch = some b → LegalBatch b
  sendable : ∀ p ∈ s.log.pushed, p.Sendable
  cache : s.stores.cache = none
  seq : sequential lib s.events w = .ok (s.stores, s.replies)

variable {s s' : Worker} {w₀ : Stores}

theorem matches_init (hw : w.cache = none) : Matches lib w { stores := w } where
  faithful := QueueLog.faithful_init
  waitSet := QueueLog.awake_init.waitSet
  done := rfl
  alone _ _ := rfl
  busy _ := rfl
  popped := rfl
  legal := by simp
  sendable := by simp
  cache := hw
  seq := rfl

/-- The packets of the batch were pushed. -/
theorem Matches.mem_pushed (hs : s.Matches lib w₀) {batch : List Packet} {p : Packet}
    (hb : s.batch = some batch) (hp : p ∈ batch) : p ∈ s.log.pushed := by
  rw [hs.faithful.conserved, hs.popped, hb]
  exact List.mem_append_left _ (List.mem_append_right _ hp)

/-- **The batch at hand is processed as the specification would.** -/
theorem Matches.processes (hs : s.Matches lib w₀) {batch : List Packet}
    (hb : s.batch = some batch) : ∃ w' r, processPackets lib s.stores batch = .ok (w', r) ∧
      sequential lib (batch.map .packet) s.stores = .ok (w', r) ∧ w'.cache = none :=
  processPackets_eq_sequential hs.cache (hs.legal batch hb) fun p hp ↦
    hs.sendable p (hs.mem_pushed hb hp)

theorem filterMap_packet (batch : List Packet) :
    (batch.map Event.packet).filterMap Event.packet? = batch := by
  rw [List.filterMap_map]
  exact List.filterMap_some

/-- **One step of the queue.** -/
theorem Matches.queueStep (hs : s.Matches lib w₀) {a : QueueAction}
    (h : s.queueStep a = some s') (ha : QueueLog.PushesOrPops a)
    (hpush : ∀ p notified, a = .push p notified → p.Sendable) : s'.Matches lib w₀ := by
  rw [Worker.queueStep] at h
  split_ifs at h with hmay
  obtain ⟨log, hlog, rfl⟩ := Option.map_eq_some_iff.mp h
  have hfaithful := hs.faithful.step hlog fun hreset ↦ absurd hreset ha.2.2
  have hset : log.queue.WaitSetOk := by
    obtain ⟨q, hq, rfl⟩ := Option.map_eq_some_iff.mp hlog
    exact hs.waitSet.step hq
  obtain ⟨q, hmoves, rfl⟩ := QueueLog.exists_moves hlog
  have hdone : q.done = false := (QueueLog.done_of_moves hmoves ha).trans hs.done
  have halone : ∀ i ≠ 0, q.pc i = .out := by
    intro i hi
    refine PCQueue.out_of_moves hs.waitSet hmoves (hs.alone i hi) ?_
    rintro rfl
    simp [mayMove, hi] at hmay
  have hsend : ∀ p ∈ (s.log.record a q).pushed, p.Sendable := by
    rcases a with _ | _ | _ | _ | _ | _ | ⟨p, notified⟩ | _ | _ | _
    case push =>
      intro p' hp'
      rcases List.mem_append.mp hp' with hp' | hp'
      · exact hs.sendable p' hp'
      · exact List.mem_singleton.mp hp' ▸ hpush p notified rfl
    all_goals exact hs.sendable
  -- a batch is handed over when a pop finishes, and only then
  by_cases hfinish : ∃ i notified, a = .finish i notified
  · obtain ⟨i, notified, rfl⟩ := hfinish
    have hpop : s.log.queue.pc i = .popping := by cases hmoves <;> assumption
    obtain rfl : i = 0 := by
      by_contra hi
      rw [hs.alone i hi] at hpop
      cases hpop
    have hnone : s.batch = none := by
      by_contra hbusy
      rw [hs.busy hbusy] at hpop
      cases hpop
    have hlegal := QueueLog.legal_of_finish hs.faithful.locked hmoves
    rw [hs.done] at hlegal
    refine ⟨hfaithful, hset, hdone, halone, fun _ ↦ ?_, ?_, ?_, hsend, hs.cache, hs.seq⟩
    · exact PCQueue.out_of_finish hs.waitSet hmoves
    · show ((s.log.pops ++ [_]).map Popped.batch).flatten = _ ++ s.log.queue.returned
      rw [List.map_append, List.flatten_append, hs.popped, hnone]
      simp
    · rintro _ ⟨⟩
      exact (hlegal.legal rfl).2
  · have hpops : (s.log.record a q).pops = s.log.pops := by
      cases a <;> first | rfl | exact absurd ⟨_, _, rfl⟩ hfinish
    have hbatch : s.batchAfter a = s.batch := by
      cases a <;> first | rfl | exact absurd ⟨_, _, rfl⟩ hfinish
    rw [hbatch]
    refine ⟨hfaithful, hset, hdone, halone, fun hbusy ↦ ?_, ?_, hs.legal, hsend, hs.cache, hs.seq⟩
    · refine PCQueue.out_of_moves hs.waitSet hmoves (hs.busy hbusy) ?_
      rintro rfl
      simp [mayMove, Option.isNone_iff_eq_none, hbusy] at hmay
    · rw [hpops]
      exact hs.popped

/-- **One step.** -/
theorem Matches.step (hs : s.Matches lib w₀) {a : WorkerAction} (h : s.step lib a = some s')
    (ha : s.Sends a) : s'.Matches lib w₀ := by
  rcases a with a | _ | n
  · exact hs.queueStep h ha.1 ha.2
  · obtain ⟨batch, hb, h⟩ := Option.bind_eq_some_iff.mp h
    obtain ⟨w', r, hproc, hseq, hcache⟩ := hs.processes hb
    rw [hproc] at h
    obtain rfl := Option.some.inj h
    refine ⟨hs.faithful, hs.waitSet, hs.done, hs.alone, by simp, ?_, by simp, hs.sendable, hcache,
      sequential_append hs.seq hseq⟩
    rw [hs.popped, hb, List.filterMap_append, filterMap_packet]
    simp
  · obtain rfl := Option.some.inj h
    refine ⟨hs.faithful, hs.waitSet, hs.done, hs.alone, hs.busy, ?_, hs.legal, hs.sendable,
      hs.cache, ?_⟩
    · rw [hs.popped, List.filterMap_append]
      simp [Event.packet?]
    · rw [← List.append_nil s.replies]
      exact sequential_append hs.seq rfl

/-- **Batching is unobservable.** One worker without a cache serves any packets that may be sent,
in any interleaving of `Push` and `BlockingPop`, with time passing in between. At any moment the
packets pushed are those processed so far, then the batch at hand, then the queue; what memcached
holds and the replies sent are those of processing these packets one at a time in this order; and
the batch at hand is processed without a fault. -/
theorem batching_unobservable (lib : Libmemcached) (w : Stores) (as : List WorkerAction)
    (s : Worker) (hw : w.cache = none)
    (hrun : Run (Guarded (StepOf (step lib)) Sends) { stores := w } as s) :
    s.log.pushed = s.events.filterMap Event.packet? ++ s.batch.getD [] ++ s.log.queue.packets ∧
      sequential lib s.events w = .ok (s.stores, s.replies) ∧
      ∀ batch, s.batch = some batch → ∃ r, processPackets lib s.stores batch = .ok r := by
  have hs : s.Matches lib w := hrun.invariant (matches_init hw) fun _ _ _ hs hstep ↦
    hs.step hstep.1 hstep.2
  refine ⟨?_, hs.seq, fun batch hb ↦ ?_⟩
  · rw [← hs.popped]
    exact hs.faithful.conserved
  · obtain ⟨w', r, hproc, -⟩ := hs.processes hb
    exact ⟨_, hproc⟩

/-- Two packets that get the same key, and a worker that pops both of them at once. -/
def popTwo : List WorkerAction :=
  [.queue (.push (getPacket [107]) none), .queue (.push (getPacket [107]) none), .queue (.enter 0),
    .queue (.acquire 0), .queue (.check 0), .queue (.finish 0 none), .process]

/-- Both packets are answered. -/
theorem batching_unobservable_popTwo : ∃ s : Worker,
    Run (Guarded (StepOf (step .inOrder)) Sends)
        { stores := ⟨none, ({} : Store).write [107] [48] 0 none⟩ } popTwo s ∧
      s.replies.flatMap (fun p ↦ p.instruction.getKeys.map KeyValue.val) = [[48], [48]] ∧
      (s.log.pushed = s.events.filterMap Event.packet? ++ s.batch.getD [] ++ s.log.queue.packets ∧
        sequential .inOrder s.events ⟨none, ({} : Store).write [107] [48] 0 none⟩
          = .ok (s.stores, s.replies) ∧
        ∀ batch, s.batch = some batch → ∃ r, processPackets .inOrder s.stores batch = .ok r) := by
  obtain ⟨s, hrun, hreplies⟩ := exists_run_of_exec (show (exec (step .inOrder)
    { stores := ⟨none, ({} : Store).write [107] [48] 0 none⟩ } popTwo).map
      (fun s ↦ s.replies.flatMap fun p ↦ p.instruction.getKeys.map KeyValue.val)
        = some [[48], [48]] by decide +kernel)
  have hsend : (getPacket [107]).Sendable :=
    ⟨⟨.get, rfl⟩, by simp [getPacket, KeyValue.key, PlainKey]⟩
  have hguarded : Run (Guarded (StepOf (step .inOrder)) Sends)
      { stores := ⟨none, ({} : Store).write [107] [48] 0 none⟩ } popTwo s := by
    refine hrun.guarded_of_forall fun _ a ha ↦ ?_
    simp only [popTwo, List.mem_cons, List.not_mem_nil, or_false] at ha
    rcases ha with rfl | rfl | rfl | rfl | rfl | rfl | rfl <;>
      simp [Sends, QueueLog.PushesOrPops, hsend]
  exact ⟨s, hguarded, hreplies, batching_unobservable _ _ _ _ rfl hguarded⟩

end Worker

end MemcacheRouter
