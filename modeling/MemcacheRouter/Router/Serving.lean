import MemcacheRouter.Client.Filling
import MemcacheRouter.Client.Interleaving
import MemcacheRouter.Router.Service

/-!
# What the router serves

The router without a cache and memcached, with any number of workers, in any interleaving. Between
the reception of a request and its reply lies the moment at which memcached was asked: every key of
a GET has the entry that memcached had at such a moment, and every item of an INCREMENT the result
of one `count` in the history. The keys of one GET may have been read at different moments, and GETs
that were merged share theirs.

What the history has of writes is what the packets asked for that were dealt with, and what those
asked for that are being dealt with, up to the item at hand. A SET that was received on `router_` is
answered before it is queued, so there it is the end of the packet, and not the reply, that says
that it is in the history.
-/

open Transition

namespace MemcacheRouter

/-! ## Where packets come from -/

/-- The packet that the main loop has. -/
def MainState.job : MainState → Option Job
  | polling => none
  | dispatching j => some j
  | pushing j => some j
  | m => m.serving

theorem MainState.job_of_serving {m : MainState} {j : Job} (h : m.serving = some j) :
    m.job = some j := by
  cases m with
  | polling | dispatching _ | pushing _ => cases h
  | _ => exact h

namespace Router

variable {codec : Codec} {numThreads : ℕ} {r r' : Router} {a : RouterAction}

/-- The packet is in the main loop, in the queue or with a worker. -/
def Holds (r : Router) (j : Job) : Prop :=
  r.main.job = some j ∨ j ∈ r.queue ∨ ∃ w ∈ r.workers, j ∈ w.jobs

theorem holds_goto {i : ℕ} {w w' : WorkerState} {l : List Job} (hi : r.workers[i]? = some w)
    (hl : w.jobs.Perm (l ++ w'.jobs)) {j : Job}
    (hj : ∃ x ∈ (r.goto i w').workers, j ∈ x.jobs) : ∃ x ∈ r.workers, j ∈ x.jobs := by
  obtain ⟨x, hx, hj⟩ := hj
  rcases mem_workers_goto hx with hx | rfl
  · exact ⟨x, hx, hj⟩
  · exact ⟨w, List.mem_of_getElem? hi, hl.mem_iff.mpr (List.mem_append_right l hj)⟩

/-- The packet comes in with this step. -/
def Brings (codec : Codec) (r : Router) (a : RouterAction) (j : Job) : Prop :=
  j.id = none ∨ ∃ message, a = .receive message ∧
    j = ⟨some r.received.length, receiveOnePacket codec true message⟩

/-- **A packet comes in with a message** and stays what it is. -/
theorem holds_of_moves (h : r.Moves codec a r') {j : Job} (hj : r'.Holds j) :
    r.Holds j ∨ r.Brings codec a j := by
  cases h with
  | receive h =>
    rcases hj with hj | hj
    · exact Or.inr (Or.inr ⟨_, rfl, (Option.some.inj hj).symm⟩)
    · exact Or.inl (Or.inr hj)
  | receiveAsync h hset =>
    rcases hj with hj | hj
    · obtain rfl := Option.some.inj hj
      exact Or.inr (Or.inl rfl)
    · exact Or.inl (Or.inr hj)
  | dispatchList h _ | dispatchSet h _ | dispatchQueue h _ | join h _ =>
    rcases hj with hj | hj
    · exact Or.inl (Or.inl (h ▸ hj))
    · exact Or.inl (Or.inr hj)
  | dispatchStats h _ | answerList h =>
    rcases hj with hj | hj
    · cases hj
    · exact Or.inl (Or.inr hj)
  | push h =>
    rcases hj with hj | hj | hj
    · cases hj
    · rcases List.mem_append.mp hj with hj | hj
      · exact Or.inl (Or.inr (Or.inl hj))
      · obtain rfl := List.mem_singleton.mp hj
        exact Or.inl (Or.inl (h ▸ rfl))
    · exact Or.inl (Or.inr (Or.inr hj))
  | serve h =>
    obtain ⟨j', h, h'⟩ := h.serving
    rcases hj with hj | hj
    · dsimp only at hj
      rw [MainState.job_of_serving h'] at hj
      exact Or.inl (Or.inl ((MainState.job_of_serving h).trans hj))
    · exact Or.inl (Or.inr hj)
  | clear h hi =>
    rcases hj with hj | hj | ⟨w, hw, _⟩
    · exact Or.inl (Or.inl (h ▸ hj))
    · exact Or.inl (Or.inr (Or.inl hj))
    · cases hw
  | spawn h =>
    rcases hj with hj | hj | ⟨w, hw, hj⟩
    · exact Or.inl (Or.inl (h ▸ hj))
    · exact Or.inl (Or.inr (Or.inl hj))
    · rcases List.mem_append.mp hw with hw | hw
      · exact Or.inl (Or.inr (Or.inr ⟨w, hw, hj⟩))
      · rw [List.mem_singleton.mp hw] at hj
        cases hj
  | forward _ _ => exact Or.inl hj
  | pop hi _ _ =>
    have hmem : ∀ x, x ∈ (popBatch Job.packet r.queue).1 ∨ x ∈ (popBatch Job.packet r.queue).2 →
        x ∈ r.queue := by
      intro x hx
      rwa [← List.mem_append, popBatch_append] at hx
    rcases hj with hj | hj | ⟨w, hw, hj⟩
    · exact Or.inl (Or.inl hj)
    · exact Or.inl (Or.inr (Or.inl (hmem j (Or.inr hj))))
    · rcases mem_workers_goto hw with hw | rfl
      · exact Or.inl (Or.inr (Or.inr ⟨w, hw, hj⟩))
      · rw [jobs_popped] at hj
        exact Or.inl (Or.inr (Or.inl (hmem j (Or.inl hj))))
  | control hi h => exact Or.inl (hj.imp_right (Or.imp_right (holds_goto hi h.perm)))
  | handleSet hi _ | handleIncr hi _ =>
    exact Or.inl (hj.imp_right (Or.imp_right (holds_goto hi (perm_handled _ _ _))))
  | handleGet hi _ =>
    exact Or.inl (hj.imp_right (Or.imp_right (holds_goto hi (perm_putAside _ _ _))))
  | handleOther hi _ =>
    exact Or.inl (hj.imp_right (Or.imp_right (holds_goto hi (perm_handled _ _ _))))
  | answerGet hi =>
    exact Or.inl (hj.imp_right (Or.imp_right (holds_goto hi (perm_answered _ _))))

end Router

/-! ## What a reply says -/

/-- A write. -/
def Operation.Writes : Operation → Prop
  | put _ | count _ => True
  | read _ | tick _ => False

theorem count_concat {op op' : Operation} (hop : op.Writes) (hop' : ¬op'.Writes)
    (ops : List Operation) : (ops ++ [op']).count op = ops.count op := by
  have hne : op ∉ [op'] := by
    rw [List.mem_singleton]
    rintro rfl
    exact hop' hop
  rw [List.count_append, List.count_eq_zero_of_not_mem hne, add_zero]

namespace Service

section Statement

variable (lib : Libmemcached) (codec : Codec) (memc₀ : Store) (s : Service)

/-- Memcached after the first `t` operations. -/
def memcAt (t : ℕ) : Store := stateAt Store.perform memc₀ s.history t

/-- A moment after the reception of message `n`. -/
def Since (n t : ℕ) : Prop := t ≤ s.history.length ∧ ∃ t₀, s.receivedAt[n]? = some t₀ ∧ t₀ ≤ t

/-- A key of the reply to message `n`, with the entry of such a moment merged into it. A key with a
NUL is not read as it is. -/
def Reads (n : ℕ) (kv kv' : KeyValue) : Prop :=
  ∃ entry, kv' = kv.mergeFrom entry ∧
    (0 ∉ kv.key → ∃ t, s.Since n t ∧ entry = lib.entryFor (s.memcAt memc₀ t) kv.key)

/-- An item of the reply to message `n`, with the result of a `count` of such a moment. -/
def Counts (n : ℕ) (kv kv' : KeyValue) : Prop :=
  ∃ t, s.Since n t ∧ s.history[t]? = some (.count kv) ∧
    kv' = (incrKey lib ⟨none, s.memcAt memc₀ t⟩ kv).2

/-- The frames of a reply to message `n`, which has come as the packet `p`. -/
inductive Answers (n : ℕ) (p : Packet) : List Bytes → Prop
  | get {kvs} (ht : p.getType = .ok .get)
      (hkvs : List.Forall₂ (s.Reads lib memc₀ n) p.instruction.getKeys kvs) :
      Answers n p (sendAndDeletePacket codec
        { p with instruction := { p.instruction with getKeys := kvs } })
  | increment {kvs} (ht : p.getType = .ok .increment)
      (hkvs : List.Forall₂ (s.Counts lib memc₀ n) p.instruction.incrKeys kvs) :
      Answers n p (sendAndDeletePacket codec
        { p with instruction := { p.instruction with incrKeys := kvs } })
  | stats {result} (ht : p.getType = .ok .stats) :
      Answers n p (sendAndDeletePacket codec { p with instruction := result })
  | empty (ht : p.getType = .ok .set ∨ p.getType = .ok .serverList) :
      Answers n p (sendEmptyPacket p)

/-- The reply is one to the message that it is for. -/
def Answered (x : Reply) : Prop :=
  ∃ n message, x.id = some n ∧ s.router.received[n]? = some message ∧
    s.Answers lib codec memc₀ n (receiveOnePacket codec true message) x.frames

end Statement

/-- What a worker has done of the packet at hand. -/
def doing : Option WorkerState → Progress → List Operation
  | some (.processing (j :: _) _), p => j.packet.operations p.items.length
  | _, _ => []

/-- How often the workers have done this for the packets at hand. -/
def underWay (s : Service) (op : Operation) : ℕ :=
  ∑ i ∈ Finset.range s.router.workers.length,
    (doing s.router.workers[i]? (s.progress i)).count op

/-- How often this was done for the packets that were dealt with. -/
def finished (s : Service) (op : Operation) : ℕ :=
  (s.router.finished.flatMap fun j ↦ j.packet.operations j.packet.items.length).count op

/-! ## What stays as it is -/

/-- The first state comes before the second. -/
structure Precedes (s s' : Service) : Prop where
  history : s.history <+: s'.history
  receivedAt : s.receivedAt <+: s'.receivedAt
  received : s.router.received <+: s'.router.received

variable {lib : Libmemcached} {codec : Codec} {numThreads : ℕ} {memc₀ : Store} {s s' : Service}
  {n t : ℕ} {kv kv' : KeyValue}

theorem getElem?_of_prefix {α : Type} {l l' : List α} (h : l <+: l') {i : ℕ} {a : α}
    (hi : l[i]? = some a) : l'[i]? = some a := by
  obtain ⟨later, rfl⟩ := h
  rw [List.getElem?_append_left (List.getElem?_eq_some_iff.mp hi).1]
  exact hi

theorem Precedes.memcAt (h : s.Precedes s') (ht : t ≤ s.history.length) :
    s'.memcAt memc₀ t = s.memcAt memc₀ t :=
  stateAt_of_prefix _ _ h.history ht

theorem Since.mono (hs : s.Since n t) (h : s.Precedes s') : s'.Since n t := by
  obtain ⟨ht, t₀, hn, hle⟩ := hs
  exact ⟨ht.trans h.history.length_le, t₀, getElem?_of_prefix h.receivedAt hn, hle⟩

theorem Reads.mono (hs : s.Reads lib memc₀ n kv kv') (h : s.Precedes s') :
    s'.Reads lib memc₀ n kv kv' := by
  obtain ⟨entry, heq, hentry⟩ := hs
  refine ⟨entry, heq, fun hplain ↦ ?_⟩
  obtain ⟨t, ht, hat⟩ := hentry hplain
  exact ⟨t, ht.mono h, by rw [h.memcAt ht.1, hat]⟩

theorem Counts.mono (hs : s.Counts lib memc₀ n kv kv') (h : s.Precedes s') :
    s'.Counts lib memc₀ n kv kv' := by
  obtain ⟨t, ht, hop, heq⟩ := hs
  exact ⟨t, ht.mono h, getElem?_of_prefix h.history hop, by rw [h.memcAt ht.1, heq]⟩

theorem Answers.mono {p : Packet} {frames : List Bytes}
    (hs : s.Answers lib codec memc₀ n p frames) (h : s.Precedes s') :
    s'.Answers lib codec memc₀ n p frames := by
  cases hs with
  | get ht hkvs => exact .get ht (hkvs.imp fun _ _ hkv ↦ hkv.mono h)
  | increment ht hkvs => exact .increment ht (hkvs.imp fun _ _ hkv ↦ hkv.mono h)
  | stats ht => exact .stats ht
  | empty ht => exact .empty ht

theorem Answered.mono {x : Reply} (hs : s.Answered lib codec memc₀ x) (h : s.Precedes s') :
    s'.Answered lib codec memc₀ x := by
  obtain ⟨n, message, hid, hmessage, hanswers⟩ := hs
  exact ⟨n, message, hid, getElem?_of_prefix h.received hmessage, hanswers.mono h⟩

/-! ## The invariant -/

section Invariant

variable (lib : Libmemcached) (codec : Codec) (memc₀ : Store) (s : Service)

/-- An entry of the map of a request: empty, and its key is still to be read, or as memcached had it
when these packets had been received. -/
def Filled (gets : List Job) (keys : List Bytes) (e : Bytes × KeyValue) : Prop :=
  e.2 = {} ∧ (0 ∉ e.1 → e.1 ∈ keys) ∨
    ∃ t ≤ s.history.length, (∀ j ∈ gets, ∀ n, j.id = some n → s.Since n t) ∧
      e.2 = lib.entryFor (s.memcAt memc₀ t) e.1

/-- What a worker can have done, where it is. -/
inductive Knows : Option WorkerState → Progress → Prop
  | nothing {w} : Knows w {}
  | items {j todo gets items} (h : j.packet.getType = .ok .increment → ∀ n, j.id = some n →
      List.Forall₂ (s.Counts lib memc₀ n) (j.packet.items.take items.length) items) :
      Knows (some (.processing (j :: todo) gets)) { items := items }
  | request {gets keys map} (h : ∀ e ∈ map, s.Filled lib memc₀ gets keys e) :
      Knows (some (.processing [] gets)) { request := some (keys, map) }

/-- What holds whenever the router at work is between two steps. -/
structure Served : Prop where
  accounted : s.router.Accounted
  lists : ∀ j, s.router.main.serving = some j → j.packet.getType = .ok .serverList
  replayed : s.memc = s.memcAt memc₀ s.history.length
  marked : s.receivedAt.length = s.router.received.length
  past : ∀ t ∈ s.receivedAt, t ≤ s.history.length
  known : ∀ j, s.router.Holds j → ∀ n, j.id = some n → ∃ message,
    s.router.received[n]? = some message ∧ j.packet = receiveOnePacket codec true message
  progress : ∀ i, s.Knows lib memc₀ s.router.workers[i]? (s.progress i)
  writes : ∀ op : Operation, op.Writes → s.history.count op = s.finished op + s.underWay op
  answers : ∀ x ∈ s.router.output ++ s.router.sent, s.Answered lib codec memc₀ x

end Invariant

variable {i : ℕ} {w w' : WorkerState} {p p' : Progress}

theorem Filled.mono {gets : List Job} {keys : List Bytes} {e : Bytes × KeyValue}
    (hs : s.Filled lib memc₀ gets keys e) (h : s.Precedes s') :
    s'.Filled lib memc₀ gets keys e := by
  rcases hs with hs | ⟨t, ht, hsince, heq⟩
  · exact Or.inl hs
  · refine Or.inr ⟨t, ht.trans h.history.length_le, fun j hj n hn ↦ ?_, ?_⟩
    · exact (hsince j hj n hn).mono h
    · rw [h.memcAt ht, heq]

theorem Knows.mono {w : Option WorkerState} (hs : s.Knows lib memc₀ w p) (h : s.Precedes s') :
    s'.Knows lib memc₀ w p := by
  cases hs with
  | nothing => exact .nothing
  | items hitems =>
    exact .items fun ht n hn ↦ (hitems ht n hn).imp fun _ _ hkv ↦ hkv.mono h
  | request hmap => exact .request fun e he ↦ (hmap e he).mono h

theorem operations_zero (p : Packet) : p.operations 0 = [] := by
  rw [Packet.operations, List.take_zero, List.flatMap_nil]

theorem doing_nothing (w : Option WorkerState) : doing w {} = [] := by
  unfold doing
  split
  · exact operations_zero _
  · rfl

/-- GET packets have no items. -/
theorem operations_of_get {p : Packet} (h : p.getType = .ok .get) (n : ℕ) :
    p.operations n = [] := by
  have hitems : p.items = [] := by rw [Packet.items, h]
  rw [Packet.operations, hitems, List.take_nil, List.flatMap_nil]

/-- **A worker takes a step.** -/
theorem Served.worker (h : s.Served lib codec memc₀) (hprec : s.Precedes s')
    (hi : s.router.workers[i]? = some w) (hacc : s'.router.Accounted)
    (hmain : s'.router.main = s.router.main)
    (hworkers : s'.router.workers = s.router.workers.set i w')
    (hprogress : s'.progress = Function.update s.progress i p')
    (hreplayed : s'.memc = s'.memcAt memc₀ s'.history.length)
    (hat : s'.receivedAt = s.receivedAt) (hreceived : s'.router.received = s.router.received)
    (hholds : ∀ j, s'.router.Holds j → s.router.Holds j ∨ j.id = none)
    (hknows : s'.Knows lib memc₀ (some w') p')
    (hwrites : ∀ op : Operation, op.Writes →
      s'.history.count op + s.finished op + (doing (some w) (s.progress i)).count op =
        s.history.count op + s'.finished op + (doing (some w') p').count op)
    (hreplies : ∀ x ∈ s'.router.output ++ s'.router.sent,
      x ∈ s.router.output ++ s.router.sent ∨ s'.Answered lib codec memc₀ x) :
    s'.Served lib codec memc₀ where
  accounted := hacc
  lists j hj := h.lists j (hmain ▸ hj)
  replayed := hreplayed
  marked := by rw [hat, hreceived, h.marked]
  past t ht := (h.past t (hat ▸ ht)).trans hprec.history.length_le
  known j hj n hn := by
    rcases hholds j hj with hold | hnone
    · rw [hreceived]
      exact h.known j hold n hn
    · rw [hnone] at hn
      cases hn
  progress k := by
    have hlt := (List.getElem?_eq_some_iff.mp hi).1
    rw [hworkers, hprogress]
    by_cases hk : k = i
    · subst hk
      rw [List.getElem?_set_self hlt, Function.update_self]
      exact hknows
    · rw [List.getElem?_set_ne (Ne.symm hk), Function.update_of_ne hk]
      exact (h.progress k).mono hprec
  writes op hop := by
    have hlt := (List.getElem?_eq_some_iff.mp hi).1
    -- in the sum over the workers only the share of this one changes
    have hsum : s'.underWay op + (doing (some w) (s.progress i)).count op =
        s.underWay op + (doing (some w') p').count op := by
      have hchange := sum_change (S := Finset.range s.router.workers.length)
        (fun k ↦ (doing s.router.workers[k]? (s.progress k)).count op)
        (fun k ↦ (doing s'.router.workers[k]? (s'.progress k)).count op)
        (Finset.mem_range.mpr hlt) fun k _ hk ↦ by
          rw [hworkers, hprogress, List.getElem?_set_ne (Ne.symm hk), Function.update_of_ne hk]
      rw [hi, hworkers, hprogress, List.getElem?_set_self hlt, Function.update_self] at hchange
      rwa [underWay, underWay, hworkers, hprogress, List.length_set]
    have hold := h.writes op hop
    have hnew := hwrites op hop
    omega
  answers x hx := by
    rcases hreplies x hx with hold | hnew
    · exact (h.answers x hold).mono hprec
    · exact hnew

/-! ## The steps of a worker -/

theorem memcAt_length (memc₀ : Store) (s : Service) :
    s.memcAt memc₀ s.history.length = s.history.foldl Store.perform memc₀ :=
  stateAt_length _ _ _

/-- Now is after the reception of whatever is in the router. -/
theorem Served.since (h : s.Served lib codec memc₀) {j : Job} (hj : s.router.Holds j)
    (hn : j.id = some n) : s.Since n s.history.length := by
  obtain ⟨message, hmessage, -⟩ := h.known j hj n hn
  have hlt : n < s.receivedAt.length := by
    rw [h.marked]
    exact (List.getElem?_eq_some_iff.mp hmessage).1
  exact ⟨le_rfl, _, List.getElem?_eq_getElem hlt, h.past _ (List.getElem_mem hlt)⟩

theorem Served.holds_of_worker {j : Job} (hi : s.router.workers[i]? = some w) (hj : j ∈ w.jobs) :
    s.router.Holds j :=
  Or.inr (Or.inr ⟨w, List.mem_of_getElem? hi, hj⟩)

/-- A turn over one item does to memcached what the history says of it. -/
theorem turn_eq_some {p : Packet} {item item' : KeyValue} {memc : Store}
    (h : s.turn lib p item = some (memc, item')) :
    memc = (p.operation item).foldl Store.perform s.memc ∧
      (p.getType = .ok .increment →
        p.operation item = [.count item] ∧ item' = (incrKey lib ⟨none, s.memc⟩ item).2) := by
  rw [turn] at h
  split at h
  · next ht =>
    rw [Packet.operation, ht]
    refine ⟨?_, by simp⟩
    obtain ⟨⟨w, kv⟩, hset, h⟩ := Option.map_eq_some_iff.mp h
    obtain ⟨rfl, rfl⟩ := Prod.mk.inj h
    simp only [setKey, Stores.cacheAdd, bind, Except.bind] at hset
    dsimp only
    split_ifs at hset ⊢ <;> cases hset <;> rfl
  · next ht =>
    rw [Packet.operation, ht]
    obtain ⟨rfl, rfl⟩ := Prod.mk.inj (Option.some.inj h)
    exact ⟨rfl, fun _ ↦ ⟨rfl, rfl⟩⟩
  · cases h

theorem set_of_getElem? {α : Type} {l : List α} {i : ℕ} {a : α} (h : l[i]? = some a) :
    l.set i a = l := by
  obtain ⟨hlt, rfl⟩ := List.getElem?_eq_some_iff.mp h
  exact List.set_getElem_self hlt

/-- What has been done of the items of a packet. -/
theorem Knows.exists_items {j : Job} {todo gets : List Job}
    (h : s.Knows lib memc₀ (some (.processing (j :: todo) gets)) p) :
    ∃ items, p = { items := items } ∧ (j.packet.getType = .ok .increment → ∀ n, j.id = some n →
      List.Forall₂ (s.Counts lib memc₀ n) (j.packet.items.take items.length) items) := by
  cases h with
  | nothing => exact ⟨[], rfl, fun _ _ _ ↦ .nil⟩
  | items hitems => exact ⟨_, rfl, hitems⟩

/-- **One item.** -/
theorem Served.item_step (h : s.Served lib codec memc₀) {j : Job} {todo gets : List Job}
    {item item' : KeyValue} {memc : Store}
    (hi : s.router.workers[i]? = some (.processing (j :: todo) gets)) (hp : s.progress i = p)
    (hitem : j.packet.items[p.items.length]? = some item)
    (hturn : s.turn lib j.packet item = some (memc, item')) :
    Served lib codec memc₀ { s.setProgress i { p with items := p.items ++ [item'] } with
      memc := memc, history := s.history ++ j.packet.operation item } := by
  obtain ⟨hmemc, hcount⟩ := turn_eq_some hturn
  have hwas := h.progress i
  rw [hi, hp] at hwas
  obtain ⟨items, rfl, hitems⟩ := hwas.exists_items
  have hprec : s.Precedes { s.setProgress i { items := items ++ [item'] } with
      memc := memc, history := s.history ++ j.packet.operation item } :=
    ⟨List.prefix_append _ _, List.prefix_refl _, List.prefix_refl _⟩
  have htake : j.packet.items.take (items ++ [item']).length =
      j.packet.items.take items.length ++ [item] := by
    rw [List.length_append, List.length_singleton, List.take_add_one, hitem]
    rfl
  refine h.worker hprec hi h.accounted rfl (set_of_getElem? hi).symm rfl ?_ rfl rfl
    (fun j hj ↦ Or.inl hj) (.items fun ht n hn ↦ ?_) (fun op _ ↦ ?_) fun x hx ↦ Or.inl hx
  · rw [memcAt_length, List.foldl_append, ← memcAt_length, ← h.replayed]
    exact hmemc
  · obtain ⟨hop, hitem'⟩ := hcount ht
    have hsince := h.since (Served.holds_of_worker hi List.mem_cons_self) hn
    rw [htake]
    refine List.rel_append ((hitems ht n hn).imp fun _ _ hkv ↦ hkv.mono hprec) (.cons ?_ .nil)
    refine ⟨s.history.length, hsince.mono hprec, ?_, ?_⟩
    · dsimp only
      rw [hop, List.getElem?_concat_length]
    · rw [hprec.memcAt le_rfl, ← h.replayed]
      exact hitem'
  · rw [hp]
    dsimp only [doing, Packet.operations]
    rw [htake, List.flatMap_append, List.flatMap_singleton, List.count_append, List.count_append]
    change _ + _ + s.finished op + _ = _ + s.finished op + _
    omega

/-- The keys that are requested are those of the packets, or what `copyKey` makes of them. -/
theorem filled_keysOf (s : Service) (gets : List Job) (packets : List Packet)
    {e : Bytes × KeyValue} (he : e ∈ keysOf packets) :
    s.Filled lib memc₀ gets ((keysOf packets).map fun e ↦ lib.copyKey e.1) e := by
  refine Or.inl ⟨?_, fun hplain ↦ List.mem_map.mpr ⟨e, he, copyKey_eq_self hplain⟩⟩
  rw [keysOf_eq_foldl] at he
  rcases mem_foldl_insert he with he | ⟨kv, -, rfl⟩
  · cases he
  · rfl

/-- **A request.** -/
theorem Served.request_step (h : s.Served lib codec memc₀) {gets : List Job}
    (hi : s.router.workers[i]? = some (.processing [] gets)) (hp : s.progress i = p)
    (hnone : p.request = none) :
    Served lib codec memc₀ (s.setProgress i { p with
      request := some ((keysOf (gets.map Job.packet)).map fun e ↦ lib.copyKey e.1,
        keysOf (gets.map Job.packet)) }) := by
  have hwas := h.progress i
  rw [hi, hp] at hwas
  obtain rfl : p = {} := by
    cases hwas with
    | nothing => rfl
    | request _ => cases hnone
  have hprec {p : Progress} : s.Precedes (s.setProgress i p) :=
    ⟨List.prefix_refl _, List.prefix_refl _, List.prefix_refl _⟩
  exact h.worker hprec hi h.accounted rfl (set_of_getElem? hi).symm rfl h.replayed rfl rfl
    (fun j hj ↦ Or.inl hj) (.request fun e he ↦ filled_keysOf _ _ _ he) (fun op _ ↦ rfl)
    fun x hx ↦ Or.inl hx

/-- A message that is empty or has a result keeps nothing when another result is merged. -/
theorem Filled.blank {gets : List Job} {keys : List Bytes} {e : Bytes × KeyValue}
    (h : s.Filled lib memc₀ gets keys e) : lib.Blank e.2 := by
  intro it
  rcases h with ⟨heq, -⟩ | ⟨t, -, -, heq⟩
  · rw [heq]
  · rw [heq, Libmemcached.entryFor]
    split <;> rfl

/-- **What a key is filled with**: what memcached has at the moment. -/
theorem readKey_eq_some {map map' : KeyMap} {k : Bytes} {gets : List Job} {keys : List Bytes}
    (h : s.readKey lib map k = some map') (hmap : ∀ e ∈ map, s.Filled lib memc₀ gets keys e)
    {e : Bytes × KeyValue} (he : e ∈ map') :
    e = (k, lib.entryFor s.memc k) ∨ e ∈ map ∧ (e.1 = k → s.memc.lookup k = none) := by
  rw [readKey] at h
  split at h
  · next hlookup =>
    obtain rfl := Option.some.inj h
    exact Or.inr ⟨he, fun _ ↦ hlookup⟩
  · next it hlookup =>
    obtain ⟨⟨w, m⟩, hfill, rfl⟩ := Option.map_eq_some_iff.mp h
    obtain ⟨kv, hkv, -, rfl⟩ := fillKey_eq_ok.mp (toOption_eq_some_iff.mp hfill)
    obtain ⟨e₀, he₀, rfl⟩ := List.mem_map.mp he
    split_ifs with hk
    · left
      rw [hk, (hmap _ (KeyMap.mem_of_lookup hkv)).blank, Libmemcached.entryFor, hlookup]
    · exact Or.inr ⟨he₀, fun heq ↦ absurd heq hk⟩

/-- **One key.** -/
theorem Served.read_step (h : s.Served lib codec memc₀) {gets : List Job} {keys : List Bytes}
    {map map' : KeyMap} {k : Bytes} (hi : s.router.workers[i]? = some (.processing [] gets))
    (hp : s.progress i = p) (hrequest : p.request = some (keys, map))
    (hread : s.readKey lib map k = some map') :
    Served lib codec memc₀
      { s.setProgress i { p with request := some (keys.erase k, map') } with
        history := s.history ++ [.read k] } := by
  have hwas := h.progress i
  rw [hi, hp] at hwas
  obtain ⟨rfl, hmap⟩ : p = { request := some (keys, map) } ∧
      ∀ e ∈ map, s.Filled lib memc₀ gets keys e := by
    cases hwas with
    | nothing => cases hrequest
    | request hmap =>
      cases hrequest
      exact ⟨rfl, hmap⟩
  have hprec : s.Precedes { s.setProgress i { request := some (keys.erase k, map') } with
      history := s.history ++ [.read k] } :=
    ⟨List.prefix_append _ _, List.prefix_refl _, List.prefix_refl _⟩
  -- what memcached has at the moment is what it has after the reception of these packets
  have hnow : ∀ e : Bytes × KeyValue, e.2 = lib.entryFor s.memc e.1 →
      s.Filled lib memc₀ gets (keys.erase k) e := by
    intro e he
    refine Or.inr ⟨s.history.length, le_rfl, fun j hj n hn ↦ ?_, ?_⟩
    · exact h.since (Served.holds_of_worker hi hj) hn
    · rw [← h.replayed, he]
  refine h.worker hprec hi h.accounted rfl (set_of_getElem? hi).symm rfl ?_ rfl rfl
    (fun j hj ↦ Or.inl hj) (.request fun e he ↦ Filled.mono ?_ hprec) (fun op hop ↦ ?_)
    fun x hx ↦ Or.inl hx
  · rw [memcAt_length, List.foldl_append, ← memcAt_length, ← h.replayed]
    rfl
  · rcases readKey_eq_some hread hmap he with rfl | ⟨hold, hmiss⟩
    · exact hnow _ rfl
    · rcases hmap e hold with ⟨hempty, hkeys⟩ | hfilled
      · by_cases heq : e.1 = k
        · refine hnow e ?_
          rw [hempty, heq, Libmemcached.entryFor, hmiss heq]
        · exact Or.inl ⟨hempty, fun hplain ↦ (List.mem_erase_of_ne heq).mpr (hkeys hplain)⟩
      · exact Or.inr hfilled
  · dsimp only
    rw [count_concat hop id]
    rfl

/-- **A worker goes on**, and leaves memcached alone. -/
theorem Served.go (h : s.Served lib codec memc₀) {r : Router}
    (hi : s.router.workers[i]? = some w) (hacc : r.Accounted) (hmain : r.main = s.router.main)
    (hworkers : r.workers = s.router.workers.set i w')
    (hreceived : r.received = s.router.received)
    (hholds : ∀ j, r.Holds j → s.router.Holds j ∨ j.id = none)
    (hknows : s.Knows lib memc₀ (some w') p') {jobs : List Job}
    (hfinished : r.finished = s.router.finished ++ jobs)
    (hdone : doing (some w) (s.progress i) =
      (jobs.flatMap fun j ↦ j.packet.operations j.packet.items.length) ++ doing (some w') p')
    (hreplies : ∀ x ∈ r.output ++ r.sent,
      x ∈ s.router.output ++ s.router.sent ∨ s.Answered lib codec memc₀ x) :
    Served lib codec memc₀ { s.setProgress i p' with router := r } := by
  have hprec : s.Precedes { s.setProgress i p' with router := r } :=
    ⟨List.prefix_refl _, List.prefix_refl _, by rw [hreceived]⟩
  refine h.worker hprec hi hacc hmain hworkers rfl h.replayed rfl hreceived hholds
    (hknows.mono hprec) (fun op _ ↦ ?_) fun x hx ↦ (hreplies x hx).imp_right fun hx ↦ hx.mono hprec
  rw [hdone, List.count_append, finished, finished]
  dsimp only
  rw [hfinished, List.flatMap_append, List.count_append]
  change s.history.count op + _ + _ = s.history.count op + _ + _
  omega

/-- The packet of an answer. -/
theorem Served.answered (h : s.Served lib codec memc₀) {j : Job} {frames : List Bytes}
    (hj : s.router.Holds j) (hn : j.id = some n)
    (hanswers : s.Answers lib codec memc₀ n j.packet frames) :
    s.Answered lib codec memc₀ ⟨j.id, frames⟩ := by
  obtain ⟨message, hmessage, hpacket⟩ := h.known j hj n hn
  exact ⟨n, message, hn, hmessage, hpacket ▸ hanswers⟩

/-- A packet is dealt with when its last item is. -/
theorem ready_items {j : Job} {todo gets : List Job} {result : Instruction}
    (hi : s.router.workers[i]? = some (.processing (j :: todo) gets))
    (hready : s.ready i = some result) :
    (s.progress i).items.length = j.packet.items.length ∧
      result = { j.packet.instruction with incrKeys := (s.progress i).items } := by
  rw [ready, hi] at hready
  dsimp only at hready
  split_ifs at hready with hlen
  exact ⟨hlen, (Option.some.inj hready).symm⟩

theorem left_of_cons {j : Job} {todo gets : List Job}
    (hi : s.router.workers[i]? = some (.processing (j :: todo) gets)) : s.left i = {} := by
  rw [left, hi]

/-- The map serves the rest of the packets. -/
theorem Knows.tail {j : Job} {gets : List Job}
    (h : s.Knows lib memc₀ (some (.processing [] (j :: gets))) p) :
    s.Knows lib memc₀ (some (.processing [] gets)) p := by
  cases h with
  | nothing => exact .nothing
  | request hmap =>
    refine .request fun e he ↦ (hmap e he).imp_right ?_
    rintro ⟨t, ht, hsince, heq⟩
    exact ⟨t, ht, fun j' hj' ↦ hsince j' (List.mem_cons_of_mem j hj'), heq⟩

theorem forall₂_of_mapM {α β : Type} {f : α → Except Fault β} {l : List α} {l' : List β}
    (h : l.mapM f = .ok l') : List.Forall₂ (fun a b ↦ f a = .ok b) l l' := by
  induction l generalizing l' with
  | nil =>
    cases h
    exact .nil
  | cons a l ih =>
    rw [List.mapM_cons] at h
    obtain ⟨b, hb, h⟩ := bind_eq_ok.mp h
    obtain ⟨bs, hbs, h⟩ := bind_eq_ok.mp h
    cases h
    exact .cons hb (ih hbs)

/-- **What is merged into a GET packet** was read after it was received. -/
theorem Knows.exists_merged {j : Job} {gets : List Job} {result : Instruction}
    (h : s.Knows lib memc₀ (some (.processing [] (j :: gets))) (s.progress i))
    (hi : s.router.workers[i]? = some (.processing [] (j :: gets)))
    (hready : s.ready i = some result) (hn : j.id = some n) :
    ∃ kvs, result = { j.packet.instruction with getKeys := kvs } ∧
      List.Forall₂ (s.Reads lib memc₀ n) j.packet.instruction.getKeys kvs := by
  rw [ready, hi] at hready
  dsimp only at hready
  split at hready
  · next map hrequest =>
    have hmap : ∀ e ∈ map, s.Filled lib memc₀ (j :: gets) [] e := by
      generalize s.progress i = p at h hrequest
      cases h with
      | nothing => cases hrequest
      | request hmap =>
        cases hrequest
        exact hmap
    obtain ⟨p, hp, rfl⟩ := Option.map_eq_some_iff.mp hready
    obtain ⟨kvs, hkvs, hp⟩ := bind_eq_ok.mp (toOption_eq_some_iff.mp hp)
    cases hp
    refine ⟨kvs, rfl, (forall₂_of_mapM hkvs).imp fun kv kv' hkv ↦ ?_⟩
    rw [mergeKey] at hkv
    split at hkv
    · cases hkv
    · next entry hentry =>
      cases hkv
      refine ⟨entry, rfl, fun hplain ↦ ?_⟩
      rcases hmap _ (KeyMap.mem_of_lookup hentry) with ⟨-, hkeys⟩ | ⟨t, -, hsince, heq⟩
      · -- no key is left to be read, so what is still blank has a NUL in its key
        exact absurd (hkeys hplain) List.not_mem_nil
      · exact ⟨t, hsince j List.mem_cons_self n hn, heq⟩
  · cases hready

theorem mem_concat_replies {output sent : List Reply} {x y : Reply}
    (h : x ∈ output ++ [y] ++ sent) : x ∈ output ++ sent ∨ x = y := by
  rw [List.mem_append, List.mem_append, List.mem_singleton] at h
  rw [List.mem_append]
  tauto

/-- **A worker takes a step of the router.** -/
theorem Served.go_step (h : s.Served lib codec memc₀) {result : Instruction} {r : Router}
    (hready : s.ready i = some result)
    (hr : s.router.step codec numThreads (.worker i result) = some r) :
    Served lib codec memc₀ { s.setProgress i (s.left i) with router := r } := by
  have hacc := h.accounted.step hr trivial
  have hmoves := Router.moves_of_step hr
  have hholds : ∀ j, r.Holds j → s.router.Holds j ∨ j.id = none := by
    intro j hj
    refine (Router.holds_of_moves hmoves hj).imp_right fun hbrings ↦ hbrings.resolve_right ?_
    simp
  have hwas := h.progress i
  cases hmoves with
  | @control _ w w' lock _ hi hc =>
    have hleft : s.left i = {} := by
      rw [left, hi]
      cases hc <;> rfl
    have hdoing : doing (some w) (s.progress i) = [] := by cases hc <;> rfl
    rw [hleft]
    refine h.go hi hacc rfl rfl rfl hholds .nothing (List.append_nil _).symm ?_ fun x hx ↦ Or.inl hx
    rw [hdoing, doing_nothing]
    rfl
  | pop hi _ _ =>
    have hleft : s.left i = {} := by rw [left, hi]
    rw [hleft]
    refine h.go hi hacc rfl rfl rfl hholds .nothing (List.append_nil _).symm ?_ fun x hx ↦ Or.inl hx
    rw [doing_nothing]
    rfl
  | @handleSet _ j todo gets _ hi ht =>
    obtain ⟨hlen, -⟩ := ready_items hi hready
    rw [left_of_cons hi]
    refine h.go hi hacc rfl rfl rfl hholds .nothing rfl ?_ fun x hx ↦ Or.inl hx
    rw [doing_nothing, List.append_nil, List.flatMap_singleton, doing, hlen]
  | @handleIncr _ j todo gets _ hi ht =>
    obtain ⟨hlen, rfl⟩ := ready_items hi hready
    rw [left_of_cons hi]
    refine h.go hi hacc rfl rfl rfl hholds .nothing rfl ?_ fun x hx ↦ ?_
    · rw [doing_nothing, List.append_nil, List.flatMap_singleton, doing, hlen]
    · refine (mem_concat_replies hx).imp_right ?_
      rintro rfl
      have hj := Served.holds_of_worker hi List.mem_cons_self
      have hqueued := h.accounted.queueable_of_worker hi List.mem_cons_self
      obtain ⟨n, -, hn, -⟩ := hqueued.cameFrom (ne_set_of_queued (Or.inr ht))
      refine h.answered hj hn (.increment ht ?_)
      rw [hi] at hwas
      -- every item has been counted, so there is a result for each
      obtain ⟨items, heq, hitems⟩ := hwas.exists_items
      have hcounts := hitems ht n hn
      rw [heq] at hlen ⊢
      rw [show items.length = j.packet.items.length from hlen, List.take_length] at hcounts
      rwa [Packet.items, ht] at hcounts
  | @handleGet _ j todo gets _ hi ht =>
    rw [left_of_cons hi]
    refine h.go hi hacc rfl rfl rfl hholds .nothing (List.append_nil _).symm ?_ fun x hx ↦ Or.inl hx
    rw [doing_nothing, doing, operations_of_get ht]
    rfl
  | handleOther hi ht => exact absurd ht (h.accounted.settled.not_other hi)
  | @answerGet _ j gets _ hi =>
    have ht := h.accounted.gets _ _ (List.mem_of_getElem? hi) _ List.mem_cons_self
    have hleft : s.left i = s.progress i := by rw [left, hi]
    rw [hleft]
    rw [hi] at hwas
    refine h.go hi hacc rfl rfl rfl hholds ?_ rfl ?_ fun x hx ↦ ?_
    · exact hwas.tail
    · rw [List.flatMap_singleton, operations_of_get ht]
      rfl
    · refine (mem_concat_replies hx).imp_right ?_
      rintro rfl
      have hj := Served.holds_of_worker hi List.mem_cons_self
      have hqueued := h.accounted.queueable_of_worker hi List.mem_cons_self
      obtain ⟨n, -, hn, -⟩ := hqueued.cameFrom (ne_set_of_queued (Or.inl ht))
      obtain ⟨kvs, rfl, hkvs⟩ := hwas.exists_merged hi hready hn
      exact h.answered hj hn (.get ht hkvs)

/-! ## The other steps -/

/-- Only SERVER_LIST packets are served by the main loop itself. -/
theorem serving_of_moves {r r' : Router} {a : RouterAction} (h : r.Moves codec a r')
    (hlists : ∀ j, r.main.serving = some j → j.packet.getType = .ok .serverList) {j : Job}
    (hj : r'.main.serving = some j) : j.packet.getType = .ok .serverList := by
  cases h with
  | dispatchList _ ht =>
    obtain rfl := Option.some.inj hj
    exact ht
  | serve h =>
    obtain ⟨j', hold, hnew⟩ := h.serving
    dsimp only at hj
    rw [hnew] at hj
    exact hlists j (hold.trans hj)
  | join h _ | clear h _ | spawn h => exact hlists j (h ▸ hj)
  | receive _ | receiveAsync _ _ | dispatchSet _ _ | dispatchStats _ _ | dispatchQueue _ _
  | push _ | answerList _ => cases hj
  | forward _ _ | control _ _ | pop _ _ _ | handleSet _ _ | handleIncr _ _ | handleGet _ _
  | handleOther _ _ | answerGet _ => exact hlists j hj

/-- **Something other than a worker takes a step.** -/
theorem Served.main (h : s.Served lib codec memc₀) {a : RouterAction} {r : Router}
    {receivedAt : List ℕ} (hr : s.router.step codec numThreads a = some r) (hwf : a.WellFormed)
    (hprec : s.Precedes { s with router := r, receivedAt := receivedAt })
    (hmarked : receivedAt.length = r.received.length)
    (hpast : ∀ t ∈ receivedAt, t ≤ s.history.length) (hfinished : r.finished = s.router.finished)
    (hknows : ∀ i, s.Knows lib memc₀ r.workers[i]? (s.progress i))
    (hunderWay : ∀ op, underWay { s with router := r } op = s.underWay op)
    (hreplies : ∀ x ∈ r.output ++ r.sent,
      x ∈ s.router.output ++ s.router.sent ∨ s.Answered lib codec memc₀ x) :
    Served lib codec memc₀ { s with router := r, receivedAt := receivedAt } where
  accounted := h.accounted.step hr hwf
  lists _ hj := serving_of_moves (Router.moves_of_step hr) h.lists hj
  replayed := h.replayed
  marked := hmarked
  past := hpast
  known j hj n hn := by
    rcases Router.holds_of_moves (Router.moves_of_step hr) hj with
      hold | hnone | ⟨message, rfl, rfl⟩
    · obtain ⟨message, hmessage, hpacket⟩ := h.known j hold n hn
      exact ⟨message, getElem?_of_prefix hprec.received hmessage, hpacket⟩
    · rw [hnone] at hn
      cases hn
    · obtain rfl := Option.some.inj hn
      cases Router.moves_of_step hr with
      | receive _ => exact ⟨message, List.getElem?_concat_length, rfl⟩
  progress i := (hknows i).mono hprec
  writes op hop := by
    have hcount : finished { s with router := r } op = s.finished op := by
      rw [finished, hfinished]
      rfl
    exact (h.writes op hop).trans (congrArg₂ (· + ·) hcount (hunderWay op)).symm
  answers x hx := by
    rcases hreplies x hx with hold | hnew
    · exact (h.answers x hold).mono hprec
    · exact hnew.mono hprec

/-- A worker without a batch has done nothing. -/
theorem Knows.eq_nothing {w : Option WorkerState} (h : s.Knows lib memc₀ w p)
    (hw : ∀ todo gets, w ≠ some (.processing todo gets)) : p = {} := by
  cases h with
  | nothing => rfl
  | items _ => exact absurd rfl (hw _ _)
  | request _ => exact absurd rfl (hw _ _)

/-- Threads that were joined have done everything. -/
theorem Served.of_joined (h : s.Served lib codec memc₀) {j : Job} {m : ℕ}
    (hmain : s.router.main = .joining j m) (hm : s.router.workers[m]? = none) (i : ℕ) :
    s.progress i = {} := by
  refine (h.progress i).eq_nothing fun todo gets hi ↦ ?_
  have hlt : i < m := by
    have hlen := (List.getElem?_eq_some_iff.mp hi).1
    exact hlen.trans_le (List.getElem?_eq_none_iff.mp hm)
  rw [h.accounted.joined j m hmain i hlt] at hi
  cases hi

theorem Served.of_absent (h : s.Served lib codec memc₀) (hi : s.router.workers[i]? = none) :
    s.progress i = {} := by
  refine (h.progress i).eq_nothing fun todo gets hsome ↦ ?_
  rw [hi] at hsome
  cases hsome

/-- **A thread is started.** -/
theorem Served.underWay_spawn (h : s.Served lib codec memc₀) {m : MainState} (op : Operation) :
    underWay { s with
      router := { s.router with main := m, workers := s.router.workers ++ [.starting] } } op =
        s.underWay op := by
  have hnew := h.of_absent (List.getElem?_eq_none_iff.mpr (le_refl s.router.workers.length))
  rw [underWay, underWay]
  dsimp only
  rw [List.length_append, List.length_singleton, Finset.sum_range_succ, hnew, doing_nothing,
    List.count_nil, add_zero]
  refine Finset.sum_congr rfl fun i hi ↦ ?_
  rw [List.getElem?_append_left (Finset.mem_range.mp hi)]

theorem Served.main_step (h : s.Served lib codec memc₀) {a : RouterAction} {r : Router}
    {receivedAt : List ℕ} (hr : s.router.step codec numThreads a = some r) (hwf : a.WellFormed)
    (hworker : ∀ i result, a ≠ .worker i result)
    (hprec : s.Precedes { s with router := r, receivedAt := receivedAt })
    (hmarked : receivedAt.length = r.received.length)
    (hpast : ∀ t ∈ receivedAt, t ≤ s.history.length) :
    Served lib codec memc₀ { s with router := r, receivedAt := receivedAt } := by
  have hsent {sent : List Reply} {x y : Reply} (hx : x ∈ s.router.output ++ (sent ++ [y])) :
      x ∈ s.router.output ++ sent ∨ x = y := by
    rwa [← List.append_assoc, List.mem_append, List.mem_singleton] at hx
  cases Router.moves_of_step hr with
  | receive _ | receiveAsync _ _ | dispatchList _ _ | dispatchQueue _ _ | push _ | serve _
  | join _ _ =>
    exact h.main hr hwf hprec hmarked hpast rfl h.progress (fun _ ↦ rfl) fun x hx ↦ Or.inl hx
  -- a SET that has come in on `router_` is answered before it is queued
  | dispatchSet hmain ht =>
    refine h.main hr hwf hprec hmarked hpast rfl h.progress (fun _ ↦ rfl) fun x hx ↦ ?_
    refine (hsent hx).imp_right ?_
    rintro rfl
    obtain ⟨n, -, hn, -⟩ := h.accounted.current _ (Or.inl hmain)
    exact h.answered (Or.inl (hmain ▸ rfl)) hn (.empty (Or.inl ht))
  | dispatchStats hmain ht =>
    refine h.main hr hwf hprec hmarked hpast rfl h.progress (fun _ ↦ rfl) fun x hx ↦ ?_
    refine (hsent hx).imp_right ?_
    rintro rfl
    obtain ⟨n, -, hn, -⟩ := h.accounted.current _ (Or.inl hmain)
    exact h.answered (Or.inl (hmain ▸ rfl)) hn (.stats ht)
  | answerList hmain =>
    refine h.main hr hwf hprec hmarked hpast rfl h.progress (fun _ ↦ rfl) fun x hx ↦ ?_
    refine (hsent hx).imp_right ?_
    rintro rfl
    have hserving := congrArg MainState.serving hmain
    obtain ⟨n, -, hn, -⟩ := h.accounted.current _ (Or.inr hserving)
    exact h.answered (Or.inl (hmain ▸ rfl)) hn (.empty (Or.inr (h.lists _ hserving)))
  | @forward m reply _ hreply =>
    refine h.main hr hwf hprec hmarked hpast rfl h.progress (fun _ ↦ rfl) fun x hx ↦ Or.inl ?_
    rw [List.mem_append, List.mem_append, List.mem_singleton] at hx
    rw [List.mem_append]
    rcases hx with hx | hx | rfl
    · exact Or.inl (List.mem_of_mem_eraseIdx hx)
    · exact Or.inr hx
    · exact Or.inl (List.mem_of_getElem? hreply)
  -- the threads have exited, and an exited thread has nothing under way
  | clear hmain hm =>
    refine h.main hr hwf hprec hmarked hpast rfl (fun i ↦ ?_) (fun op ↦ ?_) fun x hx ↦ Or.inl hx
    · rw [h.of_joined hmain hm i]
      exact .nothing
    · refine (Finset.sum_eq_zero fun i _ ↦ ?_).symm
      rw [h.of_joined hmain hm i, doing_nothing, List.count_nil]
  | spawn hmain =>
    refine h.main hr hwf hprec hmarked hpast rfl (fun i ↦ ?_) h.underWay_spawn fun x hx ↦ Or.inl hx
    by_cases hlt : i < s.router.workers.length
    · rw [List.getElem?_append_left hlt]
      exact h.progress i
    · rw [h.of_absent (List.getElem?_eq_none_iff.mpr (Nat.not_lt.mp hlt))]
      exact .nothing
  | control _ _ | pop _ _ _ | handleSet _ _ | handleIncr _ _ | handleGet _ _ | handleOther _ _
  | answerGet _ => exact absurd rfl (hworker _ _)

/-- **Time passes.** -/
theorem Served.tick_step (h : s.Served lib codec memc₀) (m : ℕ) :
    Served lib codec memc₀
      { s with memc := s.memc.tick m, history := s.history ++ [.tick m] } := by
  have hprec : s.Precedes { s with memc := s.memc.tick m, history := s.history ++ [.tick m] } :=
    ⟨List.prefix_append _ _, List.prefix_refl _, List.prefix_refl _⟩
  refine ⟨h.accounted, h.lists, ?_, h.marked, fun t ht ↦ ?_, h.known, fun i ↦ ?_, fun op hop ↦ ?_,
    fun x hx ↦ ?_⟩
  · rw [memcAt_length, List.foldl_append, ← memcAt_length, ← h.replayed]
    rfl
  · exact (h.past t ht).trans hprec.history.length_le
  · exact (h.progress i).mono hprec
  · rw [count_concat hop id]
    exact h.writes op hop
  · exact (h.answers x hx).mono hprec

/-- **One step.** -/
theorem Served.step (h : s.Served lib codec memc₀) {a : ServiceAction}
    {server : Server} (hstep : s.step lib codec numThreads a = some s')
    (hwf : a.WellFormed codec server) : s'.Served lib codec memc₀ := by
  cases moves_of_step hstep with
  | @receive message r hr =>
    have hreceived : r.received = s.router.received ++ [message] := by
      cases Router.moves_of_step hr with
      | receive _ => rfl
    refine h.main_step hr hwf.1 (by simp) ⟨List.prefix_refl _, List.prefix_append _ _, ?_⟩ ?_ ?_
    · dsimp only
      rw [hreceived]
      exact List.prefix_append _ _
    · rw [hreceived, List.length_append, List.length_append, h.marked]
      rfl
    · intro t ht
      rcases List.mem_append.mp ht with ht | ht
      · exact h.past t ht
      · exact (List.mem_singleton.mp ht).le
  | @main a r hr hreceive hworker =>
    have hreceived : r.received = s.router.received := by
      cases Router.moves_of_step hr with
      | receive _ => exact absurd rfl (hreceive _)
      | _ => rfl
    refine h.main_step hr hwf.1 hworker ⟨List.prefix_refl _, List.prefix_refl _, ?_⟩ ?_ h.past
    · dsimp only
      rw [hreceived]
    · rw [hreceived, h.marked]
  | item hi hitem hturn => exact h.item_step hi rfl hitem hturn
  | request hi hnone => exact h.request_step hi rfl hnone
  | read hi hrequest _ hread => exact h.read_step hi rfl hrequest hread
  | go hready hr => exact h.go_step hready hr
  | tick => exact h.tick_step _

/-! ## One memcached -/

/-- The server lists that were received name this server first, and so does the list of the
router. -/
structure OneServer (codec : Codec) (server : Server) (s : Service) : Prop where
  listed : ∀ message ∈ s.router.received, (receiveOnePacket codec true message).ListsFirst server
  installed : ∀ p, s.router.serverList = some p → p.instruction.servers.head? = some server

variable {server : Server}

/-- The router takes a step. -/
theorem OneServer.router_step (hone : s.OneServer codec server) (h : s.Served lib codec memc₀)
    {a : RouterAction} (hr : s.router.step codec numThreads a = some s'.router)
    (hlists : ∀ message, a = .receive message →
      (receiveOnePacket codec true message).ListsFirst server) : s'.OneServer codec server where
  listed message hmessage := by
    rcases Router.received_of_moves (Router.moves_of_step hr) with heq | ⟨new, rfl, heq⟩
    · exact hone.listed message (heq ▸ hmessage)
    · rw [heq, List.mem_append, List.mem_singleton] at hmessage
      rcases hmessage with hmessage | rfl
      · exact hone.listed message hmessage
      · exact hlists message rfl
  installed p hp := by
    rcases Router.serverList_of_step hr with heq | ⟨j, hmain, heq⟩
    · exact hone.installed p (heq ▸ hp)
    · -- the packet came in as a message
      obtain rfl := Option.some.inj (heq.symm.trans hp)
      have hserving : s.router.main.serving = some j := hmain ▸ rfl
      obtain ⟨n, -, hn, -⟩ := h.accounted.current j (Or.inr hserving)
      have hholds : s.router.Holds j := Or.inl (MainState.job_of_serving hserving)
      obtain ⟨message, hmessage, hpacket⟩ := h.known j hholds n hn
      have hlisted := hone.listed message (List.mem_of_getElem? hmessage)
      rw [← hpacket] at hlisted
      exact hlisted (h.lists j hserving)

/-- **One step.** -/
theorem OneServer.step (hone : s.OneServer codec server) (h : s.Served lib codec memc₀)
    {a : ServiceAction} (hstep : s.step lib codec numThreads a = some s')
    (hwf : a.WellFormed codec server) : s'.OneServer codec server := by
  cases moves_of_step hstep with
  | receive hr => exact hone.router_step h hr hwf.2
  | main hr _ _ => exact hone.router_step h hr hwf.2
  | go _ hr => exact hone.router_step h hr (by simp)
  | item _ _ _ | request _ _ | read _ _ _ _ | tick => exact ⟨hone.listed, hone.installed⟩

end Service

end MemcacheRouter
