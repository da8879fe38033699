import Mathlib.Algebra.BigOperators.Group.List.Basic
import Mathlib.Algebra.Ring.Nat
import Mathlib.Data.List.Perm.Basic
import MemcacheRouter.Router.Loop

/-!
# Every request is answered once

A message on `router_` becomes a packet that passes through many hands: the main loop, the queue, a
worker's batch, the channel back to the main loop. At any moment exactly one of them owes the
reply, or the reply was sent. A SET is answered before it is queued, so from then on it owes
nothing; what comes in on `async_` never does.

Stopping the workers does not change this, because a worker leaves its loop only without a batch,
and the main loop clears the pool only when all of them have left.
-/

open Transition

namespace MemcacheRouter

/-! ## Counting -/

/-- The packet came in the message `n`. -/
def Job.cameIn (n : ℕ) (j : Job) : ℕ := if j.id = some n then 1 else 0

/-- Once it is queued, a packet that is not a SET owes a reply to the message it came in. -/
def Job.owes (n : ℕ) (j : Job) : ℕ := if j.packet.isSet then 0 else j.cameIn n

/-- The replies to the message `n` among `replies`. -/
def repliesTo (n : ℕ) (replies : List Reply) : ℕ := replies.countP fun x ↦ x.id = some n

/-- What the main loop owes. -/
def MainState.owes (n : ℕ) : MainState → ℕ
  | polling => 0
  | dispatching j => j.cameIn n
  | pushing j => j.owes n
  | m => (m.serving.map (Job.cameIn n)).getD 0

/-- What a list of packets owes. -/
def owedBy (n : ℕ) (jobs : List Job) : ℕ := (jobs.map (Job.owes n)).sum

namespace Router

/-- The number of packets that came in the message `n` and are still unanswered: in the main loop,
in the queue, in a worker's batch or in `worker_output`. -/
def unanswered (n : ℕ) (r : Router) : ℕ :=
  r.main.owes n + owedBy n r.queue + (r.workers.map fun w ↦ owedBy n w.jobs).sum +
    repliesTo n r.output

/-- The number of times a packet is in the workers' batches. -/
def inBatches (j : Job) (r : Router) : ℕ := (r.workers.map fun w ↦ w.jobs.count j).sum

end Router

theorem MainState.owes_of_serving {m : MainState} {j : Job} (h : m.serving = some j) (n : ℕ) :
    m.owes n = j.cameIn n := by
  cases m with
  | polling => cases h
  | dispatching _ => cases h
  | pushing _ => cases h
  | _ =>
    cases h
    rfl

theorem owedBy_append (n : ℕ) (l₁ l₂ : List Job) :
    owedBy n (l₁ ++ l₂) = owedBy n l₁ + owedBy n l₂ := by
  rw [owedBy, List.map_append, List.sum_append]
  rfl

theorem owedBy_singleton (n : ℕ) (j : Job) : owedBy n [j] = j.owes n := rfl

theorem repliesTo_concat (n : ℕ) (l : List Reply) (j : Job) (frames : List Bytes) :
    repliesTo n (l ++ [⟨j.id, frames⟩]) = repliesTo n l + j.cameIn n := by
  rw [repliesTo, List.countP_append, List.countP_singleton]
  simp only [decide_eq_true_eq]
  rfl

theorem repliesTo_forward {n i : ℕ} {output : List Reply} {x : Reply} (h : output[i]? = some x)
    (sent : List Reply) : repliesTo n (sent ++ [x]) + repliesTo n (output.eraseIdx i)
      = repliesTo n sent + repliesTo n output := by
  have hperm : output.Perm (x :: output.eraseIdx i) := by
    obtain ⟨hi, rfl⟩ := List.getElem?_eq_some_iff.mp h
    exact (List.getElem_cons_eraseIdx_perm hi).symm
  rw [repliesTo, repliesTo, repliesTo, repliesTo, hperm.countP_eq, List.countP_append,
    List.countP_singleton, List.countP_cons]
  omega

/-- Changing one summand. -/
theorem sum_map_set {α : Type} (f : α → ℕ) {l : List α} {i : ℕ} {a : α} (h : l[i]? = some a)
    (b : α) : ((l.set i b).map f).sum + f a = (l.map f).sum + f b := by
  induction l generalizing i with
  | nil => simp at h
  | cons c l ih =>
    cases i with
    | zero =>
      obtain rfl : c = a := by simpa using h
      simp only [List.set_cons_zero, List.map_cons, List.sum_cons]
      omega
    | succ i =>
      have h := ih (show l[i]? = some a by simpa using h)
      simp only [List.set_cons_succ, List.map_cons, List.sum_cons]
      omega

theorem Job.owes_of_set {j : Job} (h : j.packet.getType = .ok .set) (n : ℕ) : j.owes n = 0 := by
  rw [Job.owes, if_pos (Packet.isSet_iff.mpr h)]

theorem Job.owes_of_ne_set {j : Job} (h : j.packet.getType ≠ .ok .set) (n : ℕ) :
    j.owes n = j.cameIn n := by
  rw [Job.owes, if_neg fun hset ↦ h (Packet.isSet_iff.mp hset)]

theorem ne_set_of_queued {p : Packet} (h : p.getType = .ok .get ∨ p.getType = .ok .increment) :
    p.getType ≠ .ok .set := by
  rcases h with h | h <;> simp [h]

/-! ## Routing -/

/-- A message as a client sends it: the routing frames, an empty frame and the instruction. -/
def RouterAction.WellFormed : RouterAction → Prop
  | .receive message => ∃ ids data, message = ids ++ [[], data] ∧ [] ∉ ids
  | _ => True

/-- The message numbered `id` was received and `ids` are its routing frames. -/
def CameFrom (received : List (List Bytes)) (id : Option ℕ) (ids : List Bytes) : Prop :=
  ∃ n data, id = some n ∧ received[n]? = some (ids ++ [[], data]) ∧ [] ∉ ids

/-- The reply goes back the way its request came, followed by one empty frame and the payload. -/
def Reply.Routed (received : List (List Bytes)) (x : Reply) : Prop :=
  ∃ ids payload, CameFrom received x.id ids ∧ x.frames = ids ++ [[], payload]

/-- What may be in the queue: a SET, or a GET or INCREMENT that knows its sender. -/
def Job.Queueable (received : List (List Bytes)) (j : Job) : Prop :=
  j.packet.getType = .ok .set ∨
    ((j.packet.getType = .ok .get ∨ j.packet.getType = .ok .increment) ∧
      CameFrom received j.id j.packet.frameIds)

theorem receiveFrames_routing (codec : Codec) (data : Bytes) {ids : List Bytes} (h : [] ∉ ids) :
    ∀ p, (receiveFrames codec false p (ids ++ [[], data])).frameIds = p.frameIds ++ ids := by
  induction ids with
  | nil =>
    intro p
    rw [List.append_nil]
    rfl
  | cons id ids ih =>
    intro p
    rw [List.mem_cons, not_or] at h
    rw [List.cons_append, receiveFrames, if_neg Bool.false_ne_true, if_neg (Ne.symm h.1), ih h.2,
      List.append_assoc]
    rfl

theorem frameIds_receiveOnePacket (codec : Codec) (data : Bytes) {ids : List Bytes}
    (h : [] ∉ ids) : (receiveOnePacket codec true (ids ++ [[], data])).frameIds = ids :=
  receiveFrames_routing codec data h {}

theorem CameFrom.concat {received : List (List Bytes)} {id : Option ℕ} {ids : List Bytes}
    (h : CameFrom received id ids) (message : List Bytes) :
    CameFrom (received ++ [message]) id ids := by
  obtain ⟨n, data, hid, hn, hids⟩ := h
  have hlt : n < received.length := (List.getElem?_eq_some_iff.mp hn).1
  exact ⟨n, data, hid, (List.getElem?_append_left hlt).trans hn, hids⟩

theorem Reply.Routed.concat {received : List (List Bytes)} {x : Reply} (h : x.Routed received)
    (message : List Bytes) : x.Routed (received ++ [message]) := by
  obtain ⟨ids, payload, hfrom, hframes⟩ := h
  exact ⟨ids, payload, hfrom.concat message, hframes⟩

theorem Job.Queueable.concat {received : List (List Bytes)} {j : Job} (h : j.Queueable received)
    (message : List Bytes) : j.Queueable (received ++ [message]) :=
  h.imp_right fun h ↦ ⟨h.1, h.2.concat message⟩

theorem Job.Queueable.cameFrom {received : List (List Bytes)} {j : Job} (h : j.Queueable received)
    (ht : j.packet.getType ≠ .ok .set) : CameFrom received j.id j.packet.frameIds :=
  (h.resolve_left ht).2

theorem Reply.routed_of_cameFrom {received : List (List Bytes)} {j : Job}
    (h : CameFrom received j.id j.packet.frameIds) (payload : Bytes) :
    (⟨j.id, sendFrames j.packet ++ [payload]⟩ : Reply).Routed received := by
  refine ⟨_, payload, h, ?_⟩
  rw [sendFrames, List.append_assoc]
  rfl

/-! ## The invariant -/

/-- The packet is on its way to a worker or with one. -/
def Router.Queued (r : Router) (j : Job) : Prop :=
  r.main = .pushing j ∨ j ∈ r.queue ∨ ∃ w ∈ r.workers, j ∈ w.jobs

/-- What holds of the threads and of the queue, whatever the router receives. -/
structure Router.Settled (r : Router) : Prop where
  /-- The threads that were joined have exited. -/
  joined : ∀ j i, r.main = .joining j i → ∀ k < i, r.workers[k]? = some .exited
  /-- SERVER_LIST and STATS packets are never queued. -/
  kinds : ∀ j, r.Queued j → j.packet.getType = .ok .set ∨
    (j.packet.getType = .ok .get ∨ j.packet.getType = .ok .increment)

/-- What holds whenever the router is between two steps. -/
structure Router.Accounted (r : Router) : Prop where
  balance : ∀ n, repliesTo n r.sent + r.unanswered n = if n < r.received.length then 1 else 0
  ledger : ∀ j, r.taken.count j = r.finished.count j + r.inBatches j
  joined : ∀ j i, r.main = .joining j i → ∀ k < i, r.workers[k]? = some .exited
  current : ∀ j, r.main = .dispatching j ∨ r.main.serving = some j →
    CameFrom r.received j.id j.packet.frameIds
  queued : ∀ j, r.Queued j → j.Queueable r.received
  gets : ∀ todo gets, .processing todo gets ∈ r.workers → ∀ j ∈ gets, j.packet.getType = .ok .get
  routed : ∀ x ∈ r.output ++ r.sent, x.Routed r.received

namespace Router

variable {codec : Codec} {numThreads : ℕ} {r r' : Router} {a : RouterAction}

/-! ## One step -/

theorem owed_goto {i : ℕ} {w : WorkerState} (hi : r.workers[i]? = some w) (w' : WorkerState)
    (n : ℕ) : ((r.goto i w').workers.map fun w ↦ owedBy n w.jobs).sum + owedBy n w.jobs
      = (r.workers.map fun w ↦ owedBy n w.jobs).sum + owedBy n w'.jobs :=
  sum_map_set (fun w ↦ owedBy n w.jobs) hi w'

/-- A worker that is done with some packets no longer owes what they owe. -/
theorem owed_goto_of_perm {i : ℕ} {w w' : WorkerState} {l : List Job}
    (hi : r.workers[i]? = some w) (hl : w.jobs.Perm (l ++ w'.jobs)) (n : ℕ) :
    ((r.goto i w').workers.map fun w ↦ owedBy n w.jobs).sum + owedBy n l
      = (r.workers.map fun w ↦ owedBy n w.jobs).sum := by
  have hsum := owed_goto hi w' n
  have hperm : owedBy n w.jobs = owedBy n l + owedBy n w'.jobs := by
    rw [← owedBy_append]
    exact (hl.map _).sum_eq
  omega

theorem inBatches_goto {i : ℕ} {w : WorkerState} (hi : r.workers[i]? = some w) (w' : WorkerState)
    (j : Job) : inBatches j (r.goto i w') + w.jobs.count j = r.inBatches j + w'.jobs.count j :=
  sum_map_set (fun w ↦ w.jobs.count j) hi w'

theorem inBatches_goto_of_perm {i : ℕ} {w w' : WorkerState} {l : List Job}
    (hi : r.workers[i]? = some w) (hl : w.jobs.Perm (l ++ w'.jobs)) (j : Job) :
    inBatches j (r.goto i w') + l.count j = r.inBatches j := by
  have hsum := inBatches_goto hi w' j
  have hperm : w.jobs.count j = l.count j + w'.jobs.count j := by
    rw [← List.count_append]
    exact hl.count_eq j
  omega

theorem Controls.perm {i : ℕ} {w w' : WorkerState} {lock : Option Owner}
    (h : r.Controls i w w' lock) : w.jobs.Perm ([] ++ w'.jobs) :=
  List.Perm.of_eq (h.jobs.1.trans h.jobs.2.symm)

theorem jobs_popped (batch : List Job) : (WorkerState.processing batch []).jobs = batch :=
  List.append_nil batch

theorem perm_handled (j : Job) (todo gets : List Job) :
    (WorkerState.processing (j :: todo) gets).jobs.Perm
      ([j] ++ (WorkerState.processing todo gets).jobs) :=
  List.Perm.refl _

theorem perm_answered (j : Job) (gets : List Job) :
    (WorkerState.processing [] (j :: gets)).jobs.Perm
      ([j] ++ (WorkerState.processing [] gets).jobs) :=
  List.Perm.refl _

/-- Putting a GET aside keeps the batch. -/
theorem perm_putAside (j : Job) (todo gets : List Job) :
    (WorkerState.processing (j :: todo) gets).jobs.Perm
      ([] ++ (WorkerState.processing todo (gets ++ [j])).jobs) := by
  rw [WorkerState.jobs, WorkerState.jobs, List.nil_append, ← List.append_assoc, List.cons_append]
  exact (List.perm_append_singleton j (todo ++ gets)).symm

/-- When all threads were joined no worker has a batch. -/
theorem Accounted.jobs_of_joined (hr : r.Accounted) {j : Job} {i : ℕ} (h : r.main = .joining j i)
    (hi : r.workers[i]? = none) {w : WorkerState} (hw : w ∈ r.workers) : w.jobs = [] := by
  obtain ⟨k, hk, hkw⟩ := List.mem_iff_getElem.mp hw
  have hlt : k < i := hk.trans_le (List.getElem?_eq_none_iff.mp hi)
  have hexit := hr.joined j i h k hlt
  rw [List.getElem?_eq_getElem hk, hkw] at hexit
  rw [Option.some.inj hexit]
  rfl

theorem Accounted.queueable_of_worker (hr : r.Accounted) {i : ℕ} {w : WorkerState}
    (hi : r.workers[i]? = some w) {j : Job} (hj : j ∈ w.jobs) : j.Queueable r.received :=
  hr.queued j (Or.inr (Or.inr ⟨w, List.mem_of_getElem? hi, hj⟩))

theorem Accounted.settled (hr : r.Accounted) : r.Settled where
  joined := hr.joined
  kinds j hj := (hr.queued j hj).imp_right And.left

/-- No worker drops a packet. -/
theorem Settled.not_other (hr : r.Settled) {i : ℕ} {j : Job} {todo gets : List Job}
    (hi : r.workers[i]? = some (.processing (j :: todo) gets)) :
    ¬(j.packet.getType = .ok .serverList ∨ j.packet.getType = .ok .stats) := by
  have hkind := hr.kinds j (Or.inr (Or.inr ⟨_, List.mem_of_getElem? hi, List.mem_cons_self⟩))
  rintro (ht | ht)
  all_goals
    rw [ht] at hkind
    simp at hkind

theorem Accounted.ledger_of_moves (hr : r.Accounted) (h : r.Moves codec a r') (j : Job) :
    r'.taken.count j = r'.finished.count j + r'.inBatches j := by
  have hledger := hr.ledger j
  -- A worker that finishes `l` moves it from its batch to what is finished.
  have hfinish {i : ℕ} {w w' : WorkerState} {l : List Job} (hi : r.workers[i]? = some w)
      (hl : w.jobs.Perm (l ++ w'.jobs)) :
      r.taken.count j = (r.finished ++ l).count j + inBatches j (r.goto i w') := by
    have hgoto := inBatches_goto_of_perm hi hl j
    rw [List.count_append]
    omega
  cases h with
  | clear h hi =>
    have hzero : r.inBatches j = 0 := by
      refine List.sum_eq_zero_iff_forall_eq_nat.mpr fun x hx ↦ ?_
      obtain ⟨w, hw, rfl⟩ := List.mem_map.mp hx
      rw [hr.jobs_of_joined h hi hw, List.count_nil]
    rw [hzero] at hledger
    exact hledger
  | spawn h =>
    rw [inBatches, List.map_append, List.sum_append]
    exact hledger
  | control hi h =>
    have h := hfinish hi h.perm
    rw [List.append_nil] at h
    exact h
  | pop hi _ _ =>
    have hgoto := inBatches_goto hi (.processing (popBatch Job.packet r.queue).1 []) j
    have hnone : WorkerState.popping.jobs.count j = 0 := rfl
    rw [hnone, jobs_popped] at hgoto
    change (r.taken ++ _).count j = r.finished.count j + inBatches j (r.goto _ _)
    rw [List.count_append]
    omega
  | handleSet hi _ => exact hfinish hi (perm_handled _ _ _)
  | handleIncr hi _ => exact hfinish hi (perm_handled _ _ _)
  | handleGet hi _ =>
    have h := hfinish hi (perm_putAside _ _ _)
    rw [List.append_nil] at h
    exact h
  | handleOther hi ht => exact absurd ht (hr.settled.not_other hi)
  | answerGet hi => exact hfinish hi (perm_answered _ _)
  | _ => exact hledger

/-- The main loop sends what it no longer owes. -/
theorem Accounted.balance_main (hr : r.Accounted) {n : ℕ} {m : MainState} {sent : List Reply}
    (h : repliesTo n sent + m.owes n = repliesTo n r.sent + r.main.owes n) :
    repliesTo n sent + (m.owes n + owedBy n r.queue +
      (r.workers.map fun w ↦ owedBy n w.jobs).sum + repliesTo n r.output)
      = if n < r.received.length then 1 else 0 := by
  rw [← hr.balance n, unanswered]
  omega

theorem Accounted.balance_send (hr : r.Accounted) {n : ℕ} {m : MainState} {j : Job}
    {frames : List Bytes} (h : j.cameIn n + m.owes n = r.main.owes n) :
    repliesTo n (r.send j frames).sent + (m.owes n + owedBy n r.queue +
      (r.workers.map fun w ↦ owedBy n w.jobs).sum + repliesTo n r.output)
      = if n < r.received.length then 1 else 0 := by
  have hsent : repliesTo n (r.send j frames).sent = repliesTo n r.sent + j.cameIn n :=
    repliesTo_concat n r.sent j frames
  refine hr.balance_main ?_
  omega

/-- A worker puts into `worker_output` what its batch no longer owes. -/
theorem Accounted.balance_worker (hr : r.Accounted) {n i : ℕ} {w w' : WorkerState} {l : List Job}
    {output : List Reply} (hi : r.workers[i]? = some w) (hl : w.jobs.Perm (l ++ w'.jobs))
    (hout : repliesTo n output = repliesTo n r.output + owedBy n l) :
    repliesTo n r.sent + (r.main.owes n + owedBy n r.queue +
      ((r.goto i w').workers.map fun w ↦ owedBy n w.jobs).sum + repliesTo n output)
      = if n < r.received.length then 1 else 0 := by
  have howed := owed_goto_of_perm hi hl n
  rw [← hr.balance n, unanswered]
  omega

/-- The conservation law: a step takes from one holder what it gives to another. -/
theorem Accounted.balance_of_moves (hr : r.Accounted) (h : r.Moves codec a r') (n : ℕ) :
    repliesTo n r'.sent + r'.unanswered n = if n < r'.received.length then 1 else 0 := by
  have hbalance := hr.balance n
  rw [unanswered] at hbalance ⊢
  cases h with
  | receive h =>
    -- The number of the new message is the length of what was received before it.
    rw [h] at hbalance
    simp only [MainState.owes, Job.cameIn, Option.some.injEq, List.length_append,
      List.length_singleton] at hbalance ⊢
    split_ifs at hbalance ⊢ <;> omega
  | receiveAsync h hset =>
    refine hr.balance_main ?_
    rw [h, MainState.owes, MainState.owes, Job.owes, if_pos hset]
  | forward h hn =>
    have hforward := @repliesTo_forward n _ _ _ hn r.sent
    refine Eq.trans ?_ hbalance
    dsimp only
    omega
  | dispatchList h _ =>
    refine hr.balance_main ?_
    rw [h]
    rfl
  | dispatchSet h ht =>
    refine hr.balance_send ?_
    rw [h, MainState.owes, MainState.owes, Job.owes_of_set ht]
    rfl
  | dispatchStats h _ =>
    refine hr.balance_send ?_
    rw [h]
    rfl
  | dispatchQueue h ht =>
    refine hr.balance_main ?_
    rw [h, MainState.owes, MainState.owes, Job.owes_of_ne_set (ne_set_of_queued ht)]
  | push h =>
    rw [h] at hbalance
    refine Eq.trans ?_ hbalance
    simp only [MainState.owes, owedBy_append, owedBy_singleton]
    omega
  | serve h =>
    obtain ⟨j, h, h'⟩ := h.serving
    refine hr.balance_main ?_
    rw [MainState.owes_of_serving h, MainState.owes_of_serving h']
  | join h _ =>
    refine hr.balance_main ?_
    rw [h]
    rfl
  | clear h hi =>
    -- The threads that are thrown away have no batches.
    have hzero : (r.workers.map fun w ↦ owedBy n w.jobs).sum = 0 := by
      refine List.sum_eq_zero fun x hx ↦ ?_
      obtain ⟨w, hw, rfl⟩ := List.mem_map.mp hx
      rw [hr.jobs_of_joined h hi hw]
      rfl
    rw [h, hzero] at hbalance
    exact hbalance
  | spawn h =>
    rw [h] at hbalance
    refine Eq.trans ?_ hbalance
    rw [List.map_append, List.sum_append]
    rfl
  | answerList h =>
    refine hr.balance_send ?_
    rw [h]
    rfl
  | control hi h => exact hr.balance_worker hi h.perm rfl
  | pop hi _ _ =>
    -- What the queue loses is what the batch of the worker gains.
    have hpop := congrArg (owedBy n) (popBatch_append Job.packet r.queue)
    have howed := owed_goto hi (.processing (popBatch Job.packet r.queue).1 []) n
    have hnone : owedBy n WorkerState.popping.jobs = 0 := rfl
    rw [owedBy_append] at hpop
    rw [hnone, jobs_popped] at howed
    refine Eq.trans ?_ hbalance
    dsimp only [goto] at howed ⊢
    omega
  | handleSet hi ht =>
    refine hr.balance_worker hi (perm_handled _ _ _) ?_
    rw [owedBy_singleton, Job.owes_of_set ht]
    rfl
  | handleIncr hi ht =>
    refine hr.balance_worker hi (perm_handled _ _ _) ?_
    rw [repliesTo_concat, owedBy_singleton, Job.owes_of_ne_set (ne_set_of_queued (Or.inr ht))]
  | handleGet hi _ => exact hr.balance_worker hi (perm_putAside _ _ _) rfl
  | handleOther hi ht => exact absurd ht (hr.settled.not_other hi)
  | answerGet hi =>
    have ht := hr.gets _ _ (List.mem_of_getElem? hi) _ List.mem_cons_self
    refine hr.balance_worker hi (perm_answered _ _) ?_
    rw [repliesTo_concat, owedBy_singleton, Job.owes_of_ne_set (ne_set_of_queued (Or.inl ht))]

theorem exited_goto {i k : ℕ} {w : WorkerState} (hi : r.workers[i]? = some w)
    (hw : w ≠ .exited) (hk : r.workers[k]? = some .exited) (w' : WorkerState) :
    (r.goto i w').workers[k]? = some .exited := by
  have hne : i ≠ k := by
    rintro rfl
    exact hw (Option.some.inj (hi.symm.trans hk))
  exact (List.getElem?_set_ne hne).trans hk

theorem Settled.joined_of_moves (hr : r.Settled) (h : r.Moves codec a r') {j : Job} {i : ℕ}
    (hj : r'.main = .joining j i) : ∀ k < i, r'.workers[k]? = some .exited := by
  intro k hk
  cases h with
  | forward _ _ => exact hr.joined j i hj k hk
  | serve h =>
    obtain rfl : _ = MainState.joining j i := hj
    rw [h.eq_zero_of_joining] at hk
    exact absurd hk (Nat.not_lt_zero k)
  | join h hi =>
    cases hj
    rcases Nat.lt_succ_iff_lt_or_eq.mp hk with hk | rfl
    · exact hr.joined _ _ h k hk
    · exact hi
  | control hi h => exact exited_goto hi h.ne_exited (hr.joined j i hj k hk) _
  | pop hi _ _ => exact exited_goto hi (by simp) (hr.joined j i hj k hk) _
  | handleSet hi _ => exact exited_goto hi (by simp) (hr.joined j i hj k hk) _
  | handleIncr hi _ => exact exited_goto hi (by simp) (hr.joined j i hj k hk) _
  | handleGet hi _ => exact exited_goto hi (by simp) (hr.joined j i hj k hk) _
  | handleOther hi _ => exact exited_goto hi (by simp) (hr.joined j i hj k hk) _
  | answerGet hi => exact exited_goto hi (by simp) (hr.joined j i hj k hk) _
  | _ => cases hj

theorem Accounted.current_of_moves (hr : r.Accounted) (h : r.Moves codec a r')
    (ha : a.WellFormed) {j : Job} (hj : r'.main = .dispatching j ∨ r'.main.serving = some j) :
    CameFrom r'.received j.id j.packet.frameIds := by
  cases h with
  | receive _ =>
    -- The frames before the empty one are the routing frames, since none of them is empty.
    obtain ⟨ids, data, rfl, hids⟩ := ha
    obtain rfl := MainState.dispatching.inj (hj.resolve_right (by simp [MainState.serving]))
    refine ⟨_, data, rfl, ?_, ?_⟩
    · rw [frameIds_receiveOnePacket codec data hids]
      exact List.getElem?_concat_length
    · rwa [frameIds_receiveOnePacket codec data hids]
  | dispatchList h _ =>
    obtain rfl := Option.some.inj (hj.resolve_left (by simp))
    exact hr.current _ (Or.inl h)
  | serve h =>
    obtain ⟨j', h, h'⟩ := h.serving
    dsimp only at hj
    have hserving := hj.resolve_left fun hd ↦ by
      rw [hd] at h'
      cases h'
    obtain rfl := Option.some.inj (h'.symm.trans hserving)
    exact hr.current _ (Or.inr h)
  | join h _ =>
    obtain rfl := Option.some.inj (hj.resolve_left (by simp))
    exact hr.current _ (Or.inr (by rw [h]; rfl))
  | clear h _ =>
    obtain rfl := Option.some.inj (hj.resolve_left (by simp))
    exact hr.current _ (Or.inr (by rw [h]; rfl))
  | spawn h =>
    obtain rfl := Option.some.inj (hj.resolve_left (by simp))
    exact hr.current _ (Or.inr (by rw [h]; rfl))
  | receiveAsync => simp [MainState.serving] at hj
  | dispatchSet => simp [MainState.serving] at hj
  | dispatchStats => simp [MainState.serving] at hj
  | dispatchQueue => simp [MainState.serving] at hj
  | push => simp [MainState.serving] at hj
  | answerList => simp [MainState.serving] at hj
  | _ => exact hr.current _ hj

/-- What is queued after a worker moved was queued before, if its new batch was. -/
theorem Queued.of_goto {i : ℕ} {w' : WorkerState} {j : Job} (hj : (r.goto i w').Queued j)
    (hw' : ∀ x ∈ w'.jobs, r.Queued x) : r.Queued j := by
  rcases hj with hj | hj | ⟨x, hx, hj⟩
  · exact Or.inl hj
  · exact Or.inr (Or.inl hj)
  · rcases mem_workers_goto hx with hx | rfl
    · exact Or.inr (Or.inr ⟨x, hx, hj⟩)
    · exact hw' j hj

/-- Likewise when the new batch is part of the old one. -/
theorem Queued.of_goto_of_perm {i : ℕ} {w w' : WorkerState} {l : List Job} {j : Job}
    (hj : (r.goto i w').Queued j) (hi : r.workers[i]? = some w)
    (hl : w.jobs.Perm (l ++ w'.jobs)) : r.Queued j :=
  hj.of_goto fun _ hx ↦ Or.inr (Or.inr ⟨w, List.mem_of_getElem? hi,
    hl.mem_iff.mpr (List.mem_append_right l hx)⟩)

/-- What is queued after a step was queued before, or is what the main loop decided to push. -/
theorem Queued.of_moves {j : Job} (hj : r'.Queued j) (h : r.Moves codec a r') :
    r.Queued j ∨ j.packet.getType = .ok .set ∨
      ((j.packet.getType = .ok .get ∨ j.packet.getType = .ok .increment) ∧
        r.main = .dispatching j) := by
  cases h with
  | receiveAsync h hset =>
    rcases hj with hj | hj
    · obtain rfl := MainState.pushing.inj hj
      exact Or.inr (Or.inl (Packet.isSet_iff.mp hset))
    · exact Or.inl (Or.inr hj)
  | dispatchSet h ht =>
    rcases hj with hj | hj
    · obtain rfl := MainState.pushing.inj hj
      exact Or.inr (Or.inl ht)
    · exact Or.inl (Or.inr hj)
  | dispatchQueue h ht =>
    rcases hj with hj | hj
    · obtain rfl := MainState.pushing.inj hj
      exact Or.inr (Or.inr ⟨ht, h⟩)
    · exact Or.inl (Or.inr hj)
  | push h =>
    rcases hj with hj | hj | hj
    · cases hj
    · rcases List.mem_append.mp hj with hj | hj
      · exact Or.inl (Or.inr (Or.inl hj))
      · obtain rfl := List.mem_singleton.mp hj
        exact Or.inl (Or.inl h)
    · exact Or.inl (Or.inr (Or.inr hj))
  | serve h =>
    obtain ⟨j', h, h'⟩ := h.serving
    rcases hj with hj | hj
    · dsimp only at hj
      rw [hj] at h'
      cases h'
    · exact Or.inl (Or.inr hj)
  | clear h hi =>
    rcases hj with hj | hj | ⟨w, hw, _⟩
    · cases hj
    · exact Or.inl (Or.inr (Or.inl hj))
    · cases hw
  | spawn h =>
    rcases hj with hj | hj | ⟨w, hw, hj⟩
    · cases hj
    · exact Or.inl (Or.inr (Or.inl hj))
    · rcases List.mem_append.mp hw with hw | hw
      · exact Or.inl (Or.inr (Or.inr ⟨w, hw, hj⟩))
      · rw [List.mem_singleton.mp hw] at hj
        cases hj
  | receive h => exact Or.inl (Or.inr (hj.resolve_left (by simp)))
  | dispatchList h _ => exact Or.inl (Or.inr (hj.resolve_left (by simp)))
  | dispatchStats h _ => exact Or.inl (Or.inr (hj.resolve_left (by simp)))
  | join h _ => exact Or.inl (Or.inr (hj.resolve_left (by simp)))
  | answerList h => exact Or.inl (Or.inr (hj.resolve_left (by simp)))
  | pop hi _ _ =>
    -- What the queue loses is the new batch of the worker.
    have hmem : ∀ x, x ∈ (popBatch Job.packet r.queue).1 ∨ x ∈ (popBatch Job.packet r.queue).2 →
        r.Queued x := by
      intro x hx
      rw [← List.mem_append, popBatch_append] at hx
      exact Or.inr (Or.inl hx)
    refine Or.inl ?_
    rcases hj with hj | hj | hj
    · exact Or.inl hj
    · exact hmem j (Or.inr hj)
    · refine Queued.of_goto (Or.inr (Or.inr hj)) fun x hx ↦ ?_
      rw [jobs_popped] at hx
      exact hmem x (Or.inl hx)
  | control hi h => exact Or.inl (Queued.of_goto_of_perm hj hi h.perm)
  | handleSet hi _ => exact Or.inl (Queued.of_goto_of_perm hj hi (perm_handled _ _ _))
  | handleIncr hi _ => exact Or.inl (Queued.of_goto_of_perm hj hi (perm_handled _ _ _))
  | handleGet hi _ => exact Or.inl (Queued.of_goto_of_perm hj hi (perm_putAside _ _ _))
  | handleOther hi _ => exact Or.inl (Queued.of_goto_of_perm hj hi (perm_handled _ _ _))
  | answerGet hi => exact Or.inl (Queued.of_goto_of_perm hj hi (perm_answered _ _))
  | forward _ _ => exact Or.inl hj

theorem Settled.of_moves (hr : r.Settled) (h : r.Moves codec a r') : r'.Settled where
  joined _ _ := hr.joined_of_moves h
  kinds j hj := by
    rcases hj.of_moves h with hj | hset | ⟨ht, -⟩
    · exact hr.kinds j hj
    · exact Or.inl hset
    · exact Or.inr ht

theorem received_of_moves (h : r.Moves codec a r') : r'.received = r.received ∨
    ∃ message, a = .receive message ∧ r'.received = r.received ++ [message] := by
  cases h with
  | receive _ => exact Or.inr ⟨_, rfl, rfl⟩
  | _ => exact Or.inl rfl

/-- The list of the router is that of the packet it serves. -/
theorem serverList_of_step (h : r.step codec numThreads a = some r') :
    r'.serverList = r.serverList ∨
      ∃ j, r.main = .replacing j ∧ r'.serverList = some j.packet := by
  cases moves_of_step h with
  | @serve result main queueDone done lock serverList hserves =>
    -- The inversion leaves the list open, so the step is run.
    rw [step, mainStep] at h
    generalize hmain : r.main = m at h hserves
    cases hserves with
    | @replace j =>
      exact Or.inr ⟨j, rfl, (congrArg Router.serverList (Option.some.inj h)).symm⟩
    | acquire hlock =>
      dsimp only at h
      rw [if_pos hlock] at h
      exact Or.inl (congrArg Router.serverList (Option.some.inj h)).symm
    | matching hmatch | differing hmatch =>
      dsimp only at h
      rw [hmatch] at h
      exact Or.inl (congrArg Router.serverList (Option.some.inj h)).symm
    | spawned =>
      dsimp only at h
      split_ifs at h
      all_goals exact Or.inl (congrArg Router.serverList (Option.some.inj h)).symm
    | _ => exact Or.inl (congrArg Router.serverList (Option.some.inj h)).symm
  | _ => exact Or.inl rfl

theorem Accounted.queued_of_moves (hr : r.Accounted) (h : r.Moves codec a r') {j : Job}
    (hj : r'.Queued j) : j.Queueable r'.received := by
  have hjob : j.Queueable r.received := by
    rcases hj.of_moves h with hj | hset | ⟨ht, hmain⟩
    · exact hr.queued j hj
    · exact Or.inl hset
    · -- A GET or INCREMENT is queued with the routing frames it came with.
      exact Or.inr ⟨ht, hr.current j (Or.inl hmain)⟩
  rcases received_of_moves h with heq | ⟨message, -, heq⟩
  · rwa [heq]
  · rw [heq]
    exact hjob.concat message

/-- What a worker has put aside after it moved. -/
theorem Accounted.gets_goto (hr : r.Accounted) {i : ℕ} {w' : WorkerState}
    (hw' : ∀ todo gets, w' = .processing todo gets → ∀ j ∈ gets, j.packet.getType = .ok .get)
    {todo gets : List Job} (h : .processing todo gets ∈ (r.goto i w').workers) :
    ∀ j ∈ gets, j.packet.getType = .ok .get := by
  rcases mem_workers_goto h with h | h
  · exact hr.gets todo gets h
  · exact hw' todo gets h.symm

theorem Accounted.gets_of_moves (hr : r.Accounted) (h : r.Moves codec a r')
    {todo gets : List Job} (hw : .processing todo gets ∈ r'.workers) :
    ∀ j ∈ gets, j.packet.getType = .ok .get := by
  cases h with
  | clear _ _ => cases hw
  | spawn _ =>
    refine hr.gets todo gets ((List.mem_append.mp hw).resolve_right ?_)
    simp
  | control _ h =>
    refine hr.gets_goto (fun todo gets heq ↦ ?_) hw
    have hjobs := h.jobs.2
    rw [heq] at hjobs
    obtain ⟨-, rfl⟩ := List.append_eq_nil_iff.mp hjobs
    simp
  | pop _ _ _ =>
    refine hr.gets_goto ?_ hw
    rintro todo gets ⟨⟩ j hj
    cases hj
  | handleSet hi _ =>
    refine hr.gets_goto ?_ hw
    rintro todo gets ⟨⟩
    exact hr.gets _ _ (List.mem_of_getElem? hi)
  | handleIncr hi _ =>
    refine hr.gets_goto ?_ hw
    rintro todo gets ⟨⟩
    exact hr.gets _ _ (List.mem_of_getElem? hi)
  | handleGet hi ht =>
    refine hr.gets_goto ?_ hw
    rintro todo gets ⟨⟩ j hj
    rcases List.mem_append.mp hj with hj | hj
    · exact hr.gets _ _ (List.mem_of_getElem? hi) j hj
    · rwa [List.mem_singleton.mp hj]
  | handleOther hi ht => exact absurd ht (hr.settled.not_other hi)
  | answerGet hi =>
    refine hr.gets_goto ?_ hw
    rintro todo gets ⟨⟩ j hj
    exact hr.gets _ _ (List.mem_of_getElem? hi) j (List.mem_cons_of_mem _ hj)
  | _ => exact hr.gets todo gets hw

/-- The reply is one that was there before, or answers a packet that knows its sender. -/
theorem Accounted.routed_or_new (hr : r.Accounted) {j : Job} {payload : Bytes} {x : Reply}
    (hfrom : CameFrom r.received j.id j.packet.frameIds)
    (hx : x ∈ r.output ++ r.sent ∨ x = ⟨j.id, sendFrames j.packet ++ [payload]⟩) :
    x.Routed r.received := by
  rcases hx with hx | rfl
  · exact hr.routed x hx
  · exact Reply.routed_of_cameFrom hfrom payload

theorem Accounted.routed_of_moves (hr : r.Accounted) (h : r.Moves codec a r') {x : Reply}
    (hx : x ∈ r'.output ++ r'.sent) : x.Routed r'.received := by
  -- The two places where a reply can be added.
  have hsent {y : Reply} (h : x ∈ r.output ++ (r.sent ++ [y])) :
      x ∈ r.output ++ r.sent ∨ x = y := by
    rwa [← List.append_assoc, List.mem_append, List.mem_singleton] at h
  have houtput {y : Reply} (h : x ∈ r.output ++ [y] ++ r.sent) :
      x ∈ r.output ++ r.sent ∨ x = y := by
    rw [List.mem_append, List.mem_append, List.mem_singleton] at h
    rw [List.mem_append]
    tauto
  cases h with
  | receive _ => exact (hr.routed x hx).concat _
  | forward _ hn =>
    refine hr.routed x ?_
    rw [List.mem_append, List.mem_append, List.mem_singleton] at hx
    rw [List.mem_append]
    rcases hx with hx | hx | rfl
    · exact Or.inl (List.mem_of_mem_eraseIdx hx)
    · exact Or.inr hx
    · exact Or.inl (List.mem_of_getElem? hn)
  | dispatchSet h _ => exact hr.routed_or_new (hr.current _ (Or.inl h)) (hsent hx)
  | dispatchStats h _ => exact hr.routed_or_new (hr.current _ (Or.inl h)) (hsent hx)
  | answerList h =>
    exact hr.routed_or_new (hr.current _ (Or.inr (by rw [h]; rfl))) (hsent hx)
  | handleIncr hi ht =>
    have hqueued := hr.queueable_of_worker hi List.mem_cons_self
    exact hr.routed_or_new (hqueued.cameFrom (ne_set_of_queued (Or.inr ht))) (houtput hx)
  | answerGet hi =>
    have ht := hr.gets _ _ (List.mem_of_getElem? hi) _ List.mem_cons_self
    have hqueued := hr.queueable_of_worker hi List.mem_cons_self
    exact hr.routed_or_new (hqueued.cameFrom (ne_set_of_queued (Or.inl ht))) (houtput hx)
  | _ => exact hr.routed x hx

/-! ## Every run -/

theorem settled_init : ({} : Router).Settled where
  joined _ _ h := by cases h
  kinds _ h := by rcases h with h | h | ⟨_, h, _⟩ <;> cases h

theorem accounted_init : ({} : Router).Accounted where
  balance _ := rfl
  ledger _ := rfl
  joined := settled_init.joined
  current _ h := by rcases h with h | h <;> cases h
  queued _ h := by rcases h with h | h | ⟨_, h, _⟩ <;> cases h
  gets _ _ h := by cases h
  routed _ h := by cases h

theorem Accounted.step (hr : r.Accounted) (h : r.step codec numThreads a = some r')
    (ha : a.WellFormed) : r'.Accounted where
  balance := hr.balance_of_moves (moves_of_step h)
  ledger := hr.ledger_of_moves (moves_of_step h)
  joined := (hr.settled.of_moves (moves_of_step h)).joined
  current _ := hr.current_of_moves (moves_of_step h) ha
  queued _ := hr.queued_of_moves (moves_of_step h)
  gets _ _ := hr.gets_of_moves (moves_of_step h)
  routed _ := hr.routed_of_moves (moves_of_step h)

end Router

/-- The runs of the router in which every message has the form that clients send. -/
def RouterRun (codec : Codec) (numThreads : ℕ) (as : List RouterAction) (r : Router) : Prop :=
  Run (Guarded (StepOf (Router.step codec numThreads)) fun _ a ↦ a.WellFormed) {} as r

theorem RouterRun.accounted {codec : Codec} {numThreads : ℕ} {as : List RouterAction} {r : Router}
    (h : RouterRun codec numThreads as r) : r.Accounted :=
  h.invariant Router.accounted_init fun _ _ _ hr hstep ↦ hr.step hstep.1 hstep.2

/-- **Every request is answered exactly once, to its own sender.** In every reachable state the
replies to a message and its unanswered packets are one in all; every packet that was taken from
the queue was dealt with or is in a worker's batch; and every reply has the routing frames of the
message that it answers, one empty frame and the payload. -/
theorem answered_exactly_once {codec : Codec} {numThreads : ℕ} {as : List RouterAction}
    {r : Router} (h : RouterRun codec numThreads as r) :
    (∀ n < r.received.length, repliesTo n r.sent + r.unanswered n = 1) ∧
    (∀ j, r.taken.count j = r.finished.count j + r.inBatches j) ∧
    ∀ x ∈ r.sent, ∃ n ids data payload, x.id = some n ∧
      r.received[n]? = some (ids ++ [[], data]) ∧ [] ∉ ids ∧ x.frames = ids ++ [[], payload] := by
  have hr := h.accounted
  refine ⟨fun n hn ↦ ?_, hr.ledger, fun x hx ↦ ?_⟩
  · rw [hr.balance n, if_pos hn]
  · obtain ⟨ids, payload, ⟨n, data, hid, hn, hids⟩, hframes⟩ :=
      hr.routed x (List.mem_append_right _ hx)
    exact ⟨n, ids, data, payload, hid, hn, hids, hframes⟩

/-- A server list, a GET of the key `k`, and the answer to it. -/
def listAndGet : Codec := .ofTable
  [([34, 5, 10, 1, 97, 16, 1], { servers := [⟨[97], 1⟩] }),
    ([10, 3, 10, 1, 107], { getKeys := [{ key? := some [107] }] }),
    ([10, 6, 10, 1, 107, 18, 1, 49], { getKeys := [{ key? := some [107], val? := some [49] }] })]

/-- The list is installed, and the worker that it starts answers the GET. -/
def serveOne : List RouterAction :=
  .receive [[1], [], [34, 5, 10, 1, 97, 16, 1]] :: List.replicate 14 (.main {}) ++
    List.replicate 3 (.worker 0 {}) ++ .receive [[2], [], [10, 3, 10, 1, 107]] ::
    [.main {}, .main {}, .worker 0 {}, .worker 0 {},
      .worker 0 { getKeys := [{ key? := some [107], val? := some [49] }] }, .forward 0]

theorem answered_exactly_once_serveOne : ∃ r, RouterRun listAndGet 1 serveOne r ∧
    r.sent = [⟨some 0, [[1], [], []]⟩, ⟨some 1, [[2], [], [10, 6, 10, 1, 107, 18, 1, 49]]⟩] ∧
    (∀ n < r.received.length, repliesTo n r.sent + r.unanswered n = 1) := by
  obtain ⟨r, hrun, hsent⟩ := exists_run_of_exec (show (exec (Router.step listAndGet 1) {}
    serveOne).map Router.sent = some [⟨some 0, [[1], [], []]⟩,
      ⟨some 1, [[2], [], [10, 6, 10, 1, 107, 18, 1, 49]]⟩] by decide +kernel)
  have hwf : ∀ a ∈ serveOne, a.WellFormed := by
    simp only [serveOne, List.cons_append, List.mem_cons, List.mem_append, List.mem_replicate]
    rintro a (rfl | (⟨-, rfl⟩ | ⟨-, rfl⟩) | rfl | rfl | rfl | rfl | rfl | rfl | rfl | h)
    · exact ⟨[[1]], _, rfl, by simp⟩
    · trivial
    · trivial
    · exact ⟨[[2]], _, rfl, by simp⟩
    all_goals trivial
  have hrun : RouterRun listAndGet 1 serveOne r := hrun.guarded_of_forall fun _ ↦ hwf
  exact ⟨r, hrun, hsent, (answered_exactly_once hrun).1⟩

end MemcacheRouter
