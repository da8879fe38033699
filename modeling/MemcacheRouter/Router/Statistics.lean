import Mathlib.Data.UInt
import Mathlib.Tactic.LinearCombination
import Mathlib.Tactic.Ring
import MemcacheRouter.Router.Conservation
import MemcacheRouter.Routerlib.Protocol

/-!
# Statistics

What the router counts. Every worker has three `Stats` of its own: how long its turns took, how
many packets there were in a turn, and how long the packets took. Every hundred turns or so it draws
a number, and if it is the right one the worker merges its `Stats` into those of the router, one
after the other, and begins anew. The queue counts what is pushed and popped.

A packet that was dealt with is counted once: in the `Stats` of the router, in those of the worker
that has not merged them yet, or in those of a worker that has exited and taken them with it. The
three `Stats` of the router fit together whenever no worker is in the middle of merging. And if
there is only one worker, it never draws the right number.

The steps are those of the router. What they count depends on where the worker is.
-/

open Transition
open scoped UInt64.CommRing

namespace MemcacheRouter

/-! ## Counting -/

/-- `router_utils::Stats`. -/
structure Stats where
  counter : UInt64 := 0
  value : UInt64 := 0
  deriving DecidableEq, Repr

namespace Stats

/-- `Stats::Increment`. -/
def increment (s : Stats) (x : ℤ) : Stats := ⟨s.counter + 1, s.value + x⟩

/-- `ThreadSafeStats::Merge`. -/
def merge (s t : Stats) : Stats := ⟨s.counter + t.counter, s.value + t.value⟩

end Stats

/-- The three `Stats` of `ProcessPackets`. -/
structure Meter where
  loop : Stats := {}
  batch : Stats := {}
  packet : Stats := {}
  deriving DecidableEq, Repr

/-- All three are merged. -/
def Meter.merge (m n : Meter) : Meter :=
  ⟨m.loop.merge n.loop, m.batch.merge n.batch, m.packet.merge n.packet⟩

/-- What a worker is about to do at the end of a turn: nothing, or to merge its `Stats` one after
the other, and then to reset them. -/
inductive MergeStage where
  | idle | loop | batch | packet | reset
  deriving DecidableEq, Repr

/-- The local variables of `ProcessPackets` that count. -/
structure WorkerMeter extends Meter where
  counter : ℕ := 0
  stage : MergeStage := .idle
  deriving DecidableEq, Repr

namespace WorkerMeter

variable (m : WorkerMeter)

/-- So many packets were popped. -/
def popped (n : ℕ) : WorkerMeter := { m with batch := m.batch.increment (Routerlib.toInt n) }

/-- A packet was dealt with. -/
def answered (delay : ℤ) : WorkerMeter := { m with packet := m.packet.increment delay }

/-- The end of a turn, with the number that `rd` returns. -/
def turned (numThreads : ℕ) (delay : ℤ) (rd : ℕ) : WorkerMeter :=
  { m with
    loop := m.loop.increment delay
    counter := if 100 < m.counter + 1 then 0 else m.counter + 1
    stage := if 100 < m.counter + 1 ∧ rd % numThreads = 1 then .loop else .idle }

end WorkerMeter

/-- The router, and what was counted: by each worker, by all of them together, and by the queue.
What workers had not merged when they exited is lost. -/
structure Metered where
  router : Router := {}
  meters : ℕ → WorkerMeter := fun _ ↦ {}
  shared : Meter := {}
  pushStats : Stats := {}
  popStats : Stats := {}
  lost : Meter := {}

/-- A step of the router, with the time that is measured in it and the number that is drawn, or a
step of merging. -/
inductive MeteredAction where
  | router (a : RouterAction) (delay : ℤ) (rd : ℕ)
  | merge (i : ℕ)

namespace Metered

variable (s : Metered)

/-- How many packets `BlockingPop` returns. -/
def popSize : ℕ := if s.router.queueDone then 0 else (popBatch Job.packet s.router.queue).1.length

/-- What worker `i` counts in its next step. -/
def record (numThreads i : ℕ) (delay : ℤ) (rd : ℕ) : WorkerMeter :=
  match s.router.workers[i]? with
  | some .initialising => {}
  | some .looping => if s.router.done then {} else s.meters i
  | some .popping => (s.meters i).popped s.popSize
  | some (.processing (j :: _) _) =>
    match j.packet.getType with
    | .ok .set | .ok .increment => (s.meters i).answered delay
    | _ => s.meters i
  | some (.processing [] (_ :: _)) => (s.meters i).answered delay
  | some (.processing [] []) => (s.meters i).turned numThreads delay rd
  | _ => s.meters i

/-- What is lost when worker `i` takes its next step. -/
def losing (i : ℕ) : Meter :=
  match s.router.workers[i]? with
  | some .looping => if s.router.done then s.lost.merge (s.meters i).toMeter else s.lost
  | _ => s.lost

/-- What the queue counts when worker `i` takes its next step. -/
def popping (i : ℕ) (delay : ℤ) : Stats :=
  match s.router.workers[i]? with
  | some .popping => if s.router.queueDone then s.popStats else s.popStats.increment delay
  | _ => s.popStats

/-- What the queue counts in the next step of the main loop. -/
def pushing (delay : ℤ) : Stats :=
  match s.router.main with
  | .pushing _ => s.pushStats.increment delay
  | _ => s.pushStats

/-- The next merge of worker `i`. Each is under the mutex of what it merges into. -/
def mergeStep (i : ℕ) : Option Metered :=
  match (s.meters i).stage with
  | .idle => none
  | .loop => some { s with
      shared := { s.shared with loop := s.shared.loop.merge (s.meters i).loop }
      meters := Function.update s.meters i { s.meters i with stage := .batch } }
  | .batch => some { s with
      shared := { s.shared with batch := s.shared.batch.merge (s.meters i).batch }
      meters := Function.update s.meters i { s.meters i with stage := .packet } }
  | .packet => some { s with
      shared := { s.shared with packet := s.shared.packet.merge (s.meters i).packet }
      meters := Function.update s.meters i { s.meters i with stage := .reset } }
  | .reset => some { s with
      meters := Function.update s.meters i { counter := (s.meters i).counter } }

/-- One step. A worker that merges does nothing else. -/
def step (codec : Codec) (numThreads : ℕ) (s : Metered) : MeteredAction → Option Metered
  | .router (.worker i result) delay rd =>
    if (s.meters i).stage = .idle then
      (s.router.step codec numThreads (.worker i result)).map fun r ↦ { s with
        router := r
        meters := Function.update s.meters i (s.record numThreads i delay rd)
        popStats := s.popping i delay
        lost := s.losing i }
    else none
  | .router (.main result) delay _ =>
    (s.router.step codec numThreads (.main result)).map fun r ↦
      { s with router := r, pushStats := s.pushing delay }
  | .router a _ _ => (s.router.step codec numThreads a).map fun r ↦ { s with router := r }
  | .merge i => s.mergeStep i

end Metered

/-! ## What fits together -/

/-- A turn that has begun and not ended. -/
def WorkerState.inTurn : WorkerState → UInt64
  | processing _ _ => 1
  | _ => 0

/-- What a worker has counted, where it is: all packets of its turns, but for those that it has
still to deal with. -/
structure WorkerMeter.Fits (m : WorkerMeter) (w : WorkerState) : Prop where
  turns : m.batch.counter = m.loop.counter + w.inTurn
  jobs : m.batch.value = m.packet.counter + (w.jobs.length : ℕ)
  stage : m.stage ≠ .idle → w = .looping
  fresh : w = .starting ∨ w = .initialising ∨ w = .exited → m = {}

namespace WorkerMeter

/-- The packets that a worker has counted and not merged. -/
def unmerged (m : WorkerMeter) : UInt64 := if m.stage = .reset then 0 else m.packet.counter

/-- The turns of a worker that were merged into `loop_latency_` and not into `batch_size_`. -/
def turnsAhead (m : WorkerMeter) : UInt64 := if m.stage = .batch then m.batch.counter else 0

/-- The packets of a worker that were merged into `batch_size_` and not into `packet_latency_`. -/
def packetsAhead (m : WorkerMeter) : UInt64 := if m.stage = .packet then m.packet.counter else 0

theorem fits_empty {w : WorkerState} (hturn : w.inTurn = 0) (hjobs : w.jobs = []) :
    ({} : WorkerMeter).Fits w := by
  refine ⟨?_, ?_, fun h ↦ absurd rfl h, fun _ ↦ rfl⟩
  · rw [hturn]
    rfl
  · rw [hjobs]
    rfl

theorem stage_turned (m : WorkerMeter) (numThreads : ℕ) (delay : ℤ) (rd : ℕ) :
    (m.turned numThreads delay rd).stage = .idle ∨
      (m.turned numThreads delay rd).stage = .loop := by
  rw [turned]
  dsimp only
  split_ifs
  · exact Or.inr rfl
  · exact Or.inl rfl

/-- A worker in a turn deals with a packet. -/
theorem Fits.answered {m : WorkerMeter} {w : WorkerState} (h : m.Fits w) (hidle : m.stage = .idle)
    (hw : w.inTurn = 1) {todo gets : List Job}
    (hjobs : w.jobs.length = (todo ++ gets).length + 1) (delay : ℤ) :
    (m.answered delay).Fits (.processing todo gets) := by
  refine ⟨?_, ?_, fun hne ↦ absurd hidle hne, by simp⟩
  · change m.batch.counter = m.loop.counter + 1
    rw [h.turns, hw]
  · change m.batch.value = m.packet.counter + 1 + ((todo ++ gets).length : ℕ)
    rw [h.jobs, hjobs, Nat.cast_add, Nat.cast_one, add_assoc, add_comm (1 : UInt64)]

/-- A worker merges between two turns. -/
theorem Fits.at_stage {m : WorkerMeter} (h : m.Fits .looping) (stage : MergeStage) :
    { m with stage := stage }.Fits .looping :=
  ⟨h.turns, h.jobs, fun _ ↦ rfl, by simp⟩

end WorkerMeter

namespace Metered

variable {s s' : Metered} {codec : Codec} {numThreads : ℕ}

/-- A sum over the workers. -/
noncomputable def total (s : Metered) (g : WorkerMeter → UInt64) : UInt64 :=
  ∑ i ∈ Finset.range s.router.workers.length, g (s.meters i)

/-- The invariant. -/
structure Exact (s : Metered) : Prop where
  settled : s.router.Settled
  fits : ∀ i w, s.router.workers[i]? = some w → (s.meters i).Fits w
  absent : ∀ i, s.router.workers[i]? = none → s.meters i = {}
  pushed : s.pushStats.counter = (s.router.queue.length + s.router.taken.length : ℕ)
  packets : s.shared.packet.counter + s.total WorkerMeter.unmerged + s.lost.packet.counter =
    (s.router.finished.length : ℕ)
  turns : s.shared.batch.counter + s.total WorkerMeter.turnsAhead = s.shared.loop.counter
  sizes : s.shared.packet.counter + s.total WorkerMeter.packetsAhead = s.shared.batch.value

theorem exact_init : ({} : Metered).Exact where
  settled := Router.settled_init
  fits _ _ h := by cases h
  absent _ _ := rfl
  pushed := rfl
  packets := rfl
  turns := rfl
  sizes := rfl

/-- One worker has counted something. -/
theorem total_update {i : ℕ} {w : WorkerState} (hi : s.router.workers[i]? = some w)
    (g : WorkerMeter → UInt64) (m : WorkerMeter) :
    ∑ j ∈ Finset.range s.router.workers.length, g (Function.update s.meters i m j) +
      g (s.meters i) = s.total g + g m :=
  sum_update g s.meters (Finset.mem_range.mpr (List.getElem?_eq_some_iff.mp hi).1) m

/-- **A worker takes a step.** -/
theorem Exact.worker (h : s.Exact) {r : Router} (hr : r.Settled) {i : ℕ} {w w' : WorkerState}
    (hi : s.router.workers[i]? = some w) (hworkers : r.workers = s.router.workers.set i w')
    (hqueue : r.queue.length + r.taken.length = s.router.queue.length + s.router.taken.length)
    (hidle : (s.meters i).stage = .idle) {m : WorkerMeter} (hm : m.Fits w')
    (hstage : m.stage = .idle ∨ m.stage = .loop) {lost : Meter} (pop : Stats)
    (hfinished : m.packet.counter + lost.packet.counter + (s.router.finished.length : ℕ) =
      (s.meters i).packet.counter + s.lost.packet.counter + (r.finished.length : ℕ)) :
    Exact { s with
      router := r, meters := Function.update s.meters i m, popStats := pop, lost := lost } := by
  have hlen : r.workers.length = s.router.workers.length := by rw [hworkers, List.length_set]
  have htotal : ∀ g, total { s with router := r, meters := Function.update s.meters i m } g +
      g (s.meters i) = s.total g + g m := by
    intro g
    have hsum := total_update hi g m
    rwa [← hlen] at hsum
  have hzero : ∀ g : WorkerMeter → UInt64, g (s.meters i) = 0 → g m = 0 →
      total { s with router := r, meters := Function.update s.meters i m } g = s.total g := by
    intro g hold hnew
    have hsum := htotal g
    rwa [hold, hnew, add_zero, add_zero] at hsum
  refine ⟨hr, fun j w₁ hj ↦ ?_, fun j hj ↦ ?_, ?_, ?_, ?_, ?_⟩
  · dsimp only at hj ⊢
    rw [hworkers, List.getElem?_set] at hj
    by_cases hij : i = j
    · subst hij
      rw [if_pos rfl, if_pos (List.getElem?_eq_some_iff.mp hi).1] at hj
      obtain rfl := Option.some.inj hj
      rwa [Function.update_self]
    · rw [if_neg hij] at hj
      rw [Function.update_of_ne (Ne.symm hij)]
      exact h.fits j w₁ hj
  · dsimp only at hj ⊢
    rw [hworkers, List.getElem?_eq_none_iff, List.length_set, ← List.getElem?_eq_none_iff] at hj
    have hij : j ≠ i := by
      rintro rfl
      rw [hi] at hj
      cases hj
    rw [Function.update_of_ne hij]
    exact h.absent j hj
  · exact h.pushed.trans (congrArg _ hqueue.symm)
  · have hpackets := h.packets
    have hsum := htotal WorkerMeter.unmerged
    have hold : (s.meters i).unmerged = (s.meters i).packet.counter := by
      rw [WorkerMeter.unmerged, if_neg (by simp [hidle])]
    have hnew : m.unmerged = m.packet.counter := by
      rw [WorkerMeter.unmerged, if_neg (by rcases hstage with hs | hs <;> simp [hs])]
    rw [hold, hnew] at hsum
    change s.shared.packet.counter + total { s with
      router := r, meters := Function.update s.meters i m } WorkerMeter.unmerged +
        lost.packet.counter = (r.finished.length : ℕ)
    linear_combination hpackets + hsum + hfinished
  · refine Eq.trans ?_ h.turns
    rw [← hzero WorkerMeter.turnsAhead]
    · rfl
    · rw [WorkerMeter.turnsAhead, if_neg (by simp [hidle])]
    · rw [WorkerMeter.turnsAhead, if_neg (by rcases hstage with hs | hs <;> simp [hs])]
  · refine Eq.trans ?_ h.sizes
    rw [← hzero WorkerMeter.packetsAhead]
    · rfl
    · rw [WorkerMeter.packetsAhead, if_neg (by simp [hidle])]
    · rw [WorkerMeter.packetsAhead, if_neg (by rcases hstage with hs | hs <;> simp [hs])]

/-- A batch is not longer than it may have keys. -/
theorem length_popLoop (packets : List Job) : ∀ n,
    (popLoop Job.packet n packets).1.length ≤ maxKeysPerRequest - n := by
  induction packets with
  | nil => exact fun _ ↦ Nat.zero_le _
  | cons j js ih =>
    intro n
    rw [popLoop]
    split_ifs with hlt hget hzero
    · rw [hzero, Nat.sub_zero]
      exact Nat.one_le_ofNat
    · exact Nat.zero_le _
    · have hkeys : 0 < j.packet.instruction.getKeys.length := by
        rw [Packet.isGet, Bool.not_eq_true', decide_eq_false_iff_not, not_not] at hget
        exact List.length_pos_iff.mpr hget
      have hrest := ih (n + j.packet.instruction.getKeys.length)
      rw [List.length_cons]
      omega
    · exact Nat.zero_le _

/-- The size of a batch is counted as it is. -/
theorem intCast_popSize (s : Metered) : ((Routerlib.toInt s.popSize : ℤ) : UInt64) =
    (s.popSize : ℕ) := by
  have hle : s.popSize ≤ maxKeysPerRequest := by
    rw [popSize]
    split_ifs
    · exact Nat.zero_le _
    · exact length_popLoop _ 0
  rw [Routerlib.toInt_eq (hle.trans_lt (by decide)), Int.cast_natCast]

/-- One packet more. -/
theorem count_one (p l : UInt64) (finished : List Job) (j : Job) :
    p + 1 + l + (finished.length : ℕ) = p + l + ((finished ++ [j]).length : ℕ) := by
  rw [List.length_append, List.length_singleton, Nat.cast_add, Nat.cast_one]
  ring

/-- **A worker counts what it does.** -/
theorem Exact.worker_step (h : s.Exact) {i : ℕ} {result : Instruction} {r : Router}
    (hidle : (s.meters i).stage = .idle)
    (hstep : s.router.step codec numThreads (.worker i result) = some r) (delay : ℤ) (rd : ℕ) :
    Exact { s with
      router := r
      meters := Function.update s.meters i (s.record numThreads i delay rd)
      popStats := s.popping i delay
      lost := s.losing i } := by
  have hr := h.settled.of_moves (Router.moves_of_step hstep)
  cases Router.moves_of_step hstep with
  | @control _ w w' lock _ hi hc =>
    have hfits := h.fits i _ hi
    rw [record, losing, hi]
    cases hc with
    | acquire _ =>
      have hfresh := hfits.fresh (Or.inl rfl)
      refine h.worker hr hi rfl rfl hidle ?_ (Or.inl hidle) _ rfl
      rw [hfresh]
      exact WorkerMeter.fits_empty rfl rfl
    | release =>
      have hfresh := hfits.fresh (Or.inr (Or.inl rfl))
      refine h.worker hr hi rfl rfl hidle (WorkerMeter.fits_empty rfl rfl) (Or.inl rfl) _ ?_
      rw [hfresh]
      rfl
    -- what the worker has not merged is lost with it
    | exit hdone =>
      rw [if_pos hdone, if_pos hdone]
      refine h.worker hr hi rfl rfl hidle (WorkerMeter.fits_empty rfl rfl) (Or.inl rfl) _ ?_
      change 0 + (s.lost.packet.counter + (s.meters i).packet.counter) + _ = _
      rw [zero_add, add_comm s.lost.packet.counter]
      rfl
    | enter hdone =>
      rw [if_neg (by simp [hdone]), if_neg (by simp [hdone])]
      refine h.worker hr hi rfl rfl hidle ⟨hfits.turns, hfits.jobs, ?_, ?_⟩ (Or.inl hidle) _ rfl
      · exact fun hne ↦ absurd hidle hne
      · simp
    -- a pop that returns nothing is counted as a batch of none
    | unblocked hdone =>
      have hsize : s.popSize = 0 := if_pos hdone
      refine h.worker hr hi rfl rfl hidle ⟨?_, ?_, ?_, by simp⟩ ?_ _ ?_
      · change (s.meters i).batch.counter + 1 = (s.meters i).loop.counter + 1
        rw [hfits.turns]
        exact congrArg (· + 1) (add_zero _)
      · change (s.meters i).batch.value + _ = (s.meters i).packet.counter + _
        rw [hfits.jobs, intCast_popSize, hsize, add_assoc]
        rfl
      · exact fun hne ↦ absurd hidle hne
      · exact Or.inl hidle
      · rfl
    | again =>
      refine h.worker hr hi rfl rfl hidle ⟨?_, ?_, fun _ ↦ rfl, by simp⟩ ?_ _ ?_
      · change (s.meters i).batch.counter = (s.meters i).loop.counter + 1 + 0
        rw [hfits.turns, add_zero]
        rfl
      · exact hfits.jobs
      · exact WorkerMeter.stage_turned _ _ _ _
      · rfl
  | @pop _ _ hi hdone hqueue =>
    have hfits := h.fits i _ hi
    have hsize : s.popSize = (popBatch Job.packet s.router.queue).1.length :=
      if_neg (by simp [hdone])
    have hlength := congrArg List.length (popBatch_append Job.packet s.router.queue)
    rw [List.length_append] at hlength
    rw [record, losing, hi]
    refine h.worker hr hi rfl ?_ hidle ⟨?_, ?_, ?_, by simp⟩ ?_ _ ?_
    · dsimp only
      rw [List.length_append]
      omega
    · change (s.meters i).batch.counter + 1 = (s.meters i).loop.counter + 1
      rw [hfits.turns]
      exact congrArg (· + 1) (add_zero _)
    · change (s.meters i).batch.value + _ = (s.meters i).packet.counter + _
      rw [hfits.jobs, intCast_popSize, hsize, Router.jobs_popped, add_assoc]
      exact congrArg _ (zero_add _)
    · exact fun hne ↦ absurd hidle hne
    · exact Or.inl hidle
    · rfl
  | @handleSet _ j todo gets _ hi ht =>
    have hfits : ((s.meters i).answered delay).Fits (.processing todo gets) :=
      (h.fits i _ hi).answered hidle rfl rfl delay
    rw [record, losing, hi]
    dsimp only
    rw [ht]
    exact h.worker hr hi rfl rfl hidle hfits (Or.inl hidle) _ (count_one _ _ _ _)
  | @handleIncr _ j todo gets _ hi ht =>
    have hfits : ((s.meters i).answered delay).Fits (.processing todo gets) :=
      (h.fits i _ hi).answered hidle rfl rfl delay
    rw [record, losing, hi]
    dsimp only
    rw [ht]
    exact h.worker hr hi rfl rfl hidle hfits (Or.inl hidle) _ (count_one _ _ _ _)
  | @handleGet _ j todo gets _ hi ht =>
    have hfits := h.fits i _ hi
    rw [record, losing, hi]
    dsimp only
    rw [ht]
    refine h.worker hr hi rfl rfl hidle ⟨hfits.turns, ?_, ?_, by simp⟩ ?_ _ ?_
    · rw [hfits.jobs, (Router.perm_putAside j todo gets).length_eq]
      rfl
    · exact fun hne ↦ absurd hidle hne
    · exact Or.inl hidle
    · rfl
  | handleOther hi ht => exact absurd ht (h.settled.not_other hi)
  | @answerGet _ j gets _ hi =>
    have hfits : ((s.meters i).answered delay).Fits (.processing [] gets) :=
      (h.fits i _ hi).answered hidle rfl rfl delay
    rw [record, losing, hi]
    exact h.worker hr hi rfl rfl hidle hfits (Or.inl hidle) _ (count_one _ _ _ _)

/-- The workers count nothing in this step. -/
theorem Exact.of_total (h : s.Exact) {r : Router} (hr : r.Settled)
    (hfits : ∀ i w, r.workers[i]? = some w → (s.meters i).Fits w)
    (habsent : ∀ i, r.workers[i]? = none → s.meters i = {})
    (hfinished : r.finished = s.router.finished) {push : Stats}
    (hpush : push.counter = (r.queue.length + r.taken.length : ℕ))
    (htotal : ∀ g : WorkerMeter → UInt64, g {} = 0 →
      ∑ i ∈ Finset.range r.workers.length, g (s.meters i) = s.total g) :
    Exact { s with router := r, pushStats := push } where
  settled := hr
  fits := hfits
  absent := habsent
  pushed := hpush
  packets := by
    rw [total, htotal _ rfl, hfinished]
    exact h.packets
  turns := by
    rw [total, htotal _ rfl]
    exact h.turns
  sizes := by
    rw [total, htotal _ rfl]
    exact h.sizes

/-- The main loop leaves the workers alone. -/
theorem Exact.of_workers (h : s.Exact) {r : Router} (hr : r.Settled)
    (hworkers : r.workers = s.router.workers) (hfinished : r.finished = s.router.finished)
    {push : Stats} (hpush : push.counter = (r.queue.length + r.taken.length : ℕ)) :
    Exact { s with router := r, pushStats := push } := by
  refine h.of_total hr ?_ ?_ hfinished hpush fun g _ ↦ ?_
  · rw [hworkers]
    exact h.fits
  · rw [hworkers]
    exact h.absent
  · rw [hworkers]
    rfl

/-- **The main loop counts what it pushes.** -/
theorem Exact.main_step (h : s.Exact) {result : Instruction} {r : Router}
    (hstep : s.router.step codec numThreads (.main result) = some r) (delay : ℤ) :
    Exact { s with router := r, pushStats := s.pushing delay } := by
  have hr := h.settled.of_moves (Router.moves_of_step hstep)
  cases Router.moves_of_step hstep with
  | dispatchList hmain _ | dispatchSet hmain _ | dispatchStats hmain _ | dispatchQueue hmain _
  | join hmain _ | answerList hmain =>
    rw [pushing, hmain]
    exact h.of_workers hr rfl rfl h.pushed
  | push hmain =>
    rw [pushing, hmain]
    refine h.of_workers hr rfl rfl ?_
    change s.pushStats.counter + 1 = _
    rw [h.pushed, List.length_append, List.length_singleton, Nat.add_right_comm, Nat.cast_succ]
  | serve hserves =>
    obtain ⟨j, hj, -⟩ := hserves.serving
    have hpush : s.pushing delay = s.pushStats := by
      rw [pushing]
      split
      · next heq =>
        rw [heq] at hj
        cases hj
      · rfl
    rw [hpush]
    exact h.of_workers hr rfl rfl h.pushed
  | @clear j i _ hmain hi =>
    rw [pushing, hmain]
    -- all threads have exited, and taken with them what they had not merged
    have hmeters : ∀ k, s.meters k = {} := by
      intro k
      rcases hk : s.router.workers[k]? with _ | w
      · exact h.absent k hk
      · have hlt : k < i := by
          have hlen := (List.getElem?_eq_some_iff.mp hk).1
          exact hlen.trans_le (List.getElem?_eq_none_iff.mp hi)
        rw [h.settled.joined j i hmain k hlt] at hk
        obtain rfl := Option.some.inj hk
        exact (h.fits k _ (h.settled.joined j i hmain k hlt)).fresh (Or.inr (Or.inr rfl))
    refine h.of_total hr ?_ (fun k _ ↦ hmeters k) rfl h.pushed fun g hg ↦ ?_
    · intro k w hk
      cases hk
    · refine (Finset.sum_eq_zero fun k _ ↦ ?_).symm
      rw [hmeters, hg]
  | spawn hmain =>
    rw [pushing, hmain]
    have hnew : s.meters s.router.workers.length = {} :=
      h.absent _ (List.getElem?_eq_none_iff.mpr le_rfl)
    refine h.of_total hr ?_ ?_ rfl h.pushed fun g hg ↦ ?_
    · intro k w hk
      rw [List.getElem?_append] at hk
      split_ifs at hk with hlt
      · exact h.fits k w hk
      · rw [List.getElem?_singleton] at hk
        split_ifs at hk
        obtain rfl := Option.some.inj hk
        rw [h.absent k (List.getElem?_eq_none_iff.mpr (Nat.not_lt.mp hlt))]
        exact WorkerMeter.fits_empty rfl rfl
    · intro k hk
      rw [List.getElem?_eq_none_iff, List.length_append] at hk
      exact h.absent k (List.getElem?_eq_none_iff.mpr (Nat.le_of_add_right_le hk))
    · dsimp only
      rw [List.length_append, List.length_singleton, Finset.sum_range_succ, hnew, hg, add_zero]
      rfl

/-- One worker and the router share out what they have counted. -/
theorem Exact.shared_step (h : s.Exact) {i : ℕ} (hi : s.router.workers[i]? = some .looping)
    {m : WorkerMeter} (hm : m.Fits .looping) {shared : Meter}
    (hpackets : shared.packet.counter + m.unmerged =
      s.shared.packet.counter + (s.meters i).unmerged)
    (hturns : shared.batch.counter + m.turnsAhead + s.shared.loop.counter =
      s.shared.batch.counter + (s.meters i).turnsAhead + shared.loop.counter)
    (hsizes : shared.packet.counter + m.packetsAhead + s.shared.batch.value =
      s.shared.packet.counter + (s.meters i).packetsAhead + shared.batch.value) :
    Exact { s with shared := shared, meters := Function.update s.meters i m } where
  settled := h.settled
  fits j w hj := by
    dsimp only at hj ⊢
    by_cases hij : j = i
    · subst hij
      rw [hi] at hj
      obtain rfl := Option.some.inj hj
      rwa [Function.update_self]
    · rw [Function.update_of_ne hij]
      exact h.fits j w hj
  absent j hj := by
    have hij : j ≠ i := by
      rintro rfl
      rw [hi] at hj
      cases hj
    dsimp only
    rw [Function.update_of_ne hij]
    exact h.absent j hj
  pushed := h.pushed
  packets := by
    have hsum := total_update hi WorkerMeter.unmerged m
    rw [total]
    linear_combination h.packets + hsum + hpackets
  turns := by
    have hsum := total_update hi WorkerMeter.turnsAhead m
    rw [total]
    linear_combination h.turns + hsum + hturns
  sizes := by
    have hsum := total_update hi WorkerMeter.packetsAhead m
    rw [total]
    linear_combination h.sizes + hsum + hsizes

/-- **A merge moves a count** from a worker to the router. -/
theorem Exact.merge_step (h : s.Exact) {i : ℕ} (hstep : s.mergeStep i = some s') : s'.Exact := by
  have hlooping : (s.meters i).stage ≠ .idle → s.router.workers[i]? = some .looping := by
    intro hne
    rcases hi : s.router.workers[i]? with _ | w
    · exact absurd (h.absent i hi) fun heq ↦ hne (by rw [heq])
    · rw [(h.fits i w hi).stage hne]
  rw [mergeStep] at hstep
  rcases hstage : (s.meters i).stage <;> rw [hstage] at hstep
  case idle => cases hstep
  all_goals
    obtain rfl := Option.some.inj hstep
    have hi := hlooping (by simp [hstage])
    have hfits := h.fits i _ hi
    -- outside a turn, the three counts of a worker agree
    have hturn : (s.meters i).batch.counter = (s.meters i).loop.counter :=
      hfits.turns.trans (add_zero _)
    have hjobs : (s.meters i).batch.value = (s.meters i).packet.counter :=
      hfits.jobs.trans (add_zero _)
  case loop =>
    refine h.shared_step hi (hfits.at_stage _) ?_ ?_ ?_
    · simp [WorkerMeter.unmerged, hstage]
    · simp only [WorkerMeter.turnsAhead, Stats.merge, hstage]
      simp only [reduceCtorEq, if_true, if_false]
      linear_combination hturn
    · simp [WorkerMeter.packetsAhead, hstage]
  case batch =>
    refine h.shared_step hi (hfits.at_stage _) ?_ ?_ ?_
    · simp [WorkerMeter.unmerged, hstage]
    · simp [WorkerMeter.turnsAhead, Stats.merge, hstage]
    · simp only [WorkerMeter.packetsAhead, Stats.merge, hstage]
      simp only [reduceCtorEq, if_true, if_false]
      linear_combination -hjobs
  case packet =>
    refine h.shared_step hi (hfits.at_stage _) ?_ ?_ ?_
    · simp [WorkerMeter.unmerged, Stats.merge, hstage]
    · simp [WorkerMeter.turnsAhead, hstage]
    · simp [WorkerMeter.packetsAhead, Stats.merge, hstage]
  case reset =>
    refine h.shared_step hi ⟨rfl, rfl, fun hne ↦ absurd rfl hne, by simp⟩ ?_ ?_ ?_
    · simp [WorkerMeter.unmerged, hstage]
    · simp [WorkerMeter.turnsAhead, hstage]
    · simp [WorkerMeter.packetsAhead, hstage]

/-- **One step.** -/
theorem Exact.step (h : s.Exact) {a : MeteredAction} (hstep : s.step codec numThreads a = some s') :
    s'.Exact := by
  rcases a with ⟨a, delay, rd⟩ | i
  · rcases a with message | message | n | result | ⟨i, result⟩
    case worker =>
      rw [Metered.step] at hstep
      split_ifs at hstep with hidle
      obtain ⟨r, hr, rfl⟩ := Option.map_eq_some_iff.mp hstep
      exact h.worker_step hidle hr delay rd
    case main =>
      obtain ⟨r, hr, rfl⟩ := Option.map_eq_some_iff.mp hstep
      exact h.main_step hr delay
    all_goals
      obtain ⟨r, hr, rfl⟩ := Option.map_eq_some_iff.mp hstep
      have hacc := h.settled.of_moves (Router.moves_of_step hr)
      cases Router.moves_of_step hr
      exact h.of_workers hacc rfl rfl h.pushed
  · exact h.merge_step hstep

/-! ## One worker -/

/-- Nothing was merged, and nothing is about to be. -/
structure Unmerged (s : Metered) : Prop where
  idle : ∀ i, (s.meters i).stage = .idle
  shared : s.shared = {}

/-- A single worker never draws the right number. -/
theorem stage_record (hidle : ∀ i, (s.meters i).stage = .idle) (i : ℕ) (delay : ℤ) (rd : ℕ) :
    (s.record 1 i delay rd).stage = .idle := by
  rw [record]
  split
  · rfl
  · split_ifs
    · rfl
    · exact hidle i
  · exact hidle i
  · split <;> exact hidle i
  · exact hidle i
  · rw [WorkerMeter.turned]
    exact if_neg fun h ↦ by simp [Nat.mod_one] at h
  · exact hidle i

/-- **One worker merges nothing.** -/
theorem Unmerged.step (h : s.Unmerged) {a : MeteredAction}
    (hstep : s.step codec 1 a = some s') : s'.Unmerged := by
  rcases a with ⟨a, delay, rd⟩ | i
  · rcases a with message | message | n | result | ⟨i, result⟩
    case worker =>
      rw [Metered.step, if_pos (h.idle i)] at hstep
      obtain ⟨r, -, rfl⟩ := Option.map_eq_some_iff.mp hstep
      refine ⟨fun j ↦ ?_, h.shared⟩
      dsimp only
      rw [Function.update_apply]
      split_ifs
      · exact stage_record h.idle i delay rd
      · exact h.idle j
    all_goals
      obtain ⟨r, -, rfl⟩ := Option.map_eq_some_iff.mp hstep
      exact ⟨h.idle, h.shared⟩
  · rw [Metered.step, mergeStep, h.idle i] at hstep
    cases hstep

/-! ## Every run -/

/-- Between merges, nothing is ahead. -/
theorem total_eq_zero {g : WorkerMeter → UInt64} (h : ∀ i, g (s.meters i) = 0) :
    s.total g = 0 :=
  Finset.sum_eq_zero fun i _ ↦ h i

end Metered

/-- The runs of the router, with what is counted in them. -/
def MeteredRun (codec : Codec) (numThreads : ℕ) (as : List MeteredAction) (s : Metered) : Prop :=
  Run (StepOf (Metered.step codec numThreads)) {} as s

/-- **The statistics are exact**, up to overflow. The queue has counted all packets that were
pushed. The packets that were dealt with are those that the router has counted, those that the
workers have not merged yet, and those that workers took with them when they exited. When no worker
is merging, as many turns as batches are counted, and as many packets as the batches had. With one
worker the router counts nothing. -/
theorem statistics_exact {codec : Codec} {numThreads : ℕ} {as : List MeteredAction} {s : Metered}
    (h : MeteredRun codec numThreads as s) :
    s.pushStats.counter = (s.router.queue.length + s.router.taken.length : ℕ) ∧
    s.shared.packet.counter + s.total WorkerMeter.unmerged + s.lost.packet.counter =
      (s.router.finished.length : ℕ) ∧
    ((∀ i, (s.meters i).stage = .idle) → s.shared.batch.counter = s.shared.loop.counter ∧
      s.shared.batch.value = s.shared.packet.counter) ∧
    (numThreads = 1 → s.shared = {}) := by
  have hexact : s.Exact := h.invariant Metered.exact_init fun _ _ _ hs hstep ↦
    hs.step hstep
  refine ⟨hexact.pushed, hexact.packets, fun hidle ↦ ⟨?_, ?_⟩, ?_⟩
  · have hahead : s.total WorkerMeter.turnsAhead = 0 := Metered.total_eq_zero fun i ↦ by
      rw [WorkerMeter.turnsAhead, if_neg (by simp [hidle i])]
    rw [← hexact.turns, hahead, add_zero]
  · have hahead : s.total WorkerMeter.packetsAhead = 0 := Metered.total_eq_zero fun i ↦ by
      rw [WorkerMeter.packetsAhead, if_neg (by simp [hidle i])]
    rw [← hexact.sizes, hahead, add_zero]
  · rintro rfl
    have hinit : ({} : Metered).Unmerged := ⟨fun _ ↦ rfl, rfl⟩
    exact (h.invariant hinit fun _ _ _ hs hstep ↦ hs.step hstep).shared

/-- Two server lists and a SET. -/
def listsAndSet : Codec := .ofTable
  [([34, 5, 10, 1, 97, 16, 1], { servers := [⟨[97], 1⟩] }),
    ([34, 5, 10, 1, 98, 16, 1], { servers := [⟨[98], 1⟩] }),
    ([18, 6, 10, 1, 107, 18, 1, 49], { setKeys := [{ key? := some [107], val? := some [49] }] })]

/-- A SET arrives, and worker `i` deals with it. -/
def setTurn (i : ℕ) : List RouterAction :=
  .receiveAsync [[18, 6, 10, 1, 107, 18, 1, 49]] :: .main {} :: List.replicate 4 (.worker i {})

/-- Two workers are started. The one deals with a single SET, and the other with so many that it
draws a number. -/
def hundredTurns : List RouterAction :=
  .receive [[1], [], [34, 5, 10, 1, 97, 16, 1]] :: List.replicate 15 (.main {}) ++
    [.worker 0 {}, .worker 0 {}, .worker 1 {}, .worker 1 {}] ++ setTurn 1 ++
    (List.replicate 101 (setTurn 0)).flatten

/-- After one more SET another server list arrives, for which one worker exits at once. -/
def oneExits : List RouterAction :=
  setTurn 0 ++ .receive [[1], [], [34, 5, 10, 1, 98, 16, 1]] :: List.replicate 4 (.main {}) ++
    [.worker 1 {}]

/-- Every step takes some microseconds, and the number that is drawn is the right one. -/
def mergeAndExit : List MeteredAction :=
  hundredTurns.map (fun a ↦ .router a 3 1) ++ List.replicate 4 (.merge 0) ++
    oneExits.map fun a ↦ .router a 3 0

/-- Of 103 packets 101 are merged, one is not merged yet, and one is lost. -/
theorem statistics_exact_mergeAndExit : ∃ s, MeteredRun listsAndSet 2 mergeAndExit s ∧
    s.pushStats = ⟨103, 309⟩ ∧
    s.shared = ⟨⟨101, 303⟩, ⟨101, 101⟩, ⟨101, 303⟩⟩ ∧
    (s.meters 0).packet = ⟨1, 3⟩ ∧ s.lost.packet = ⟨1, 3⟩ ∧
    s.shared.packet.counter + s.total WorkerMeter.unmerged + s.lost.packet.counter =
      (s.router.finished.length : ℕ) := by
  obtain ⟨s, hrun, hcounts⟩ := exists_run_of_exec (show (exec (Metered.step listsAndSet 2) {}
    mergeAndExit).map (fun s ↦ (s.pushStats, s.shared, (s.meters 0).packet, s.lost.packet)) =
      some (⟨103, 309⟩, ⟨⟨101, 303⟩, ⟨101, 101⟩, ⟨101, 303⟩⟩, ⟨1, 3⟩, ⟨1, 3⟩) by decide +kernel)
  simp only [Prod.mk.injEq] at hcounts
  obtain ⟨hpush, hshared, hmeter, hlost⟩ := hcounts
  obtain ⟨-, hpackets, -⟩ := statistics_exact (show MeteredRun _ _ _ s from hrun)
  exact ⟨s, hrun, hpush, hshared, hmeter, hlost, hpackets⟩

end MemcacheRouter
