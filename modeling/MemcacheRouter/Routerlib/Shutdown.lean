import MemcacheRouter.Routerlib.Blocking

/-!
# Shutdown

A `Server` can be shut down at any moment that finds nobody in `AddCommand`. No thread follows a
`NULL` that `BlockingGetRequestNode` has returned, because `done_` is set by then and the thread
looks at it again; none is there when the `Server` is gone; and what a `ResponseState` returns is
complete. But a command can be lost. A thread that has
taken a node and finds `done_` deletes the node, and a node that nobody takes any more stays. Such a
command is never counted down, and who waits for its `ResponseState` waits forever
(`abandoned_never_answered`).
-/

open Transition

namespace MemcacheRouter.Routerlib

namespace Pipeline

variable {p p' : Pipeline} {b : PipelineAction}

/-- A command is handled by the threads of its `Server`. -/
structure Homed (p : Pipeline) : Prop where
  nodes : ∀ v n, p.nodes v = some n → ∀ c ∈ n.commands, c.server = v
  threads : ∀ t, ∀ c ∈ (p.threads t).commands, c.server = t.1

theorem homed_init : Homed {} where
  nodes _ _ h := nomatch h
  threads _ _ h := nomatch h

/-- A thread goes on with the same node, or with none. -/
theorem Homed.goto (h : p.Homed) {t : ℕ × ℕ} (pc : ThreadPc)
    (hpc : ∀ c ∈ pc.commands, c ∈ (p.threads t).commands) (hnodes : p'.nodes = p.nodes)
    (hthreads : p'.threads = (p.goto t pc).threads) : p'.Homed where
  nodes := hnodes ▸ h.nodes
  threads t' c hc := by
    rw [hthreads, threads_goto] at hc
    split_ifs at hc with ht
    · rw [ht]
      exact h.threads t c (hpc c hc)
    · exact h.threads t' c hc

theorem Homed.step (h : p.Homed) (hm : p.Moves b p') : p'.Homed := by
  cases hm with
  | increment _ => exact ⟨h.nodes, h.threads⟩
  | @enqueue c _ =>
    refine ⟨fun v n hn c' hc' ↦ ?_, h.threads⟩
    rw [nodes_enqueued] at hn
    split_ifs at hn with hv
    · obtain rfl := Option.some.inj hn
      rcases List.mem_append.mp hc' with hc' | hc'
      · rcases hold : p.nodes c.server with _ | n
        · rw [hold] at hc'
          cases hc'
        · rw [hold] at hc'
          exact (h.nodes _ n hold c' hc').trans hv.symm
      · rw [List.mem_singleton.mp hc', hv]
    · exact h.nodes v n hn c' hc'
  | @take t n _ hn =>
    refine ⟨fun v n' hn' ↦ ?_, fun t' c hc ↦ ?_⟩
    · rw [nodes_taken] at hn'
      split_ifs at hn'
      exact h.nodes v n' hn'
    · rw [threads_taken] at hc
      split_ifs at hc with ht
      · rw [ht]
        exact h.nodes _ n hn c hc
      · exact h.threads t' c hc
  | read ht _ hnode _ _ =>
    refine h.goto _ (fun c hc ↦ ?_) rfl rfl
    rw [ht]
    rwa [ThreadPc.commands, hnode] at hc
  | append ht _ _ => exact h.goto (.counting _ _) (fun c hc ↦ by rw [ht]; exact hc) rfl rfl
  | count ht _ _ _ => exact h.goto _ (fun c hc ↦ by rw [ht]; exact hc) rfl rfl
  | complete ht _ _ _ _ => exact h.goto (.reading _) (fun c hc ↦ by rw [ht]; exact hc) rfl rfl
  | finish _ _ _ => exact h.goto .waiting (fun _ hc ↦ absurd hc List.not_mem_nil) rfl rfl
  | getResponse _ => exact h

theorem homed_of_run {bs : List PipelineAction}
    (hrun : Run (Guarded (StepOf Pipeline.step) Orderly) {} bs p) : p.Homed := by
  suffices h : p.Local ∧ p.Homed from h.2
  refine hrun.invariant (I := fun p ↦ p.Local ∧ p.Homed) ⟨local_init, homed_init⟩ ?_
  rintro p b p' ⟨hlocal, hhomed⟩ ⟨hstep, hb⟩
  have hm := hlocal.moves hstep hb
  exact ⟨hlocal.step hm, hhomed.step hm⟩

end Pipeline

namespace Blocking

variable {s s' : Blocking} {a : BlockingAction} {v : ℕ} {c : Command}

theorem Inv.invariant (h : s.Inv) :
    s.pipeline.Local ∧ s.pipeline.Listed ∧ s.pipeline.Accounted := by
  obtain ⟨as, hrun⟩ := h.run
  exact Pipeline.invariant_of_run hrun

theorem Inv.homed (h : s.Inv) : s.pipeline.Homed := by
  obtain ⟨as, hrun⟩ := h.run
  exact Pipeline.homed_of_run hrun

/-- The commands of a thread that exits: those of the node it has taken, if any. -/
theorem Inv.commands_got (h : s.Inv) {t : ℕ × ℕ} {n : Option RequestNode} (ht : s.pc t = .got n) :
    (s.pipeline.threads t).commands = (n.map RequestNode.commands).getD [] := by
  have hworker := h.worker t
  rw [ht] at hworker
  rcases n with _ | n
  · rw [hworker.1]
    rfl
  · rw [hworker.1]
    rfl

/-- **Who exits.** A thread that exits drops its commands, and nobody else drops any. -/
theorem Inv.exits (h : s.Inv) (hm : s.Moves a s') :
    ((∀ t, s'.pc t = .exited ↔ s.pc t = .exited) ∧ s'.dropped = s.dropped) ∨
      ∃ t, s.pc t ≠ .exited ∧ (∀ t', s'.pc t' = .exited ↔ s.pc t' = .exited ∨ t' = t) ∧
        s'.dropped = s.dropped ++ (s.pipeline.threads t).commands ∧ s'.pipeline = s.pipeline := by
  have hback : ∀ {t' : ℕ × ℕ} {pc : WorkerPc}, pc ≠ .exited → ∀ t, (s.goto t' pc).pc t = .exited →
      s.pc t = .exited := by
    intro t' pc hpc t ht
    rw [pc_goto] at ht
    split_ifs at ht
    · exact absurd ht hpc
    · exact ht
  have hexit : ∀ t, s.pc t ≠ .exited → ∀ t', (s.goto t .exited).pc t' = .exited ↔
      s.pc t' = .exited ∨ t' = t := by
    intro t ht t'
    rw [pc_goto]
    split_ifs with heq <;> simp [heq]
  have hkeep := fun t ht ↦ (h.exited_step hm (t := t) ht).1
  cases hm with
  | construct _ =>
    refine Or.inl ⟨fun t ↦ ⟨fun ht ↦ ?_, hkeep t⟩, rfl⟩
    change (if _ then WorkerPc.top else s.pc t) = .exited at ht
    split_ifs at ht
    exact ht
  | @exit t ht _ =>
    have hne : s.pc t ≠ .exited := by simp [ht]
    have hworker := h.worker t
    rw [ht] at hworker
    refine Or.inr ⟨t, hne, hexit t hne, ?_, rfl⟩
    rw [hworker.1]
    exact (List.append_nil _).symm
  | @drop t n ht _ =>
    have hne : s.pc t ≠ .exited := by simp [ht]
    exact Or.inr ⟨t, hne, hexit t hne, by rw [h.commands_got ht], rfl⟩
  | enter _ _ _ | empty _ _ | take _ _ _ | crash _ _ | send _ _ | finish _ _ =>
    exact Or.inl ⟨fun t ↦ ⟨hback (by simp) t, hkeep t⟩, rfl⟩
  | increment _ _ | enqueue _ _ _ _ | queue _ | check _ | read _ _ | append _ _ _ | count _ _ _
  | complete _ _ _ _ _ | setDone _ | notifyAll _ | destroy _ _ | call _ | waiters _ | callCheck _
  | callReturn _ => exact Or.inl ⟨fun _ ↦ Iff.rfl, rfl⟩

/-- The commands that were dropped are those of the threads that have exited, each once. -/
structure DropsOk (s : Blocking) : Prop where
  mem_iff : ∀ c, c ∈ s.dropped ↔ ∃ t, s.pc t = .exited ∧ c ∈ (s.pipeline.threads t).commands
  nodup : s.dropped.Nodup

theorem dropsOk_init : DropsOk {} where
  mem_iff c := by
    refine iff_of_false List.not_mem_nil ?_
    rintro ⟨t, ht, -⟩
    cases ht
  nodup := List.nodup_nil

theorem DropsOk.step (hd : s.DropsOk) (h : s.Inv) (hm : s.Moves a s') : s'.DropsOk := by
  rcases h.exits hm with ⟨hiff, hdropped⟩ | ⟨t, hne, hiff, hdropped, hpipeline⟩
  · refine ⟨fun c ↦ ?_, hdropped ▸ hd.nodup⟩
    rw [hdropped, hd.mem_iff c]
    refine exists_congr fun t ↦ ?_
    rw [hiff t]
    exact and_congr_right fun ht ↦ by rw [(h.exited_step hm ht).2]
  · have hplaced := h.invariant.2.1.placed
    refine ⟨fun c ↦ ?_, ?_⟩
    · simp only [hdropped, hpipeline, List.mem_append, hd.mem_iff, hiff, or_and_right, exists_or,
        exists_eq_left]
    · rw [hdropped]
      refine List.nodup_append'.mpr ⟨hd.nodup, hplaced.nodup (.working t), fun c hold hnew ↦ ?_⟩
      obtain ⟨t', ht', hmem⟩ := (hd.mem_iff c).mp hold
      have heq := hplaced.disjoint (.working t') (.working t) c hmem hnew
      exact hne (Place.working.inj heq ▸ ht')

/-! ## What is safe -/

/-- Where a command is: in a place of the pipeline, or dropped. -/
def holds (s : Blocking) : Option Place → List Command
  | none => s.dropped
  | some (.working t) =>
    match s.pc t with
    | .exited => []
    | _ => (s.pipeline.threads t).commands
  | some p => s.pipeline.holds p

/-- What holds whenever the `Server`s are shut down. -/
structure Safe (s : Blocking) : Prop where
  /-- No thread uses a `NULL` or an index that is out of range. -/
  noNull : ∀ t, s.pc t ≠ .nullDereference
  noCrash : ∀ t e, s.pipeline.threads t ≠ .crashed e
  /-- Every command is with its caller, in the node of its `Server`, with a thread of it, answered
  or dropped, and it is there once. -/
  place : ∀ c ∈ s.pipeline.begun, ∃! p, c ∈ s.holds p
  once : ∀ p, (s.holds p).Nodup
  pending : ∀ v, ∀ c ∈ s.holds (some (.pending v)), c.server = v
  working : ∀ t, ∀ c ∈ s.holds (some (.working t)), c.server = t.1
  answered : ∀ c ∈ s.holds (some .deleted), s.pipeline.numAppended c = c.numInstructions
  /-- A command is dropped at the shutdown of its `Server` only. -/
  dropped : ∀ c ∈ s.holds none, s.done c.server = true
  /-- When a `Server` is gone, its threads have exited and nobody is adding a command to it. -/
  destroyed : ∀ v, s.stage v = .destroyed →
    s.Stopped v ∧ ∀ c ∈ s.holds (some .calling), c.server ≠ v
  /-- When a call of `BlockingGetResponse` returns, all frames are there of all commands that were
  begun for it. -/
  returns : ∀ i caller, (s.step (.callReturn i caller)).isSome → ∀ c ∈ s.pipeline.begun,
    c.state = i → s.pipeline.numAppended c = c.numInstructions

theorem Inv.place (h : s.Inv) (hd : s.DropsOk) (hc : c ∈ s.pipeline.begun) :
    ∃! p, c ∈ s.holds p := by
  have hplaced := h.invariant.2.1.placed
  obtain ⟨p, hp, hunique⟩ := hplaced.existsUnique hc
  -- where the command is in the pipeline decides, unless its thread has exited
  have hexited : ∀ t, s.pc t = .exited → (s.holds (some (.working t))) = [] := fun t ht ↦ by
    rw [holds, ht]
  have hplace : ∀ q, c ∈ s.holds (some q) → c ∈ s.pipeline.holds q ∧
      ∀ t, q = .working t → s.pc t ≠ .exited := by
    intro q hq
    rcases q with _ | v | t | _
    · exact ⟨hq, fun _ heq ↦ nomatch heq⟩
    · exact ⟨hq, fun _ heq ↦ nomatch heq⟩
    · have hne : s.pc t ≠ .exited := fun ht ↦ by
        rw [hexited t ht] at hq
        cases hq
      refine ⟨?_, fun t' heq ↦ Place.working.inj heq ▸ hne⟩
      rw [holds] at hq
      split at hq
      · cases hq
      · exact hq
    · exact ⟨hq, fun _ heq ↦ nomatch heq⟩
  by_cases hdropped : c ∈ s.dropped
  · refine ⟨none, hdropped, fun q hq ↦ ?_⟩
    obtain ⟨t, ht, hmem⟩ := (hd.mem_iff c).mp hdropped
    rcases q with _ | q
    · rfl
    · obtain ⟨hq, hne⟩ := hplace q hq
      exact absurd ht (hne t (hplaced.disjoint q (.working t) c hq hmem))
  · have hnot : ∀ t, p = .working t → s.pc t ≠ .exited := by
      rintro t rfl ht
      exact hdropped ((hd.mem_iff c).mpr ⟨t, ht, hp⟩)
    refine ⟨some p, ?_, fun q hq ↦ ?_⟩
    · rcases p with _ | v | t | _
      · exact hp
      · exact hp
      · have hne := hnot t rfl
        show c ∈ s.holds (some (.working t))
        rw [holds]
        split
        · next ht => exact absurd ht hne
        · exact hp
      · exact hp
    · rcases q with _ | q
      · exact absurd hq hdropped
      · exact congrArg some (hunique q (hplace q hq).1)

theorem Inv.mem_working (h : s.Inv) {t : ℕ × ℕ} (hc : c ∈ s.holds (some (.working t))) :
    c.server = t.1 := by
  rw [holds] at hc
  split at hc
  · cases hc
  · exact h.homed.threads t c hc

theorem Inv.once (h : s.Inv) (hd : s.DropsOk) (p : Option Place) : (s.holds p).Nodup := by
  have hplaced := h.invariant.2.1.placed
  rcases p with _ | _ | v | t | _
  · exact hd.nodup
  · exact hplaced.nodup .calling
  · exact hplaced.nodup (.pending v)
  · rw [holds]
    split
    · exact List.nodup_nil
    · exact hplaced.nodup (.working t)
  · exact hplaced.nodup .deleted

theorem Inv.mem_pending (h : s.Inv) (hc : c ∈ s.pipeline.holds (.pending v)) : c.server = v := by
  rw [Pipeline.holds] at hc
  rcases hn : s.pipeline.nodes v with _ | n <;> rw [hn] at hc
  · cases hc
  · exact h.homed.nodes v n hn c hc

/-- `BlockingGetResponse` returns with the mutex in hand, so the counter is still 0. -/
theorem Inv.returns (h : s.Inv) {i caller : ℕ} (hreturn : (s.step (.callReturn i caller)).isSome)
    (hc : c ∈ s.pipeline.begun) (hstate : c.state = i) :
    s.pipeline.numAppended c = c.numInstructions := by
  obtain ⟨hlocal, hlisted, haccounted⟩ := h.invariant
  refine haccounted.returns hlocal hlisted (i := i) ?_ hc hstate
  obtain ⟨s', hstep⟩ := Option.isSome_iff_exists.mp hreturn
  obtain ⟨m, hm, -⟩ := Option.map_eq_some_iff.mp hstep
  have hleft := (h.waiters i).inside caller (Monitor.leave_eq_some hm).1
  rw [Pipeline.step, Pipeline.getResponse, if_neg (not_lt.mpr hleft)]
  rfl

theorem dropsOk_of_run {as : List BlockingAction}
    (hrun : Run (Guarded (StepOf step) Orderly) {} as s) : s.Inv ∧ s.DropsOk := by
  refine hrun.invariant (I := fun s ↦ s.Inv ∧ s.DropsOk) ⟨inv_init, dropsOk_init⟩ ?_
  rintro s a s' ⟨h, hd⟩ ⟨hstep, ha⟩
  exact ⟨h.step hstep ha, hd.step h (moves_of_step hstep)⟩

/-- **Shutdown is safe** at any moment of an orderly run, for any number of `Server`s and
callers. -/
theorem shutdown_safe {as : List BlockingAction}
    (hrun : Run (Guarded (StepOf step) Orderly) {} as s) : s.Safe := by
  obtain ⟨h, hd⟩ := dropsOk_of_run hrun
  obtain ⟨hlocal, hlisted, haccounted⟩ := h.invariant
  refine ⟨fun t ht ↦ ?_, fun t e ht ↦ ?_, fun c hc ↦ h.place hd hc, h.once hd,
    fun v c hc ↦ h.mem_pending hc, fun t c hc ↦ h.mem_working hc, fun c hc ↦ ?_, fun c hc ↦ ?_,
    fun v hv ↦ ⟨h.stopped v hv, fun c hc hserver ↦ ?_⟩,
    fun i caller hreturn c hc hstate ↦ h.returns hreturn hc hstate⟩
  · have hworker := h.worker t
    rwa [ht] at hworker
  · have hthread := hlocal.threads t
    rwa [ht] at hthread
  · exact haccounted.frames .deleted c hc
  · obtain ⟨t, ht, hmem⟩ := (hd.mem_iff c).mp hc
    have hworker := h.worker t
    rw [ht] at hworker
    rw [h.homed.threads t c hmem]
    exact hworker.2.2
  · exact (h.calling c hc).2 (hserver ▸ hv)

/-! ## What is lost -/

/-- Commands are counted down by the threads of their `Server`. -/
theorem Inv.decremented_step (h : s.Inv) (hm : s.Moves a s') (ha : s.Orderly a)
    (hc : c ∈ s'.pipeline.decremented) :
    c ∈ s.pipeline.decremented ∨ ∃ i, s.pc (c.server, i) = .working := by
  obtain ⟨hlocal, -, -⟩ := h.invariant
  -- of the steps of the pipeline only the last turn for a command counts it down
  have hcount : ∀ {t : ℕ × ℕ} {p : Pipeline}, s.pc t = .working →
      s.pipeline.step (.count t) = some p → c ∈ p.decremented →
      c ∈ s.pipeline.decremented ∨ ∃ i, s.pc (c.server, i) = .working := by
    intro t p ht hp hc
    rcases hlocal.moves hp trivial with
      _ | _ | _ | _ | _ | ⟨_, _, _, _⟩ | ⟨hthread, harr, _, _, hget⟩
    · exact Or.inl hc
    · rcases List.mem_append.mp hc with hc | hc
      · exact Or.inl hc
      · obtain rfl := List.mem_singleton.mp hc
        have hserver : c.server = t.1 := by
          refine h.homed.threads t c ?_
          rw [hthread]
          exact List.mem_of_getElem? hget
        exact Or.inr ⟨t.2, hserver ▸ ht⟩
  cases hm with
  | count ht _ hp => exact hcount ht hp hc
  | complete ht _ _ _ hp => exact hcount ht hp hc
  | read _ hp =>
    cases hlocal.moves hp ha
    exact Or.inl hc
  | append _ _ hp =>
    cases hlocal.moves hp trivial
    exact Or.inl hc
  | finish _ hp =>
    cases hlocal.moves hp trivial
    exact Or.inl hc
  | construct _ | exit _ _ | enter _ _ _ | empty _ _ | take _ _ _ | drop _ _ | crash _ _ | send _ _
  | increment _ _ | enqueue _ _ _ _ | queue _ | check _ | setDone _ | notifyAll _ | destroy _ _
  | call _ | waiters _ | callCheck _ | callReturn _ => exact Or.inl hc

theorem Inv.begun_step (h : s.Inv) (hm : s.Moves a s') (ha : s.Orderly a)
    (hc : c ∈ s.pipeline.begun) : c ∈ s'.pipeline.begun := by
  rcases h.follows hm ha with heq | ⟨b, hb, horderly⟩
  · exact heq ▸ hc
  · generalize s'.pipeline = p at hb
    cases h.invariant.1.moves hb horderly with
    | increment _ => exact List.mem_append_left _ hc
    | enqueue _ | take _ _ | read _ _ _ _ _ | append _ _ _ | count _ _ _ _ | complete _ _ _ _ _
    | finish _ _ _ | getResponse _ => exact hc

/-- Nobody is left to answer a command of a `Server` that has stopped. -/
theorem Inv.not_working (h : s.Inv) (hv : s.Stopped v) (i : ℕ) : s.pc (v, i) ≠ .working := by
  intro hworking
  have hi : i < kNumThreads := by
    by_contra hle
    have habsent := (h.absent (v, i)).mpr (Or.inr (not_lt.mp hle))
    rw [hworking] at habsent
    cases habsent
  have hexited := hv i hi
  rw [hworking] at hexited
  cases hexited

/-- A counter is positive as long as one of its commands was not counted down. -/
theorem Inv.numLeft_pos (h : s.Inv) (hc : c ∈ s.pipeline.begun)
    (hnot : c ∉ s.pipeline.decremented) : 0 < (s.pipeline.heap c.state).numLeft := by
  rw [h.invariant.2.2.numLeft, Int.natCast_pos, List.countP_pos_iff]
  exact ⟨c, hc, decide_eq_true ⟨rfl, hnot⟩⟩

/-- **An abandoned command is never answered.** Once the threads of its `Server` have exited, a
command that was not counted down stays so in every orderly run, and no call of
`BlockingGetResponse` for its `ResponseState` returns. -/
theorem abandoned_never_answered {as bs : List BlockingAction}
    (hrun : Run (Guarded (StepOf step) Orderly) {} as s) (hv : s.Stopped c.server)
    (hc : c ∈ s.pipeline.begun) (hnot : c ∉ s.pipeline.decremented)
    (hrun' : Run (Guarded (StepOf step) Orderly) s bs s') :
    c ∉ s'.pipeline.decremented ∧ ∀ caller, s'.step (.callReturn c.state caller) = none := by
  obtain ⟨h', -, hbegun, hnot'⟩ : s'.Inv ∧ s'.Stopped c.server ∧ c ∈ s'.pipeline.begun ∧
      c ∉ s'.pipeline.decremented := by
    refine hrun'.invariant (I := fun u ↦ u.Inv ∧ u.Stopped c.server ∧ c ∈ u.pipeline.begun ∧
      c ∉ u.pipeline.decremented) ⟨inv_of_run hrun, hv, hc, hnot⟩ ?_
    rintro u a u' ⟨h, hstopped, hbegun, hnot⟩ ⟨hstep, ha⟩
    have hm := moves_of_step hstep
    refine ⟨h.step hstep ha, h.stopped_step hm hstopped, h.begun_step hm ha hbegun, fun hdec ↦ ?_⟩
    rcases h.decremented_step hm ha hdec with hdec | ⟨i, hi⟩
    · exact hnot hdec
    · exact h.not_working hstopped i hi
  refine ⟨hnot', fun caller ↦ ?_⟩
  rw [Option.eq_none_iff_forall_ne_some]
  intro u hu
  obtain ⟨m, hm, -⟩ := Option.map_eq_some_iff.mp hu
  have hleft := (h'.waiters c.state).inside caller (Monitor.leave_eq_some hm).1
  exact absurd (h'.numLeft_pos hbegun hnot') (not_lt.mpr hleft)

/-- A command is added, a thread takes it, and the `Server` is destroyed before the thread has sent
anything. The other thread exits at once. -/
def abandonRun : List BlockingAction :=
  [.construct 0, .increment 0 [1] 1 7, .enqueue ⟨0, 0, [1], 1, 7⟩ none, .loop (0, 0),
    .queue 0 (.acquire 0), .check (0, 0), .leave (0, 0), .setDone 0, .notifyAll 0, .test (0, 0),
    .loop (0, 1), .destroy 0]

theorem shutdown_safe_abandon : ∃ s : Blocking,
    Run (Guarded (StepOf step) Orderly) {} abandonRun s ∧ s.Safe ∧
      s.dropped = [⟨0, 0, [1], 1, 7⟩] := by
  obtain ⟨s, hrun, hs⟩ := exists_run_of_execChecked
    (fun s a ↦ of_decide_eq_true (p := Orderly s a))
    (show (execChecked step (fun s a ↦ decide (s.Orderly a)) {} abandonRun).map
      (fun s ↦ s.dropped) = some [⟨0, 0, [1], 1, 7⟩] by decide)
  exact ⟨s, hrun, shutdown_safe hrun, hs⟩

theorem abandoned_never_answered_abandon : ∃ s : Blocking,
    Run (Guarded (StepOf step) Orderly) {} abandonRun s ∧
      ∀ bs s', Run (Guarded (StepOf step) Orderly) s bs s' →
        ∀ caller, s'.step (.callReturn 7 caller) = none := by
  obtain ⟨s, hrun, hs⟩ := exists_run_of_execChecked
    (fun s a ↦ of_decide_eq_true (p := Orderly s a))
    (show (execChecked step (fun s a ↦ decide (s.Orderly a)) {} abandonRun).map
      (fun s ↦ (s.pc (0, 0), s.pc (0, 1), s.pipeline.begun, s.pipeline.decremented))
        = some (.exited, .exited, [⟨0, 0, [1], 1, 7⟩], []) by decide)
  simp only [Prod.mk.injEq] at hs
  obtain ⟨hfirst, hsecond, hbegun, hdecremented⟩ := hs
  refine ⟨s, hrun, fun bs s' hrun' ↦ ?_⟩
  have hv : s.Stopped 0 := fun i hi ↦ by
    rw [kNumThreads] at hi
    obtain rfl | rfl : i = 0 ∨ i = 1 := by omega
    · exact hfirst
    · exact hsecond
  exact (abandoned_never_answered (c := ⟨0, 0, [1], 1, 7⟩) hrun hv (by simp [hbegun])
    (by simp [hdecremented]) hrun').2

end Blocking

end MemcacheRouter.Routerlib
