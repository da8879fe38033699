import MemcacheRouter.Routerlib.Shutdown

/-!
# Nobody waits in vain

When nothing new comes in, the threads and their callers come to rest. Then the commands of the
`Server`s that are running were answered, and their threads wait for the next one. Unless a
notification has missed somebody, every call of `BlockingGetResponse` for them has returned, and the
threads of a `Server` that was shut down have exited.

Two things are not the code's doing. `notify_all` is called without the mutex, so it must not fall
between the check and the wait of a thread. And `DecrementPending` wakes up one thread only, so
there must not be two that wait for the same `ResponseState`. A notification that misses somebody
leaves a thread asleep for good.
-/

open Transition

namespace MemcacheRouter.Routerlib

namespace Pipeline

variable {p p' : Pipeline} {b : PipelineAction} {t : ℕ × ℕ}

/-- A node has commands, and a thread that has not read anything is at the first of them. -/
structure Started (p : Pipeline) : Prop where
  nodes : ∀ v n, p.nodes v = some n → n.commands ≠ []
  working : ∀ t n, (p.threads t).node = some n → n.commands ≠ []
  reading : ∀ t job, p.threads t = .reading job → job.cursor.response = [] → job.cursor.stateIdx = 0
  counting : ∀ t job d, p.threads t = .counting job d → job.cursor.response ≠ []

theorem started_init : Started {} where
  nodes _ _ h := nomatch h
  working _ _ h := nomatch h
  reading _ _ h := nomatch h
  counting _ _ _ h := nomatch h

/-- A thread goes on with its node. -/
theorem Started.goto (h : p.Started) (pc : ThreadPc) (hnodes : p'.nodes = p.nodes)
    (hthreads : p'.threads = (p.goto t pc).threads)
    (hnode : ∀ n, pc.node = some n → n.commands ≠ [])
    (hreading : ∀ job, pc = .reading job → job.cursor.response = [] → job.cursor.stateIdx = 0)
    (hcounting : ∀ job d, pc = .counting job d → job.cursor.response ≠ []) : p'.Started := by
  refine ⟨hnodes ▸ h.nodes, fun t' n hn ↦ ?_, fun t' job ht ↦ ?_, fun t' job d ht ↦ ?_⟩
  · rw [hthreads, threads_goto] at hn
    split_ifs at hn
    · exact hnode n hn
    · exact h.working t' n hn
  · rw [hthreads, threads_goto] at ht
    split_ifs at ht
    · exact hreading job ht
    · exact h.reading t' job ht
  · rw [hthreads, threads_goto] at ht
    split_ifs at ht
    · exact hcounting job d ht
    · exact h.counting t' job d ht

theorem Started.read (h : p.Started) {frames : List Bytes} {header : ProtocolHeader}
    (hstep : p.step (.read t frames header) = some p') (hb : p.Orderly (.read t frames header)) :
    p'.Started := by
  rw [Pipeline.step, Pipeline.read] at hstep
  split at hstep
  · next job ht =>
    split_ifs at hstep
    obtain rfl := Option.some.inj hstep
    refine h.goto (.reading _) rfl rfl ?_ ?_ ?_
    · intro n hn
      exact h.working t n (by rw [ht]; exact hn)
    · intro job' hjob hresponse
      obtain rfl := ThreadPc.reading.inj hjob
      obtain ⟨hne, hframes, -⟩ := hb
      obtain ⟨f, hf⟩ := List.exists_mem_of_ne_nil _ hne
      exact absurd (List.flatten_eq_nil_iff.mp hresponse f hf) (hframes f hf).ne_nil
    · exact fun _ _ hne ↦ by cases hne
  · cases hstep

theorem Started.append (h : p.Started) (hstep : p.step (.append t) = some p') : p'.Started := by
  rw [Pipeline.step, Pipeline.append] at hstep
  split at hstep
  · next job ht =>
    split_ifs at hstep with hmore
    split at hstep
    · obtain rfl := Option.some.inj hstep
      exact h.goto (.crashed _) rfl rfl (fun _ hn ↦ by cases hn) (fun _ hne ↦ by cases hne)
        fun _ _ hne ↦ by cases hne
    · obtain rfl := Option.some.inj hstep
      refine h.goto (.counting _ _) rfl rfl ?_ (fun _ hne ↦ by cases hne) ?_
      · intro n hn
        exact h.working t n (by rw [ht]; exact hn)
      · intro job' d hjob
        obtain ⟨rfl, rfl⟩ := ThreadPc.counting.inj hjob
        rintro hresponse
        rw [Cursor.more, hresponse, Bool.and_eq_true, decide_eq_true_iff,
          decide_eq_true_iff] at hmore
        exact absurd (hmore.1.trans_lt hmore.2) (lt_irrefl _)
  · cases hstep

theorem Started.count (h : p.Started) (hstep : p.step (.count t) = some p') : p'.Started := by
  rw [Pipeline.step, Pipeline.count] at hstep
  split at hstep
  · next job d ht =>
    split at hstep
    · obtain rfl := Option.some.inj hstep
      exact h.goto (.crashed _) rfl rfl (fun _ hn ↦ by cases hn) (fun _ hne ↦ by cases hne)
        fun _ _ hne ↦ by cases hne
    · next completes cursor hcount =>
      obtain ⟨k, -, -, rfl⟩ := Cursor.count_eq_ok hcount
      dsimp only at hstep
      -- whether or not the command is complete, the chunk is the same
      split_ifs at hstep <;> obtain rfl := Option.some.inj hstep
      all_goals
        refine h.goto (.reading _) rfl rfl ?_ ?_ fun _ _ hne ↦ by cases hne
        · intro n hn
          exact h.working t n (by rw [ht]; exact hn)
        · intro job' hjob hresponse
          obtain rfl := ThreadPc.reading.inj hjob
          exact absurd hresponse (h.counting t job d ht)
  · cases hstep

theorem Started.step (h : p.Started) (hstep : p.step b = some p') (hb : p.Orderly b) :
    p'.Started := by
  rcases b with ⟨server, bytes, n, state⟩ | c | t | ⟨t, frames, header⟩ | t | t | t | state
  · obtain rfl := Option.some.inj hstep
    exact ⟨h.nodes, h.working, h.reading, h.counting⟩
  · rw [Pipeline.step, Pipeline.enqueue] at hstep
    split_ifs at hstep with hc
    obtain rfl := Option.some.inj hstep
    refine ⟨fun v n hn ↦ ?_, h.working, h.reading, h.counting⟩
    rw [nodes_enqueued] at hn
    split_ifs at hn
    · obtain rfl := Option.some.inj hn
      exact List.append_ne_nil_of_right_ne_nil _ (List.cons_ne_nil _ _)
    · exact h.nodes v n hn
  · rw [Pipeline.step, Pipeline.take] at hstep
    split at hstep
    · next n ht hn =>
      obtain rfl := Option.some.inj hstep
      have hgoto : (p.goto t (.reading (Job.start n))).Started := by
        refine h.goto (.reading (Job.start n)) rfl rfl (fun n' hn' ↦ ?_)
          (fun job hjob _ ↦ ?_) fun _ _ hne ↦ by cases hne
        · exact Option.some.inj hn' ▸ h.nodes t.1 n hn
        · exact ThreadPc.reading.inj hjob ▸ rfl
      refine ⟨fun v n' hn' ↦ ?_, hgoto.working, hgoto.reading, hgoto.counting⟩
      rw [nodes_taken] at hn'
      split_ifs at hn'
      exact h.nodes v n' hn'
    · cases hstep
  · exact h.read hstep hb
  · exact h.append hstep
  · exact h.count hstep
  · obtain ⟨hthreads, hnodes, -⟩ := finish_effect hstep
    exact h.goto _ hnodes hthreads (fun _ hn ↦ by cases hn) (fun _ hne ↦ by cases hne)
      fun _ _ hne ↦ by cases hne
  · rw [Pipeline.step, Pipeline.getResponse] at hstep
    split_ifs at hstep
    exact Option.some.inj hstep ▸ h

theorem started_of_run {bs : List PipelineAction}
    (hrun : Run (Guarded (StepOf Pipeline.step) Orderly) {} bs p) : p.Started :=
  hrun.invariant started_init fun _ _ _ h hstep ↦ h.step hstep.1 hstep.2

/-- **A thread at work can go on.** It can append a frame that has arrived, or count it, or read
more, or delete the node. -/
theorem Local.goes_on (hl : p.Local) (hs : p.Started) (ht : p.threads t ≠ .waiting) :
    (p.step (.append t)).isSome ∨ (p.step (.count t)).isSome ∨ (p.step (.finish t)).isSome ∨
      ∃ frames header, p.Orderly (.read t frames header) ∧
        (p.step (.read t frames header)).isSome := by
  rcases hthread : p.threads t with _ | job | ⟨job, d⟩ | e
  · exact absurd hthread ht
  · obtain ⟨todo, hok⟩ := hl.ok_reading hthread
    by_cases hmore : job.cursor.more = true
    · left
      rw [Pipeline.step, Pipeline.append, hthread]
      dsimp only
      rw [if_pos hmore]
      split <;> rfl
    · rw [Bool.not_eq_true] at hmore
      by_cases hidx : job.cursor.stateIdx < job.node.states.length
      · -- a command is not complete, so the connection owes a frame
        right; right; right
        have hcommands : job.node.commands.drop job.cursor.stateIdx ≠ [] := by
          rw [hok.joins.states, List.length_map] at hidx
          rw [ne_eq, List.drop_eq_nil_iff]
          omega
        rw [← hok.rest] at hcommands
        have hexpected : 1 ≤ job.expected.length := by
          have hqueue := hok.queue
          rw [hok.arrived_eq_nil hmore, List.map_nil, List.nil_append] at hqueue
          obtain ⟨⟨c, k⟩, htodo⟩ :=
            List.exists_mem_of_ne_nil _ (mt List.map_eq_nil_iff.mpr hcommands)
          have hpos := hok.pos _ htodo
          have hmem : c ∈ job.expected := by
            rw [hqueue]
            exact List.mem_flatMap.mpr ⟨(c, k), htodo, List.mem_replicate.mpr ⟨hpos.ne', rfl⟩⟩
          exact List.length_pos_of_mem hmem
        refine ⟨[Routerlib.getResponse], {}, ⟨by simp, ?_, by decide, ?_⟩, ?_⟩
        · intro f hf
          rw [List.mem_singleton.mp hf]
          decide
        · intro job' hjob
          rw [hthread] at hjob
          exact ThreadPc.reading.inj hjob ▸ hexpected
        · rw [Pipeline.step, Pipeline.read, hthread]
          dsimp only
          rw [if_pos (by simp [hmore, hidx])]
          rfl
      · -- everything is counted down, and not before something was read
        right; right; left
        have hresponse : job.cursor.response ≠ [] := by
          intro hnil
          have hne := hs.working t job.node (by rw [hthread]; rfl)
          have hlen := List.length_pos_of_ne_nil hne
          rw [hs.reading t job hthread hnil, hok.joins.states, List.length_map] at hidx
          omega
        rw [Pipeline.step, Pipeline.finish, hthread]
        dsimp only
        rw [if_pos (by simp [hmore, hresponse, not_lt.mp hidx])]
        rfl
  · right; left
    rw [Pipeline.step, Pipeline.count, hthread]
    dsimp only
    split
    · rfl
    · split_ifs <;> rfl
  · have hcrashed := hl.threads t
    rw [hthread] at hcrashed
    exact hcrashed.elim

end Pipeline

namespace Blocking

variable {s s' : Blocking} {a : BlockingAction} {v : ℕ} {c : Command}

/-! ## Coming to rest -/

/-- A step that is not somebody's from outside: no `Server` is constructed, shut down or gone, no
command is added, no call of `BlockingGetResponse` begins, and nobody wakes up for no reason. -/
def Internal : BlockingAction → Prop
  | .construct _ | .increment _ _ _ _ | .setDone _ | .destroy _ | .call _ _ => False
  | .queue _ (.spurious _) | .waiters _ (.spurious _) => False
  | _ => True

instance (a : BlockingAction) : Decidable (Internal a) :=
  match a with
  | .construct _ | .increment _ _ _ _ | .setDone _ | .destroy _ | .call _ _
  | .queue _ (.spurious _) | .waiters _ (.spurious _) => inferInstanceAs (Decidable False)
  | .queue _ (.acquire _) | .queue _ (.wait _) | .waiters _ (.acquire _) | .waiters _ (.wait _)
  | .enqueue _ _ | .loop _ | .check _ | .leave _ | .test _ | .read _ _ _ | .append _ | .count _ _
  | .finish _ | .notifyAll _ | .callCheck _ _ | .callReturn _ _ => inferInstanceAs (Decidable True)

/-- Nobody can go on. -/
def Quiescent (s : Blocking) : Prop := ∀ a, Internal a → s.Orderly a → s.step a = none

theorem Inv.started (h : s.Inv) : s.pipeline.Started := by
  obtain ⟨as, hrun⟩ := h.run
  exact Pipeline.started_of_run hrun

/-- The threads of a `Server` are asleep, or not in its monitor. -/
theorem Quiescent.queue (hq : s.Quiescent) (h : s.Inv) (v : ℕ) : (s.queue v).owner = none ∧
    ∀ i, (s.queue v).phase i = .out ∨ (s.queue v).phase i = .blocked := by
  refine (h.queue v).ok.out_or_blocked (fun i ↦ ?_) (fun i hi ↦ ?_) (fun i ↦ ?_) fun i hi ↦ ?_
  · exact Option.map_eq_none_iff.mp (hq (.queue v (.acquire i)) trivial trivial)
  · have hnone := hq (.check (v, i)) trivial trivial
    rw [step, Blocking.check, Option.map_eq_none_iff, Monitor.check, if_pos hi] at hnone
    cases hnone
  · exact Option.map_eq_none_iff.mp (hq (.queue v (.wait i)) trivial trivial)
  · have hnone := hq (.leave (v, i)) trivial trivial
    rw [step, Blocking.leave, Option.map_eq_none_iff, Monitor.leave, if_pos hi] at hnone
    cases hnone

theorem Quiescent.waiters (hq : s.Quiescent) (h : s.Inv) (i : ℕ) : (s.waiters i).owner = none ∧
    ∀ c, (s.waiters i).phase c = .out ∨ (s.waiters i).phase c = .blocked := by
  refine (h.waiters i).ok.out_or_blocked (fun c ↦ ?_) (fun c hc ↦ ?_) (fun c ↦ ?_) fun c hc ↦ ?_
  · exact Option.map_eq_none_iff.mp (hq (.waiters i (.acquire c)) trivial trivial)
  · have hnone := hq (.callCheck i c) trivial trivial
    rw [step, Option.map_eq_none_iff, Monitor.check, if_pos hc] at hnone
    cases hnone
  · exact Option.map_eq_none_iff.mp (hq (.waiters i (.wait c)) trivial trivial)
  · have hnone := hq (.callReturn i c) trivial trivial
    rw [step, Blocking.callReturn, Option.map_eq_none_iff, Monitor.leave, if_pos hc] at hnone
    cases hnone

/-- Every command was enqueued. -/
theorem Quiescent.calling (hq : s.Quiescent) (h : s.Inv) : s.pipeline.calling = [] := by
  by_contra hne
  obtain ⟨c, hc⟩ := List.exists_mem_of_ne_nil _ hne
  obtain ⟨o, m, hm⟩ := (s.queue c.server).exists_notifyOne
  have hnone := hq (.enqueue c o) trivial trivial
  rw [step, Blocking.enqueue, if_pos ⟨h.calling c hc, (hq.queue h c.server).1⟩, Pipeline.enqueue,
    if_pos hc, hm] at hnone
  cases hnone

theorem Quiescent.stage (hq : s.Quiescent) (v : ℕ) : s.stage v ≠ .flagged := by
  intro hv
  have hnone := hq (.notifyAll v) trivial trivial
  rw [step, Blocking.notifyAll, if_pos hv] at hnone
  cases hnone

theorem work_ne_none {t : ℕ × ℕ} {p : Option Pipeline} (ht : s.pc t = .working)
    (hp : p.isSome) : s.work t p ≠ none := by
  rw [work, ht]
  dsimp only
  rw [ne_eq, Option.map_eq_none_iff]
  rintro rfl
  cases hp

/-- No thread is at work. -/
theorem Quiescent.not_working (hq : s.Quiescent) (h : s.Inv) (t : ℕ × ℕ) : s.pc t ≠ .working := by
  intro ht
  have hworker := h.worker t
  rw [ht] at hworker
  rcases h.invariant.1.goes_on h.started hworker.1 with happend | hcount | hfinish |
    ⟨frames, header, horderly, hread⟩
  · have hnone := hq (.append t) trivial trivial
    rw [step, Blocking.append, if_pos fun i _ ↦ (hq.waiters h i).1] at hnone
    exact work_ne_none ht happend hnone
  · rcases hlocks : (s.pipeline.threads t).locks with _ | i
    · have hnone := hq (.count t none) trivial trivial
      rw [step, Blocking.count, hlocks] at hnone
      exact work_ne_none ht hcount hnone
    · obtain ⟨o, m, hm⟩ := (s.waiters i).exists_notifyOne
      have hnone := hq (.count t o) trivial trivial
      rw [step, Blocking.count, hlocks] at hnone
      dsimp only at hnone
      rw [if_pos (hq.waiters h i).1, hm, Option.bind_some] at hnone
      exact work_ne_none (s := s.setWaiters i m) ht hcount hnone
  · have hnone := hq (.finish t) trivial trivial
    rw [step, Blocking.finish, Option.map_eq_none_iff] at hnone
    exact work_ne_none ht hfinish hnone
  · exact work_ne_none ht hread (hq (.read t frames header) trivial horderly)

/-- A thread waits for a node, or it has exited, if it is there at all. -/
theorem Quiescent.pc_cases (hq : s.Quiescent) (h : s.Inv) (t : ℕ × ℕ) : s.pc t = .absent ∨
    (s.pc t = .getting ∧ t.2 ∈ (s.queue t.1).waitSet) ∨ s.pc t = .exited := by
  have hworker := h.worker t
  rcases ht : s.pc t with _ | _ | _ | n | _ | _ | _ <;> rw [ht] at hworker
  · exact Or.inl rfl
  · have hnone := hq (.loop t) trivial trivial
    rw [step, Blocking.loop, ht] at hnone
    dsimp only at hnone
    split_ifs at hnone
    rw [Option.map_eq_none_iff, Monitor.enter, if_pos hworker.2] at hnone
    cases hnone
  · refine Or.inr (Or.inl ⟨rfl, ((h.queue t.1).ok.blocked t.2).mpr ?_⟩)
    exact ((hq.queue h t.1).2 t.2).resolve_left hworker.2
  · have hnone := hq (.test t) trivial trivial
    rw [step, Blocking.test, ht] at hnone
    dsimp only at hnone
    split_ifs at hnone
    split at hnone <;> cases hnone
  · exact absurd ht (hq.not_working h t)
  · exact Or.inr (Or.inr rfl)
  · exact hworker.elim

/-! ## The `Server`s that are running -/

theorem Inv.not_exited (h : s.Inv) {t : ℕ × ℕ} (hv : s.stage t.1 = .running) :
    s.pc t ≠ .exited := by
  intro ht
  have hworker := h.worker t
  rw [ht, Blocking.done, hv] at hworker
  exact absurd hworker.2.2 (by simp [Stage.done])

/-- All threads of a `Server` that is running are asleep. -/
theorem Quiescent.asleep (hq : s.Quiescent) (h : s.Inv) (hv : s.stage v = .running) {i : ℕ}
    (hi : i < kNumThreads) : i ∈ (s.queue v).waitSet := by
  rcases hq.pc_cases h (v, i) with habsent | ⟨-, hmem⟩ | hexited
  · rcases (h.absent (v, i)).mp habsent with hstage | hle
    · rw [hv] at hstage
      cases hstage
    · exact absurd hi (not_lt.mpr hle)
  · exact hmem
  · exact absurd hexited (h.not_exited hv)

/-- **No node is left behind.** -/
theorem Quiescent.nodes (hq : s.Quiescent) (h : s.Inv) (hv : s.stage v = .running) :
    s.pipeline.nodes v = none := by
  by_contra hne
  have hdone : s.done v = false := by
    rw [Blocking.done, hv]
    rfl
  rcases (h.queue v).stirred hdone hne with hnil | ⟨i, hi⟩
  · have hmem := hq.asleep h hv (i := 0) (by decide)
    rw [hnil] at hmem
    cases hmem
  · rcases (hq.queue h v).2 i with hout | hblocked
    · rw [hout] at hi
      cases hi
    · rw [hblocked] at hi
      cases hi

/-- **Every command is answered.** -/
theorem Quiescent.answered (hq : s.Quiescent) (h : s.Inv) (hc : c ∈ s.pipeline.begun)
    (hv : s.stage c.server = .running) : c ∈ s.pipeline.decremented := by
  obtain ⟨-, hlisted, haccounted⟩ := h.invariant
  obtain ⟨p, hp⟩ := (hlisted.placed.mem_iff c).mp hc
  rcases p with _ | v | t | _
  · rw [Pipeline.holds, hq.calling h] at hp
    cases hp
  · obtain rfl := h.mem_pending hp
    rw [Pipeline.holds, hq.nodes h hv] at hp
    cases hp
  · have hserver := h.homed.threads t c hp
    rw [hserver] at hv
    have hworker := h.worker t
    rw [Pipeline.holds] at hp
    rcases hq.pc_cases h t with ht | ⟨ht, -⟩ | ht
    · rw [ht] at hworker
      rw [hworker.1] at hp
      cases hp
    · rw [ht] at hworker
      rw [hworker.1] at hp
      cases hp
    · exact absurd ht (h.not_exited hv)
  · exact (haccounted.decremented .deleted c hp).mpr hp

/-! ## Notifications that miss nobody -/

/-- `notify_all` is not called while a thread is between its check and its wait, and when
`DecrementPending` brings a counter to 0, at most one thread waits for it. -/
def Timely (s : Blocking) : BlockingAction → Prop
  | .notifyAll v => ∀ i, (s.queue v).owner = some i → (s.queue v).phase i ≠ .waiting
  | .count t _ => ∀ i, (s.pipeline.threads t).locks = some i → (s.pipeline.heap i).numLeft ≤ 1 →
      (s.waiters i).waitSet.length ≤ 1
  | _ => True

instance (s : Blocking) (a : BlockingAction) : Decidable (s.Timely a) :=
  match a with
  | .notifyAll v =>
    inferInstanceAs (Decidable (∀ i, (s.queue v).owner = some i → (s.queue v).phase i ≠ .waiting))
  | .count t _ => inferInstanceAs (Decidable (∀ i, (s.pipeline.threads t).locks = some i →
      (s.pipeline.heap i).numLeft ≤ 1 → (s.waiters i).waitSet.length ≤ 1))
  | .construct _ | .increment _ _ _ _ | .enqueue _ _ | .loop _ | .queue _ _ | .check _ | .leave _
  | .test _ | .read _ _ _ | .append _ | .finish _ | .setDone _ | .destroy _ | .call _ _
  | .waiters _ _ | .callCheck _ _ | .callReturn _ _ => inferInstanceAs (Decidable True)

/-- Nobody sleeps after the end of a wait. -/
structure NoneMissed (s : Blocking) : Prop where
  queue : ∀ v, s.stage v = .notified → (s.queue v).Calm
  waiters : ∀ i, (s.pipeline.heap i).numLeft ≤ 0 → (s.waiters i).waitSet = []

theorem noneMissed_init : NoneMissed {} where
  queue _ h := nomatch h
  waiters _ _ := rfl

theorem NoneMissed.queue_of_set (hn : s.NoneMissed) {m : Monitor ℕ}
    (hm : s.stage v = .notified → m.Calm) (w : ℕ) (hw : s.stage w = .notified) :
    ((s.setQueue v m).queue w).Calm := by
  rw [queue_setQueue]
  split_ifs with heq
  · exact hm (heq ▸ hw)
  · exact hn.queue w hw

theorem NoneMissed.queue_step (hn : s.NoneMissed) (h : s.Inv) (hm : s.Moves a s') (ha : s.Timely a)
    (w : ℕ) (hw : s'.stage w = .notified) : (s'.queue w).Calm := by
  cases hm with
  | @construct v _ =>
    refine hn.queue w ?_
    change Function.update s.stage v .running w = .notified at hw
    rw [Function.update_apply] at hw
    split_ifs at hw
    exact hw
  | enqueue _ _ _ hm => exact hn.queue_of_set (fun hv ↦ (hn.queue _ hv).notifyOne hm) w hw
  | enter _ _ hm => exact hn.queue_of_set (fun hv ↦ (hn.queue _ hv).enter hm) w hw
  | @queue v e m hm => exact hn.queue_of_set (fun hv ↦ (hn.queue v hv).move (h.queue v).ok hm) w hw
  | @check t m hm =>
    refine hn.queue_of_set (fun hv ↦ (hn.queue t.1 hv).check (t := t.2) ?_) w hw
    have hgo : s.mustWait t.1 = false := by
      rw [mustWait, Blocking.done, hv]
      rfl
    rwa [hgo] at hm
  | empty _ hm => exact hn.queue_of_set (fun hv ↦ (hn.queue _ hv).leave hm) w hw
  | take _ _ hm => exact hn.queue_of_set (fun hv ↦ (hn.queue _ hv).leave hm) w hw
  | @setDone v _ =>
    refine hn.queue w ?_
    change Function.update s.stage v .flagged w = .notified at hw
    rw [Function.update_apply] at hw
    split_ifs at hw
    exact hw
  | @notifyAll v _ =>
    show ((s.setQueue v (s.queue v).notifyAll).queue w).Calm
    rw [queue_setQueue]
    change Function.update s.stage v .notified w = .notified at hw
    split_ifs with heq
    · -- nobody is between its check and its wait, so nobody goes to sleep after this
      exact (h.queue v).ok.calm_notifyAll ha
    · rw [Function.update_of_ne heq] at hw
      exact hn.queue w hw
  | @destroy v _ _ =>
    refine hn.queue w ?_
    change Function.update s.stage v .destroyed w = .notified at hw
    rw [Function.update_apply] at hw
    split_ifs at hw
    exact hw
  | exit _ _ | drop _ _ | crash _ _ | send _ _ | increment _ _ | read _ _ | append _ _ _
  | count _ _ _ | complete _ _ _ _ _ | finish _ _ | call _ | waiters _ | callCheck _
  | callReturn _ => exact hn.queue w hw

theorem NoneMissed.waiters_of_set (hn : s.NoneMissed) {i : ℕ} {m : Monitor ℕ}
    (hm : (s.pipeline.heap i).numLeft ≤ 0 → m.waitSet = []) (j : ℕ)
    (hj : (s.pipeline.heap j).numLeft ≤ 0) : ((s.setWaiters i m).waiters j).waitSet = [] := by
  rw [waiters_setWaiters]
  split_ifs with heq
  · exact hm (heq ▸ hj)
  · exact hn.waiters j hj

theorem Inv.numLeft_nonneg (h : s.Inv) (i : ℕ) : 0 ≤ (s.pipeline.heap i).numLeft := by
  rw [h.invariant.2.2.numLeft]
  exact Int.natCast_nonneg _

theorem NoneMissed.waiters_step (hn : s.NoneMissed) (h : s.Inv) (hm : s.Moves a s')
    (ha : s.Timely a) (j : ℕ) (hj : (s'.pipeline.heap j).numLeft ≤ 0) :
    (s'.waiters j).waitSet = [] := by
  cases hm with
  | @increment v bytes n i _ _ =>
    refine hn.waiters j ?_
    change (Function.update s.pipeline.heap i _ j).numLeft ≤ 0 at hj
    rw [Function.update_apply] at hj
    split_ifs at hj with heq
    · have hnonneg := h.numLeft_nonneg i
      change (s.pipeline.heap i).numLeft + 1 ≤ 0 at hj
      omega
    · exact hj
  | read _ hp =>
    obtain ⟨_, -, -, -, hheap⟩ := Pipeline.read_effect hp
    refine hn.waiters j ?_
    rwa [hheap] at hj
  | append _ _ hp =>
    obtain ⟨_, -, -, -, hleft⟩ := Pipeline.append_effect hp
    refine hn.waiters j ?_
    rwa [hleft] at hj
  | count _ hlocks hp =>
    obtain ⟨_, -, -, -, hheap⟩ := Pipeline.count_effect hp
    refine hn.waiters j ?_
    rwa [hheap, hlocks] at hj
  | @complete t o i m p _ hlocks _ hm hp =>
    obtain ⟨_, -, -, -, hheap⟩ := Pipeline.count_effect hp
    rw [hheap, hlocks, Option.elim_some, Function.update_apply] at hj
    show ((s.setWaiters i m).waiters j).waitSet = []
    rw [waiters_setWaiters]
    split_ifs with heq
    · rw [if_pos heq] at hj
      change (s.pipeline.heap i).numLeft - 1 ≤ 0 at hj
      -- at most one caller sleeps here, and it is the one that is notified
      exact Monitor.waitSet_notifyOne hm (ha i hlocks (by omega))
    · rw [if_neg heq] at hj
      exact hn.waiters j hj
  | finish _ hp =>
    refine hn.waiters j ?_
    rwa [(Pipeline.finish_effect hp).2.2] at hj
  | @call i c m hm =>
    refine hn.waiters_of_set (fun hi ↦ ?_) j hj
    obtain ⟨-, rfl⟩ := Monitor.enter_eq_some hm
    exact hn.waiters i hi
  | @waiters i e m hm =>
    refine hn.waiters_of_set (fun hi ↦ ?_) j hj
    have hcalm : (s.waiters i).Calm :=
      ⟨hn.waiters i hi, fun c hc ↦ not_lt.mpr hi ((h.waiters i).waiting c hc)⟩
    exact (hcalm.move (h.waiters i).ok hm).waitSet
  | @callCheck i c m hm =>
    refine hn.waiters_of_set (fun hi ↦ ?_) j hj
    obtain ⟨-, rfl⟩ := Monitor.check_eq_some hm
    exact hn.waiters i hi
  | @callReturn i c m hm =>
    refine hn.waiters_of_set (fun hi ↦ ?_) j hj
    obtain ⟨-, rfl⟩ := Monitor.leave_eq_some hm
    exact hn.waiters i hi
  | construct _ | enqueue _ _ _ _ | exit _ _ | enter _ _ _ | queue _ | check _ | empty _ _
  | take _ _ _ | drop _ _ | crash _ _ | send _ _ | setDone _ | notifyAll _ | destroy _ _ =>
    exact hn.waiters j hj

/-- Everything that can be done is done. -/
structure Settled (s : Blocking) : Prop where
  /-- A `Server` that is running has answered its commands, and its threads wait for the next. -/
  answered : ∀ c ∈ s.pipeline.begun, s.stage c.server = .running → c ∈ s.pipeline.decremented
  nodes : ∀ v, s.stage v = .running → s.pipeline.nodes v = none
  asleep : ∀ v, s.stage v = .running → ∀ i < kNumThreads, i ∈ (s.queue v).waitSet
  /-- The threads of a `Server` that was shut down have exited. -/
  stopped : ∀ v, s.done v = true → s.Stopped v
  /-- `BlockingGetResponse` has returned to all who called it, unless a command was for a `Server`
  that was shut down. -/
  returned : ∀ i, (∀ c ∈ s.pipeline.begun, c.state = i → s.stage c.server = .running) →
    (s.pipeline.heap i).numLeft = 0 ∧ ∀ caller, (s.waiters i).phase caller = .out

/-- Nothing is unorderly and nobody is missed. -/
def Prompt (s : Blocking) (a : BlockingAction) : Prop := s.Orderly a ∧ s.Timely a

instance (s : Blocking) (a : BlockingAction) : Decidable (s.Prompt a) :=
  inferInstanceAs (Decidable (_ ∧ _))

theorem noneMissed_of_run {as : List BlockingAction}
    (hrun : Run (Guarded (StepOf step) Prompt) {} as s) : s.Inv ∧ s.NoneMissed := by
  refine hrun.invariant (I := fun s ↦ s.Inv ∧ s.NoneMissed) ⟨inv_init, noneMissed_init⟩ ?_
  rintro s a s' ⟨h, hn⟩ ⟨hstep, horderly, htimely⟩
  have hm := moves_of_step hstep
  exact ⟨h.step hstep horderly, hn.queue_step h hm htimely, hn.waiters_step h hm htimely⟩

theorem Quiescent.returned (hq : s.Quiescent) (h : s.Inv) (hn : s.NoneMissed) {i : ℕ}
    (hi : ∀ c ∈ s.pipeline.begun, c.state = i → s.stage c.server = .running) :
    (s.pipeline.heap i).numLeft = 0 ∧ ∀ caller, (s.waiters i).phase caller = .out := by
  have hleft : (s.pipeline.heap i).numLeft = 0 := by
    rw [h.invariant.2.2.numLeft, Int.natCast_eq_zero, List.countP_eq_zero]
    intro c hc hcount
    rw [decide_eq_true_iff] at hcount
    exact hcount.2 (hq.answered h hc (hi c hc hcount.1))
  refine ⟨hleft, fun caller ↦ ((hq.waiters h i).2 caller).resolve_right fun hblocked ↦ ?_⟩
  have hmem := ((h.waiters i).ok.blocked caller).mpr hblocked
  rw [hn.waiters i hleft.le] at hmem
  cases hmem

/-- The threads of a `Server` that was shut down have exited. -/
theorem Quiescent.stopped_notified (hq : s.Quiescent) (h : s.Inv) (hn : s.NoneMissed)
    (hnotified : s.stage v = .notified) : s.Stopped v := by
  intro i hi
  rcases hq.pc_cases h (v, i) with habsent | ⟨-, hmem⟩ | hexited
  · rcases (h.absent (v, i)).mp habsent with hstage | hle
    · rw [hnotified] at hstage
      cases hstage
    · exact absurd hi (not_lt.mpr hle)
  · rw [(hn.queue v hnotified).waitSet] at hmem
    cases hmem
  · exact hexited

theorem Quiescent.stopped (hq : s.Quiescent) (h : s.Inv) (hn : s.NoneMissed)
    (hv : s.done v = true) : s.Stopped v := by
  rw [Blocking.done] at hv
  rcases hstage : s.stage v with _ | _ | _ | _ | _
  · rw [hstage] at hv
    cases hv
  · rw [hstage] at hv
    cases hv
  · exact absurd hstage (hq.stage v)
  · exact hq.stopped_notified h hn hstage
  · exact h.stopped v hstage

theorem Quiescent.settled (hq : s.Quiescent) (h : s.Inv) (hn : s.NoneMissed) : s.Settled where
  answered _ hc hv := hq.answered h hc hv
  nodes _ hv := hq.nodes h hv
  asleep _ hv _ hi := hq.asleep h hv hi
  stopped _ hv := hq.stopped h hn hv
  returned _ hi := hq.returned h hn hi

end Blocking

end MemcacheRouter.Routerlib
