import MemcacheRouter.Router.Loop

/-!
# Restarting the workers

`SetMemcacheServers` holds `server_list_m_` while it joins the workers, and the first thing a worker
does is to take that lock. A worker that has not got that far when a new list arrives is never
joined: it waits for the lock, and the main loop, which has the lock, waits for it.

Nothing else can go wrong here. A worker waits for the lock only once, at its start, and no worker
is started while others are being stopped; so the restart goes through if, at the moment the main
loop finds that the list has changed, every worker has had its turn with the lock. Otherwise the
restart never ends.
-/

open Transition

namespace MemcacheRouter

/-! ## Mutual exclusion -/

/-- The main loop is in the scope of the `lock_guard` of `SetMemcacheServers`. -/
def MainState.holdsLock : MainState → Bool
  | polling | dispatching _ | pushing _ | locking _ | answering _ => false
  | _ => true

/-- The main loop is in `BlockingWait`. -/
def MainState.isStopping : MainState → Bool
  | stopping _ | flagging _ | notifying _ | joining _ _ => true
  | _ => false

namespace Router

variable {codec : Codec} {numThreads : ℕ} {r r' : Router} {a : RouterAction}

/-- `server_list_m_` is held by the thread that is in a scope with its `lock_guard`. -/
structure Exclusive (r : Router) : Prop where
  main : r.main.holdsLock → r.lock = some .main
  worker : ∀ i, r.workers[i]? = some .initialising → r.lock = some (.worker i)

/-- The lock after a step of `SetMemcacheServers`. -/
theorem Serves.lock_cases {m main : MainState} {lock : Option Owner} (h : r.Serves m main lock) :
    (r.lock = none ∧ lock = some .main) ∨ (m.holdsLock ∧ ¬main.holdsLock) ∨
      (m.holdsLock ∧ lock = r.lock) := by
  cases h with
  | acquire hlock => exact Or.inl ⟨hlock, rfl⟩
  | release => exact Or.inr (Or.inl ⟨rfl, Bool.false_ne_true⟩)
  | _ => exact Or.inr (Or.inr ⟨rfl, rfl⟩)

theorem getElem?_goto {i k : ℕ} {w' x : WorkerState} (h : (r.goto i w').workers[k]? = some x) :
    (i = k ∧ x = w') ∨ r.workers[k]? = some x := by
  by_cases hik : i = k
  · subst hik
    rw [goto, List.getElem?_set_self'] at h
    obtain ⟨_, -, hx⟩ := Option.map_eq_some_iff.mp h
    exact Or.inl ⟨rfl, hx.symm⟩
  · rw [goto, List.getElem?_set_ne hik] at h
    exact Or.inr h

/-- A worker that does not go into `Init` leaves the lock as it is. -/
theorem Exclusive.goto (hr : r.Exclusive) (i : ℕ) {w' : WorkerState} (hw' : w' ≠ .initialising) :
    (r.goto i w').Exclusive where
  main := hr.main
  worker k hk := by
    rcases getElem?_goto hk with ⟨-, hw⟩ | hk
    · exact absurd hw.symm hw'
    · exact hr.worker k hk

theorem Exclusive.control (hr : r.Exclusive) {i : ℕ} {w w' : WorkerState} {lock : Option Owner}
    (hi : r.workers[i]? = some w) (h : r.Controls i w w' lock) :
    Exclusive { r.goto i w' with lock := lock } := by
  cases h with
  | acquire hlock =>
    refine ⟨fun hmain ↦ ?_, fun k hk ↦ ?_⟩
    · exact absurd ((hr.main hmain).symm.trans hlock) (by simp)
    · rcases getElem?_goto hk with ⟨rfl, -⟩ | hk
      · rfl
      · exact absurd ((hr.worker k hk).symm.trans hlock) (by simp)
  | release =>
    have hlock := hr.worker i hi
    refine ⟨fun hmain ↦ ?_, fun k hk ↦ ?_⟩
    · exact absurd ((hr.main hmain).symm.trans hlock) (by simp)
    · rcases getElem?_goto hk with ⟨-, hw⟩ | hk'
      · cases hw
      · obtain rfl : i = k := by simpa using hlock.symm.trans (hr.worker k hk')
        have hself : (r.goto i .looping).workers[i]? = some .looping := by
          rw [Router.goto, List.getElem?_set_self (List.getElem?_eq_some_iff.mp hi).1]
        exact absurd (hself.symm.trans hk) (by simp)
  | exit _ => exact hr.goto i (by simp)
  | enter _ => exact hr.goto i (by simp)
  | unblocked _ => exact hr.goto i (by simp)
  | again => exact hr.goto i (by simp)

theorem Exclusive.serve (hr : r.Exclusive) {main : MainState} {lock : Option Owner}
    (h : r.Serves r.main main lock) (queueDone done : Bool) (serverList : Option Packet) :
    Exclusive { r with
      main := main, queueDone := queueDone, done := done, lock := lock
      serverList := serverList } := by
  rcases h.lock_cases with ⟨hnone, rfl⟩ | ⟨hold, hfree⟩ | ⟨hold, rfl⟩
  · exact ⟨fun _ ↦ rfl, fun i hi ↦ absurd ((hr.worker i hi).symm.trans hnone) (by simp)⟩
  · refine ⟨fun hmain ↦ absurd hmain hfree, fun i hi ↦ ?_⟩
    exact absurd ((hr.worker i hi).symm.trans (hr.main hold)) (by simp)
  · exact ⟨fun _ ↦ hr.main hold, hr.worker⟩

theorem Exclusive.of_moves (hr : r.Exclusive) (h : r.Moves codec a r') : r'.Exclusive := by
  cases h with
  | serve h => exact hr.serve h _ _ _
  | forward _ _ => exact ⟨hr.main, hr.worker⟩
  | join h _ => exact ⟨fun _ ↦ hr.main (by rw [h]; rfl), hr.worker⟩
  | clear h _ => exact ⟨fun _ ↦ hr.main (by rw [h]; rfl), fun _ hi ↦ by cases hi⟩
  | spawn h =>
    refine ⟨fun _ ↦ hr.main (by rw [h]; rfl), fun i hi ↦ hr.worker i ?_⟩
    rw [List.getElem?_append] at hi
    split_ifs at hi
    · exact hi
    · simp [List.getElem?_singleton] at hi
  | control hi h => exact hr.control hi h
  | pop hi _ _ => exact ⟨hr.main, (hr.goto _ (by simp)).worker⟩
  | handleSet hi _ => exact ⟨hr.main, (hr.goto _ (by simp)).worker⟩
  | handleIncr hi _ => exact ⟨hr.main, (hr.goto _ (by simp)).worker⟩
  | handleGet hi _ => exact ⟨hr.main, (hr.goto _ (by simp)).worker⟩
  | handleOther hi _ => exact ⟨hr.main, (hr.goto _ (by simp)).worker⟩
  | answerGet hi => exact ⟨hr.main, (hr.goto _ (by simp)).worker⟩
  | _ => exact ⟨fun hmain ↦ absurd hmain Bool.false_ne_true, hr.worker⟩

/-- **Mutual exclusion** on `server_list_m_`. -/
theorem exclusive_of_run {as : List RouterAction}
    (h : Run (StepOf (step codec numThreads)) {} as r) : r.Exclusive := by
  refine h.invariant ⟨fun hmain ↦ absurd hmain Bool.false_ne_true, fun i hi ↦ by cases hi⟩ ?_
  exact fun _ _ _ hr hstep ↦ hr.of_moves (moves_of_step hstep)

/-! ## The restart -/

/-- The main loop has the lock and joins a worker that waits for it. -/
def Deadlocked (r : Router) : Prop :=
  ∃ j i, r.lock = some .main ∧ r.main = .joining j i ∧ r.workers[i]? = some .starting

/-- When the main loop finds that the list has changed, every worker has had the lock. -/
def Ready (r : Router) : RouterAction → Prop
  | .main _ => ∀ j, r.main = .comparing j →
      isServerListMatching r.serverList j.packet = .ok false → .starting ∉ r.workers
  | _ => True

/-- Only the main loop starts threads. -/
theorem starting_of_goto {i : ℕ} {w' : WorkerState} (hw' : w' ≠ .starting)
    (h : .starting ∈ (r.goto i w').workers) : .starting ∈ r.workers :=
  (mem_workers_goto h).resolve_right hw'.symm

theorem Controls.ne_starting {i : ℕ} {w w' : WorkerState} {lock : Option Owner}
    (h : r.Controls i w w' lock) : w' ≠ .starting := by
  cases h <;> simp

/-- The steps of `SetMemcacheServers` lead into `BlockingWait` only from the comparison. -/
theorem Serves.stopping_cases {m main : MainState} {lock : Option Owner}
    (h : r.Serves m main lock) (hstop : main.isStopping) : m.isStopping ∨
      ∃ j, m = .comparing j ∧ isServerListMatching r.serverList j.packet = .ok false := by
  cases h with
  | differing hmatch => exact Or.inr ⟨_, rfl, hmatch⟩
  | setDone => exact Or.inl rfl
  | setQueueDone => exact Or.inl rfl
  | notify => exact Or.inl rfl
  | _ => cases hstop

/-- And from the comparison with another list they lead nowhere else, nor out of it. -/
theorem Serves.isStopping {m main : MainState} {lock : Option Owner} (h : r.Serves m main lock)
    (hm : m.isStopping ∨
      ∃ j, m = .comparing j ∧ isServerListMatching r.serverList j.packet = .ok false) :
    main.isStopping := by
  cases h with
  | matching hmatch =>
    rcases hm with hstop | ⟨j, hj, hdiff⟩
    · cases hstop
    · obtain rfl := MainState.comparing.inj hj
      exact absurd (hmatch.symm.trans hdiff) (by simp)
  | differing _ => rfl
  | setDone => rfl
  | setQueueDone => rfl
  | notify => rfl
  | _ => rcases hm with hstop | ⟨j, hj, -⟩ <;> contradiction

/-- While workers are stopped none is at its start. -/
theorem starting_of_moves (h : r.Moves codec a r') (ha : r.Ready a)
    (hr : r.main.isStopping → .starting ∉ r.workers) (hstop : r'.main.isStopping) :
    .starting ∉ r'.workers := by
  cases h with
  | forward _ _ => exact hr hstop
  | serve h =>
    rcases h.stopping_cases hstop with hold | ⟨j, hj, hmatch⟩
    · exact hr hold
    · exact ha j hj hmatch
  | join h _ => exact hr (by rw [h]; rfl)
  | control _ h => exact fun hmem ↦ hr hstop (starting_of_goto h.ne_starting hmem)
  | pop _ _ _ => exact fun hmem ↦ hr hstop (starting_of_goto (by simp) hmem)
  | handleSet _ _ => exact fun hmem ↦ hr hstop (starting_of_goto (by simp) hmem)
  | handleIncr _ _ => exact fun hmem ↦ hr hstop (starting_of_goto (by simp) hmem)
  | handleGet _ _ => exact fun hmem ↦ hr hstop (starting_of_goto (by simp) hmem)
  | handleOther _ _ => exact fun hmem ↦ hr hstop (starting_of_goto (by simp) hmem)
  | answerGet _ => exact fun hmem ↦ hr hstop (starting_of_goto (by simp) hmem)
  | _ => cases hstop

/-- **The restart does not deadlock** in a run in which no changed list arrives before every worker
has had the lock. -/
theorem restart_not_deadlocked {as : List RouterAction}
    (h : Run (Guarded (StepOf (step codec numThreads)) Ready) {} as r) : ¬r.Deadlocked := by
  have hstart : r.main.isStopping → .starting ∉ r.workers :=
    h.invariant (I := fun r ↦ r.main.isStopping → .starting ∉ r.workers)
      (fun hstop ↦ by cases hstop)
      fun _ _ _ hr hstep ↦ starting_of_moves (moves_of_step hstep.1) hstep.2 hr
  -- The main loop joins only while it stops workers.
  rintro ⟨j, i, -, hmain, hi⟩
  exact hstart (by rw [hmain]; rfl) (List.mem_of_getElem? hi)

/-- The list has changed, and worker `k` waits for the lock that the main loop has. -/
structure Stuck (k : ℕ) (r : Router) : Prop where
  main : r.main.isStopping ∨
    ∃ j, r.main = .comparing j ∧ isServerListMatching r.serverList j.packet = .ok false
  joined : ∀ j i, r.main = .joining j i → i ≤ k
  worker : r.workers[k]? = some .starting

theorem Stuck.holdsLock {k : ℕ} (hr : r.Stuck k) : r.main.holdsLock := by
  rcases hr.main with h | ⟨j, h, -⟩
  · generalize r.main = m at h
    cases m <;> first | rfl | cases h
  · rw [h]
    rfl

/-- Where the main loop is not. -/
theorem Stuck.main_ne {k : ℕ} (hr : r.Stuck k) {m : MainState} (hstop : m.isStopping = false)
    (hcmp : ∀ j, m ≠ .comparing j) : r.main ≠ m := by
  rintro rfl
  rcases hr.main with h | ⟨j, h, -⟩
  · rw [hstop] at h
    cases h
  · exact hcmp j h

/-- Another worker moves. -/
theorem Stuck.worker_goto {k i : ℕ} (hr : r.Stuck k) {w : WorkerState}
    (hi : r.workers[i]? = some w) (hw : w ≠ .starting) (w' : WorkerState) :
    (r.goto i w').workers[k]? = some .starting := by
  have hne : i ≠ k := by
    rintro rfl
    exact hw (Option.some.inj (hi.symm.trans hr.worker))
  exact (List.getElem?_set_ne hne).trans hr.worker

theorem Stuck.of_moves {k : ℕ} (hr : r.Stuck k) (hlock : r.Exclusive)
    (h : r.Moves codec a r') : r'.Stuck k := by
  cases h with
  | serve h =>
    refine ⟨Or.inl (h.isStopping hr.main), fun j i hmain ↦ ?_, hr.worker⟩
    obtain rfl : _ = MainState.joining j i := hmain
    rw [h.eq_zero_of_joining]
    exact Nat.zero_le k
  | join h hi =>
    refine ⟨Or.inl rfl, fun j i hmain ↦ ?_, hr.worker⟩
    obtain ⟨-, rfl⟩ := MainState.joining.inj hmain
    refine lt_of_le_of_ne (hr.joined _ _ h) ?_
    rintro rfl
    exact absurd (hi.symm.trans hr.worker) (by simp)
  | clear h hi =>
    have hk := (List.getElem?_eq_some_iff.mp hr.worker).1
    have hlen := List.getElem?_eq_none_iff.mp hi
    exact absurd (hr.joined _ _ h) (Nat.not_le.mpr (hk.trans_le hlen))
  | control hi h =>
    refine ⟨hr.main, hr.joined, hr.worker_goto hi ?_ _⟩
    rintro rfl
    -- The worker would need the lock.
    cases h with
    | acquire hfree => exact absurd ((hlock.main hr.holdsLock).symm.trans hfree) (by simp)
  | pop hi _ _ => exact ⟨hr.main, hr.joined, hr.worker_goto hi (by simp) _⟩
  | handleSet hi _ => exact ⟨hr.main, hr.joined, hr.worker_goto hi (by simp) _⟩
  | handleIncr hi _ => exact ⟨hr.main, hr.joined, hr.worker_goto hi (by simp) _⟩
  | handleGet hi _ => exact ⟨hr.main, hr.joined, hr.worker_goto hi (by simp) _⟩
  | handleOther hi _ => exact ⟨hr.main, hr.joined, hr.worker_goto hi (by simp) _⟩
  | answerGet hi => exact ⟨hr.main, hr.joined, hr.worker_goto hi (by simp) _⟩
  | receive h => exact absurd h (hr.main_ne rfl (by simp))
  | receiveAsync h _ => exact absurd h (hr.main_ne rfl (by simp))
  | forward h _ => exact absurd h (hr.main_ne rfl (by simp))
  | dispatchList h _ => exact absurd h (hr.main_ne rfl (by simp))
  | dispatchSet h _ => exact absurd h (hr.main_ne rfl (by simp))
  | dispatchStats h _ => exact absurd h (hr.main_ne rfl (by simp))
  | dispatchQueue h _ => exact absurd h (hr.main_ne rfl (by simp))
  | push h => exact absurd h (hr.main_ne rfl (by simp))
  | spawn h => exact absurd h (hr.main_ne rfl (by simp))
  | answerList h => exact absurd h (hr.main_ne rfl (by simp))

/-- **The condition is needed.** When a changed list arrives while a worker still waits for the
lock, the main loop never gets out of `SetMemcacheServers` again, whatever the threads do. -/
theorem stuck_of_run {k : ℕ} {as bs : List RouterAction}
    (hreach : Run (StepOf (step codec numThreads)) {} as r) (hr : r.Stuck k)
    (h : Run (StepOf (step codec numThreads)) r bs r') : r'.Stuck k ∧ r'.lock = some .main := by
  have hinv : r'.Stuck k ∧ r'.Exclusive :=
    h.invariant (I := fun r ↦ r.Stuck k ∧ r.Exclusive) ⟨hr, exclusive_of_run hreach⟩
      fun _ _ _ hs hstep ↦
        ⟨hs.1.of_moves hs.2 (moves_of_step hstep), hs.2.of_moves (moves_of_step hstep)⟩
  exact ⟨hinv.1, hinv.2.main hinv.1.holdsLock⟩

end Router

/-! ## Two lists -/

/-- Two lists of one server each. -/
def twoLists : Codec := .ofTable
  [([34, 5, 10, 1, 97, 16, 1], { servers := [⟨[97], 1⟩] }),
    ([34, 5, 10, 1, 98, 16, 1], { servers := [⟨[98], 1⟩] })]

/-- The first list is installed, with one worker. -/
def firstList : List RouterAction :=
  .receive [[1], [], [34, 5, 10, 1, 97, 16, 1]] :: List.replicate 14 (.main {})

/-- The second list arrives, and the main loop gets as far as joining the worker. -/
def secondList : List RouterAction :=
  .receive [[1], [], [34, 5, 10, 1, 98, 16, 1]] :: List.replicate 6 (.main {})

/-- A check of `Ready`. -/
def readyCheck (r : Router) : RouterAction → Bool
  | .main _ =>
    match r.main with
    | .comparing _ => .starting ∉ r.workers
    | _ => true
  | _ => true

private theorem ready_of_readyCheck (r : Router) (a : RouterAction) (h : readyCheck r a = true) :
    r.Ready a := by
  cases a with
  | main result =>
    intro j hj _
    rw [readyCheck, hj] at h
    exact of_decide_eq_true h
  | _ => trivial

/-- The worker has had the lock when the second list arrives. -/
theorem restart_not_deadlocked_started : ∃ r : Router,
    Run (StepOf (Router.step twoLists 1)) {}
      (firstList ++ [.worker 0 {}, .worker 0 {}] ++ secondList) r ∧
      r.main.isStopping ∧ ¬r.Deadlocked := by
  obtain ⟨r, hrun, hstop⟩ := exists_run_of_execChecked ready_of_readyCheck
    (show (execChecked (Router.step twoLists 1) readyCheck {}
      (firstList ++ [.worker 0 {}, .worker 0 {}] ++ secondList)).map (·.main.isStopping)
        = some true by decide +kernel)
  exact ⟨r, hrun.of_guarded, hstop, Router.restart_not_deadlocked hrun⟩

/-- The worker has not been scheduled when the second list arrives. -/
theorem restart_deadlocked : ∃ r : Router,
    Run (StepOf (Router.step twoLists 1)) {} (firstList ++ secondList) r ∧ r.Deadlocked := by
  obtain ⟨r, hrun, hsnap⟩ := exists_run_of_exec (show (exec (Router.step twoLists 1) {}
    (firstList ++ secondList)).map (fun r ↦ (r.lock, r.main, r.workers[0]?))
      = some (some .main, .joining ⟨some 1, ⟨[[1]], { servers := [⟨[98], 1⟩] }⟩⟩ 0, some .starting)
        by decide +kernel)
  obtain ⟨hlock, hmain, hworker⟩ := by
    simpa only [Prod.mk.injEq] using hsnap
  exact ⟨r, hrun, _, _, hlock, hmain, hworker⟩

end MemcacheRouter
