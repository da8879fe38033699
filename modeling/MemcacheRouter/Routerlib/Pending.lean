import MemcacheRouter.Foundations.Places
import MemcacheRouter.Routerlib.Pipeline

/-!
# Pending commands

A command passes from its caller to the node of its `Server`, from there to a thread, and it is gone
when the node is deleted; it is never in two of these places. Where it is decides how many of its
frames are still to be appended and whether `DecrementPending` was called for it, and `num_left_`
counts the commands for which it was not.

So the two can differ in one moment only: the last frame of a command was appended, and the thread
that has appended it is about to count it down. `BlockingGetResponse` therefore never returns before
the frames of every command that has begun are there.
-/

open Transition

namespace MemcacheRouter.Routerlib

/-! ## Every command in one place -/

/-- Where a command can be. -/
inductive Place where
  /-- Between the two halves of `AddCommand`. -/
  | calling
  /-- In the node of a `Server`. -/
  | pending (server : ℕ)
  /-- In the node that a thread works on. -/
  | working (t : ℕ × ℕ)
  /-- In a node that was deleted. -/
  | deleted
  deriving DecidableEq

/-- The commands of the node that a thread works on. -/
def ThreadPc.commands : ThreadPc → List Command
  | .reading job | .counting job _ => job.node.commands
  | _ => []

namespace Pipeline

variable {s s' : Pipeline} {a : PipelineAction}

/-- The commands in a place. -/
def holds (s : Pipeline) : Place → List Command
  | .calling => s.calling
  | .pending v => ((s.nodes v).getD {}).commands
  | .working t => (s.threads t).commands
  | .deleted => s.deleted

/-- Every command is in one place, and the commands are numbered. -/
structure Listed (s : Pipeline) : Prop where
  placed : Placed s.holds s.begun
  ids : s.begun.map Command.id = List.range s.begun.length

theorem listed_init : Listed {} where
  placed := by
    refine ⟨fun p ↦ ?_, fun p q c hp ↦ ?_, fun c ↦ ?_⟩
    · rcases p with _ | _ | _ | _ <;> exact List.nodup_nil
    · rcases p with _ | _ | _ | _ <;> cases hp
    · refine ⟨fun h ↦ absurd h List.not_mem_nil, ?_⟩
      rintro ⟨p, hp⟩
      rcases p with _ | _ | _ | _ <;> cases hp
  ids := rfl

theorem Listed.nodup (hs : s.Listed) : s.begun.Nodup := by
  apply List.Nodup.of_map Command.id
  rw [hs.ids]
  exact List.nodup_range

/-- A new command has a new number. -/
theorem Listed.new_notMem (hs : s.Listed) {c : Command} (hc : c.id = s.begun.length) :
    c ∉ s.begun := by
  intro hmem
  have hid := List.mem_map_of_mem (f := Command.id) hmem
  rw [hs.ids, hc, List.mem_range] at hid
  exact lt_irrefl _ hid

/-- A thread goes on with the same node. -/
theorem holds_goto {t : ℕ × ℕ} (pc : ThreadPc) (hpc : pc.commands = (s.threads t).commands)
    (hcalling : s'.calling = s.calling) (hnodes : s'.nodes = s.nodes)
    (hdeleted : s'.deleted = s.deleted) (hthreads : s'.threads = (s.goto t pc).threads) :
    s'.holds = s.holds := by
  funext p
  rcases p with _ | v | t' | _
  · exact hcalling
  · rw [holds, holds, hnodes]
  · rw [holds, holds, hthreads]
    rcases eq_or_ne t' t with rfl | hne
    · rw [threads_goto, if_pos rfl, hpc]
    · rw [threads_goto, if_neg hne]
  · exact hdeleted

theorem Listed.goto (hs : s.Listed) {t : ℕ × ℕ} (pc : ThreadPc)
    (hpc : pc.commands = (s.threads t).commands) (hbegun : s'.begun = s.begun)
    (hcalling : s'.calling = s.calling) (hnodes : s'.nodes = s.nodes)
    (hdeleted : s'.deleted = s.deleted) (hthreads : s'.threads = (s.goto t pc).threads) :
    s'.Listed where
  placed := by
    rw [hbegun, holds_goto pc hpc hcalling hnodes hdeleted hthreads]
    exact hs.placed
  ids := hbegun ▸ hs.ids

/-- **One step keeps every command in one place.** -/
theorem Listed.step (hs : s.Listed) (h : s.Moves a s') : s'.Listed := by
  cases h with
  | increment _ =>
    refine ⟨hs.placed.add (hs.new_notMem rfl) .calling (List.Perm.refl _) fun p hp ↦ ?_, ?_⟩
    · rcases p with _ | _ | _ | _
      · exact absurd rfl hp
      · rfl
      · rfl
      · rfl
    · simp [increment, hs.ids, List.range_succ]
  | @enqueue c hc =>
    refine ⟨hs.placed.move .calling (.pending c.server) [c] (s.calling.erase c) (by simp)
      (List.perm_cons_erase hc) (List.Perm.refl _) ?_ fun p hsrc hdst ↦ ?_, hs.ids⟩
    · rw [holds, nodes_enqueued, if_pos rfl]
      exact List.Perm.refl _
    · rcases p with _ | v | _ | _
      · exact absurd rfl hsrc
      · rw [holds, holds, nodes_enqueued, if_neg (mt (congrArg Place.pending) hdst)]
      · rfl
      · rfl
  | @take t n ht hn =>
    refine ⟨hs.placed.move (.pending t.1) (.working t) n.commands [] (by simp) ?_ ?_ ?_
      fun p hsrc hdst ↦ ?_, hs.ids⟩
    · rw [holds, hn, List.append_nil]
      exact List.Perm.refl _
    · rw [holds, nodes_taken, if_pos rfl]
      exact List.Perm.refl _
    · rw [holds, holds, threads_taken, if_pos rfl, ht]
      exact List.Perm.refl _
    · rcases p with _ | v | t' | _
      · rfl
      · rw [holds, holds, nodes_taken, if_neg (mt (congrArg Place.pending) hsrc)]
      · rw [holds, holds, threads_taken, if_neg (mt (congrArg Place.working) hdst)]
      · rfl
  | read ht _ hnode _ _ =>
    exact hs.goto (.reading _) (by rw [ht, ThreadPc.commands, hnode]; rfl) rfl rfl rfl rfl rfl
  | append ht _ _ => exact hs.goto (.counting _ _) (by rw [ht]; rfl) rfl rfl rfl rfl rfl
  | count ht _ _ _ => exact hs.goto (.reading _) (by rw [ht]; rfl) rfl rfl rfl rfl rfl
  | complete ht _ _ _ _ => exact hs.goto (.reading _) (by rw [ht]; rfl) rfl rfl rfl rfl rfl
  | @finish t job ht _ _ =>
    refine ⟨hs.placed.move (.working t) .deleted job.node.commands [] (by simp) ?_ ?_
      (List.Perm.refl _) fun p hsrc hdst ↦ ?_, hs.ids⟩
    · rw [holds, ht, List.append_nil]
      exact List.Perm.refl _
    · rw [holds, threads_finished, if_pos rfl]
      exact List.Perm.refl _
    · rcases p with _ | _ | t' | _
      · rfl
      · rfl
      · rw [holds, holds, threads_finished, if_neg (mt (congrArg Place.working) hsrc)]
      · exact absurd rfl hdst
  | getResponse _ => exact hs

end Pipeline

/-! ## Frames and counters -/

section Replicate

variable {α : Type*} [DecidableEq α] {a : α} {counts : List (α × ℕ)}

theorem count_flatMap_replicate_of_notMem (ha : a ∉ counts.map Prod.fst) :
    (counts.flatMap fun x ↦ List.replicate x.2 x.1).count a = 0 := by
  rw [List.count_eq_zero]
  intro hmem
  obtain ⟨x, hx, hrep⟩ := List.mem_flatMap.mp hmem
  exact ha (List.eq_of_mem_replicate hrep ▸ List.mem_map_of_mem hx)

theorem count_flatMap_replicate {k : ℕ} (hnodup : (counts.map Prod.fst).Nodup)
    (ha : (a, k) ∈ counts) : (counts.flatMap fun x ↦ List.replicate x.2 x.1).count a = k := by
  induction counts with
  | nil => cases ha
  | cons x counts ih =>
    obtain ⟨hx, hnodup⟩ := List.nodup_cons.mp hnodup
    rw [List.flatMap_cons, List.count_append, List.count_replicate]
    rcases List.mem_cons.mp ha with rfl | ha
    · simp [count_flatMap_replicate_of_notMem hx]
    · have hne : x.1 ≠ a := fun h ↦ hx (h ▸ List.mem_map_of_mem ha)
      simp [hne, ih hnodup ha]

end Replicate

/-- The commands of the frames that a thread has not appended yet. -/
def ThreadPc.toCome : ThreadPc → List Command
  | .reading job => job.arrived.map Prod.fst ++ job.expected
  | .counting job _ => job.arrived.tail.map Prod.fst ++ job.expected
  | _ => []

/-- The commands that a thread has completed. -/
def ThreadPc.settled : ThreadPc → List Command
  | .reading job | .counting job _ => job.node.commands.take job.cursor.stateIdx
  | _ => []

namespace Pipeline

variable {s s' : Pipeline} {a : PipelineAction}

/-- The number of frames that were appended for a command. -/
def numAppended (s : Pipeline) (c : Command) : ℕ :=
  s.appended.countP fun e ↦ e.answers.map Prod.fst = some c

/-- The number of frames of a command that are still to be appended, where it is. -/
def due (s : Pipeline) (c : Command) : Place → ℕ
  | .calling | .pending _ => c.numInstructions
  | .working t => (s.threads t).toCome.count c
  | .deleted => 0

/-- The commands in a place for which `DecrementPending` was called. -/
def settled (s : Pipeline) : Place → List Command
  | .calling | .pending _ => []
  | .working t => (s.threads t).settled
  | .deleted => s.deleted

/-- Every frame went to the `ResponseState` of the command it answers, and every counter counts the
commands for which `DecrementPending` was not called yet. -/
structure Accounted (s : Pipeline) : Prop where
  answers : ∀ e ∈ s.appended, ∃ c f, e = ⟨some (c, f), c.state, f⟩ ∧ c ∈ s.begun
  response : ∀ i, (s.heap i).response
    = ((s.appended.filter fun e ↦ e.target = i).map Appended.bytes).flatten
  frames : ∀ p, ∀ c ∈ s.holds p, s.numAppended c + s.due c p = c.numInstructions
  decremented : ∀ p, ∀ c ∈ s.holds p, (c ∈ s.decremented ↔ c ∈ s.settled p)
  begun : ∀ c ∈ s.decremented, c ∈ s.begun
  numLeft : ∀ i, (s.heap i).numLeft
    = s.begun.countP fun c ↦ c.state = i ∧ c ∉ s.decremented

/-- What is read off the position of a thread changes at the thread that has moved. -/
theorem apply_threads_goto {α : Type} (f : ThreadPc → α) (t t' : ℕ × ℕ) (pc : ThreadPc) :
    f ((s.goto t pc).threads t') =
      if Place.working t' = .working t then f pc else f (s.threads t') := by
  rw [threads_goto]
  rcases eq_or_ne t' t with rfl | hne
  · rw [if_pos rfl, if_pos rfl]
  · rw [if_neg hne, if_neg (mt Place.working.inj hne)]

/-- A thread has moved, and nothing else of what decides how many frames are to come. -/
theorem due_of_goto {t : ℕ × ℕ} {pc : ThreadPc} (hthreads : s'.threads = (s.goto t pc).threads)
    (c : Command) (p : Place) :
    s'.due c p = if p = .working t then pc.toCome.count c else s.due c p := by
  rcases p with _ | v | t' | _
  · rfl
  · rfl
  · rw [due, hthreads]
    exact apply_threads_goto (fun pc ↦ pc.toCome.count c) t t' pc
  · rfl

theorem settled_of_goto {t : ℕ × ℕ} {pc : ThreadPc} (hthreads : s'.threads = (s.goto t pc).threads)
    (hdeleted : s'.deleted = s.deleted) (p : Place) :
    s'.settled p = if p = .working t then pc.settled else s.settled p := by
  rcases p with _ | v | t' | _
  · rfl
  · rfl
  · rw [settled, hthreads]
    exact apply_threads_goto ThreadPc.settled t t' pc
  · exact hdeleted

theorem accounted_init : Accounted {} where
  answers := by simp
  response _ := rfl
  frames := by
    intro p c hc
    rcases p with _ | _ | _ | _ <;> cases hc
  decremented := by
    intro p c hc
    rcases p with _ | _ | _ | _ <;> cases hc
  begun := by simp
  numLeft _ := rfl

/-- A step that only moves commands from place to place. -/
theorem Accounted.of_places (hs : s.Accounted) (hheap : s'.heap = s.heap)
    (happended : s'.appended = s.appended) (hdecremented : s'.decremented = s.decremented)
    (hbegun : s'.begun = s.begun)
    (hplaces : ∀ p, ∀ c ∈ s'.holds p, ∃ q, c ∈ s.holds q ∧ s'.due c p = s.due c q ∧
      (c ∈ s'.settled p ↔ c ∈ s.settled q)) : s'.Accounted where
  answers := by
    rw [happended, hbegun]
    exact hs.answers
  response := by
    rw [hheap, happended]
    exact hs.response
  frames := by
    intro p c hc
    obtain ⟨q, hq, hdue, -⟩ := hplaces p c hc
    rw [numAppended, happended, hdue]
    exact hs.frames q c hq
  decremented := by
    intro p c hc
    obtain ⟨q, hq, -, hsettled⟩ := hplaces p c hc
    rw [hdecremented, hsettled]
    exact hs.decremented q c hq
  begun := by
    rw [hdecremented, hbegun]
    exact hs.begun
  numLeft := by
    rw [hheap, hdecremented, hbegun]
    exact hs.numLeft

/-- A command has appeared in no frame before it has begun. -/
theorem Accounted.numAppended_new (hs : s.Accounted) {c : Command} (hc : c ∉ s.begun) :
    s.numAppended c = 0 := by
  rw [numAppended, List.countP_eq_zero]
  intro e he
  obtain ⟨c', f, rfl, hc'⟩ := hs.answers e he
  rw [decide_eq_true_iff, Option.map_some, Option.some.injEq]
  rintro rfl
  exact hc hc'

theorem Accounted.increment (hs : s.Accounted) (hl : s.Listed) (server : ℕ) (bytes : Bytes)
    (n state : ℕ) : (s.increment server bytes n state).Accounted := by
  have hnew : (⟨s.begun.length, server, bytes, n, state⟩ : Command) ∉ s.begun := hl.new_notMem rfl
  have hdec : (⟨s.begun.length, server, bytes, n, state⟩ : Command) ∉ s.decremented :=
    fun hmem ↦ hnew (hs.begun _ hmem)
  refine ⟨fun e he ↦ ?_, fun i ↦ ?_, fun p c hc ↦ ?_, fun p c hc ↦ ?_, fun c hc ↦ ?_, fun i ↦ ?_⟩
  · obtain ⟨c, f, rfl, hc⟩ := hs.answers e he
    exact ⟨c, f, rfl, List.mem_append_left _ hc⟩
  · refine Eq.trans ?_ (hs.response i)
    show (Function.update s.heap state _ i).response = _
    rcases eq_or_ne i state with rfl | hne
    · rw [Function.update_self]
      rfl
    · rw [Function.update_of_ne hne]
  · rcases p with _ | v | t | _
    · rcases List.mem_cons.mp hc with rfl | hc
      · exact (congrArg (· + n) (hs.numAppended_new hnew)).trans (zero_add n)
      · exact hs.frames .calling c hc
    · exact hs.frames (.pending v) c hc
    · exact hs.frames (.working t) c hc
    · exact hs.frames .deleted c hc
  · rcases p with _ | v | t | _
    · rcases List.mem_cons.mp hc with rfl | hc
      · exact iff_of_false hdec List.not_mem_nil
      · exact hs.decremented .calling c hc
    · exact hs.decremented (.pending v) c hc
    · exact hs.decremented (.working t) c hc
    · exact hs.decremented .deleted c hc
  · exact List.mem_append_left _ (hs.begun c hc)
  · show (Function.update s.heap state _ i).numLeft = (List.countP _ (s.begun ++ [_]) : ℤ)
    rw [List.countP_append, List.countP_singleton]
    rcases eq_or_ne i state with rfl | hne
    · rw [Function.update_self, if_pos (decide_eq_true ⟨rfl, hdec⟩), ResponseState.incrementPending,
        hs.numLeft, Nat.cast_succ]
      rfl
    · rw [Function.update_of_ne hne, if_neg (by simp [hne.symm]), hs.numLeft]
      rfl

/-- A request asks for as many frames as its commands have instructions. -/
theorem count_answersTo {c : Command} {cs : List Command} (hnodup : cs.Nodup) (hc : c ∈ cs) :
    (answersTo cs).count c = c.numInstructions := by
  have hcounts : answersTo cs
      = (cs.map fun c ↦ (c, c.numInstructions)).flatMap fun x ↦ List.replicate x.2 x.1 := by
    rw [List.flatMap_map]
    rfl
  rw [hcounts]
  refine count_flatMap_replicate ?_ (List.mem_map_of_mem hc)
  rw [List.map_map]
  exact (List.map_id cs).symm ▸ hnodup

theorem Accounted.enqueued (hs : s.Accounted) {c : Command} (hc : c ∈ s.calling) :
    (s.enqueued c).Accounted := by
  refine hs.of_places rfl rfl rfl rfl fun p c' hc' ↦ ?_
  rcases p with _ | v | t | _
  · exact ⟨.calling, List.mem_of_mem_erase hc', rfl, Iff.rfl⟩
  · rw [holds, nodes_enqueued] at hc'
    split_ifs at hc'
    · rcases List.mem_append.mp hc' with hc' | hc'
      · exact ⟨.pending c.server, hc', rfl, Iff.rfl⟩
      · exact ⟨.calling, List.mem_singleton.mp hc' ▸ hc, rfl, Iff.rfl⟩
    · exact ⟨.pending v, hc', rfl, Iff.rfl⟩
  · exact ⟨.working t, hc', rfl, Iff.rfl⟩
  · exact ⟨.deleted, hc', rfl, Iff.rfl⟩

theorem Accounted.taken (hs : s.Accounted) (hl : s.Listed) {t : ℕ × ℕ} {n : RequestNode}
    (hn : s.nodes t.1 = some n) : (s.taken t n).Accounted := by
  have hpending : s.holds (.pending t.1) = n.commands := by
    rw [holds, hn]
    rfl
  refine hs.of_places rfl rfl rfl rfl fun p c hc ↦ ?_
  rcases p with _ | v | t' | _
  · exact ⟨.calling, hc, rfl, Iff.rfl⟩
  · rw [holds, nodes_taken] at hc
    split_ifs at hc
    · cases hc
    · exact ⟨.pending v, hc, rfl, Iff.rfl⟩
  · rw [holds, threads_taken] at hc
    rw [due, settled, threads_taken]
    split_ifs at hc ⊢ with h
    · refine ⟨.pending t.1, hpending ▸ hc, ?_, Iff.rfl⟩
      exact count_answersTo (hpending ▸ hl.placed.nodup _) hc
    · exact ⟨.working t', hc, rfl, Iff.rfl⟩
  · exact ⟨.deleted, hc, rfl, Iff.rfl⟩

/-- A thread goes on with the same node and the same frames to come. -/
theorem Accounted.goto (hs : s.Accounted) {t : ℕ × ℕ} {pc : ThreadPc}
    (hcommands : pc.commands = (s.threads t).commands) (htoCome : pc.toCome = (s.threads t).toCome)
    (hsettled : pc.settled = (s.threads t).settled) : (s.goto t pc).Accounted := by
  refine hs.of_places rfl rfl rfl rfl fun p c hc ↦ ⟨p, ?_, ?_, ?_⟩
  · have hholds : (s.goto t pc).holds = s.holds := holds_goto pc hcommands rfl rfl rfl rfl
    rwa [hholds] at hc
  · rw [due_of_goto rfl]
    split_ifs with hp
    · rw [htoCome, hp, due]
    · rfl
  · rw [settled_of_goto rfl rfl]
    split_ifs with hp
    · rw [hsettled, hp, settled]
    · exact Iff.rfl

theorem Accounted.finished (hs : s.Accounted) {t : ℕ × ℕ} {job : Job}
    (ht : s.threads t = .reading job) (hend : job.node.commands.length ≤ job.cursor.stateIdx)
    (hqueue : job.arrived.map Prod.fst ++ job.expected = []) : (s.finished t job).Accounted := by
  refine hs.of_places rfl rfl rfl rfl fun p c hc ↦ ?_
  rcases p with _ | v | t' | _
  · exact ⟨.calling, hc, rfl, Iff.rfl⟩
  · exact ⟨.pending v, hc, rfl, Iff.rfl⟩
  · rw [holds, threads_finished] at hc
    rw [due, settled, threads_finished]
    split_ifs at hc ⊢
    · cases hc
    · exact ⟨.working t', hc, rfl, Iff.rfl⟩
  · rcases List.mem_append.mp hc with hc | hc
    · exact ⟨.deleted, hc, rfl, iff_of_true (List.mem_append_left _ hc) hc⟩
    · refine ⟨.working t, ?_, ?_, iff_of_true (List.mem_append_right _ hc) ?_⟩
      · rw [holds, ht]
        exact hc
      · rw [due, due, ht, ThreadPc.toCome, hqueue]
        rfl
      · rw [settled, ht, ThreadPc.settled, List.take_of_length_le hend]
        exact hc

/-- A command is in no place but the one where it is. -/
theorem Listed.ne_of_holds (hl : s.Listed) {c c' : Command} {p q : Place} (hc : c ∈ s.holds p)
    (hc' : c' ∈ s.holds q) (hne : q ≠ p) : c' ≠ c := by
  rintro rfl
  exact hne (hl.placed.disjoint q p c' hc' hc)

theorem Accounted.handed (hs : s.Accounted) (hl : s.Listed) {t : ℕ × ℕ} {job : Job}
    {todo : List (Command × ℕ)} {c : Command} {f : Bytes} {rest : List (Command × Bytes)}
    (ht : s.threads t = .reading job) (hok : job.Ok todo) (harr : job.arrived = (c, f) :: rest) :
    (s.handed t job c f).Accounted := by
  have hc : c ∈ s.holds (.working t) := by
    rw [holds, ht]
    exact hok.mem_commands harr
  have hthreads : (s.handed t job c f).threads
      = (s.goto t (.counting job (job.delivery c f))).threads := rfl
  have hholds : (s.handed t job c f).holds = s.holds :=
    holds_goto (.counting job (job.delivery c f)) (by rw [ht]; rfl) rfl rfl rfl hthreads
  refine ⟨fun e he ↦ ?_, fun i ↦ ?_, fun p c' hc' ↦ ?_, fun p c' hc' ↦ ?_, hs.begun, fun i ↦ ?_⟩
  · rcases List.mem_append.mp he with he | he
    · exact hs.answers e he
    · exact ⟨c, f, List.mem_singleton.mp he, (hl.placed.mem_iff c).mpr ⟨_, hc⟩⟩
  · rw [heap_handed, Pipeline.handed, List.filter_append, List.map_append, List.flatten_append,
      ← hs.response i]
    split_ifs with hi
    · simp [ResponseState.addResponse, hi]
    · simp [Ne.symm hi]
  · rw [hholds] at hc'
    have hframes := hs.frames p c' hc'
    have hnum : (s.handed t job c f).numAppended c'
        = s.numAppended c' + if c = c' then 1 else 0 := by
      rw [numAppended, Pipeline.handed, List.countP_append, List.countP_singleton, numAppended]
      simp
    rw [hnum, due_of_goto hthreads]
    -- one frame more was appended for `c`, and one fewer is due to it
    split_ifs with hcc hp hp
    · rw [hp, due, ht, ThreadPc.toCome, harr, List.map_cons, List.cons_append, hcc,
        List.count_cons_self] at hframes
      rw [ThreadPc.toCome, harr, List.tail_cons]
      omega
    · exact absurd hcc (hl.ne_of_holds hc hc' hp).symm
    · rw [hp, due, ht, ThreadPc.toCome, harr, List.map_cons, List.cons_append,
        List.count_cons_of_ne hcc] at hframes
      rw [ThreadPc.toCome, harr, List.tail_cons]
      omega
    · exact hframes
  · rw [hholds] at hc'
    refine (hs.decremented p c' hc').trans ?_
    rw [settled_of_goto hthreads rfl]
    split_ifs with hp
    · rw [hp, settled, ht]
      exact Iff.rfl
    · exact Iff.rfl
  · refine Eq.trans ?_ (hs.numLeft i)
    rw [heap_handed]
    split_ifs with hi
    · rw [hi]
      rfl
    · rfl

/-- Settling one command takes it out of the count of its `ResponseState`. -/
theorem countP_settle {l dec : List Command} {c : Command} (hl : l.Nodup) (hc : c ∈ l)
    (hdec : c ∉ dec) (i : ℕ) : (l.countP fun x ↦ x.state = i ∧ x ∉ dec)
      = (l.countP fun x ↦ x.state = i ∧ x ∉ dec ++ [c]) + if c.state = i then 1 else 0 := by
  induction l with
  | nil => cases hc
  | cons x l ih =>
    obtain ⟨hx, hl⟩ := List.nodup_cons.mp hl
    rw [List.countP_cons, List.countP_cons]
    rcases List.mem_cons.mp hc with rfl | hc
    · have htail : (l.countP fun x ↦ x.state = i ∧ x ∉ dec)
          = l.countP fun x ↦ x.state = i ∧ x ∉ dec ++ [c] := by
        refine List.countP_congr fun y hy ↦ ?_
        have hne : y ≠ c := fun h ↦ hx (h ▸ hy)
        simp [hne]
      rw [htail]
      simp only [hdec, List.mem_append, List.mem_singleton, or_true, not_true_eq_false, and_false,
        not_false_eq_true, and_true, decide_false, decide_eq_true_eq, Bool.false_eq_true, if_false,
        Nat.add_zero]
    · have hne : x ≠ c := fun h ↦ hx (h ▸ hc)
      rw [ih hl hc]
      simp only [List.mem_append, List.mem_singleton, hne, or_false]
      omega

theorem Accounted.completed (hs : s.Accounted) (hl : s.Listed) {t : ℕ × ℕ} {job : Job}
    {c : Command} {f : Bytes} {rest : List (Command × Bytes)} {d : Delivery} {cursor : Cursor}
    (ht : s.threads t = .counting job d) (harr : job.arrived = (c, f) :: rest)
    (hidx : cursor.stateIdx = job.cursor.stateIdx + 1)
    (hc : job.node.commands[job.cursor.stateIdx]? = some c) :
    (s.completed t { job with cursor := cursor, arrived := rest } c).Accounted := by
  have hthreads : (s.completed t { job with cursor := cursor, arrived := rest } c).threads
      = (s.goto t (.reading { job with cursor := cursor, arrived := rest })).threads := rfl
  have hholds : (s.completed t { job with cursor := cursor, arrived := rest } c).holds = s.holds :=
    holds_goto (.reading { job with cursor := cursor, arrived := rest }) (by rw [ht]; rfl) rfl rfl
      rfl hthreads
  have hworking : s.holds (.working t) = job.node.commands := by
    rw [holds, ht]
    rfl
  have hmem : c ∈ s.holds (.working t) := hworking ▸ List.mem_of_getElem? hc
  have hbegun : c ∈ s.begun := (hl.placed.mem_iff c).mpr ⟨_, hmem⟩
  have htake : job.node.commands.take (job.cursor.stateIdx + 1)
      = job.node.commands.take job.cursor.stateIdx ++ [c] := by
    rw [List.take_add_one, hc]
    rfl
  have hsettled : s.settled (.working t) = job.node.commands.take job.cursor.stateIdx := by
    rw [settled, ht]
    rfl
  -- a command is settled once only, because its node has it once
  have hdec : c ∉ s.decremented := by
    rw [hs.decremented _ c hmem, hsettled]
    intro hin
    have hnodup : (job.node.commands.take (job.cursor.stateIdx + 1)).Nodup :=
      (hworking ▸ hl.placed.nodup (.working t)).sublist (List.take_sublist _ _)
    rw [htake] at hnodup
    exact List.disjoint_of_nodup_append hnodup hin List.mem_cons_self
  refine ⟨hs.answers, fun i ↦ ?_, fun p c' hc' ↦ ?_, fun p c' hc' ↦ ?_, fun c' hc' ↦ ?_,
    fun i ↦ ?_⟩
  · refine Eq.trans ?_ (hs.response i)
    rw [heap_completed]
    split_ifs with hi
    · rw [hi]
      rfl
    · rfl
  · rw [hholds] at hc'
    refine Eq.trans ?_ (hs.frames p c' hc')
    rw [due_of_goto hthreads]
    split_ifs with hp
    · rw [hp, due, ht, ThreadPc.toCome, ThreadPc.toCome, harr]
      rfl
    · rfl
  · rw [hholds] at hc'
    rw [settled_of_goto hthreads rfl]
    show c' ∈ s.decremented ++ [c] ↔ _
    rw [List.mem_append, List.mem_singleton, hs.decremented p c' hc']
    split_ifs with hp
    · rw [hp, hsettled, ThreadPc.settled, hidx, htake, List.mem_append, List.mem_singleton]
    · exact or_iff_left (hl.ne_of_holds hmem hc' hp)
  · rcases List.mem_append.mp hc' with hc' | hc'
    · exact hs.begun c' hc'
    · exact List.mem_singleton.mp hc' ▸ hbegun
  · have hcount := countP_settle hl.nodup hbegun hdec i
    have hleft := hs.numLeft i
    rw [heap_completed]
    show _ = ((s.begun.countP fun x ↦ x.state = i ∧ x ∉ s.decremented ++ [c] : ℕ) : ℤ)
    split_ifs with hi
    · rw [if_pos hi.symm] at hcount
      rw [← hi]
      show (s.heap i).numLeft - 1 = _
      omega
    · rw [if_neg (Ne.symm hi)] at hcount
      rw [hleft, hcount, Nat.add_zero]

/-- **One step keeps the accounts.** -/
theorem Accounted.step (hs : s.Accounted) (hl : s.Listed) (h : s.Moves a s') : s'.Accounted := by
  cases h with
  | increment _ => exact hs.increment hl _ _ _ _
  | enqueue hc => exact hs.enqueued hc
  | take _ hn => exact hs.taken hl hn
  | read ht _ hnode hidx hqueue =>
    refine hs.goto ?_ ?_ ?_
    · rw [ht, ThreadPc.commands, hnode]
      rfl
    · rw [ht, ThreadPc.toCome, hqueue]
      rfl
    · rw [ht, ThreadPc.settled, hnode, hidx]
      rfl
  | append ht hok harr => exact hs.handed hl ht hok harr
  | count ht harr _ hidx =>
    refine hs.goto ?_ ?_ ?_
    · rw [ht]
      rfl
    · rw [ht, ThreadPc.toCome, ThreadPc.toCome, harr]
      rfl
    · rw [ht, ThreadPc.settled, hidx]
      rfl
  | complete ht harr _ hidx hc => exact hs.completed hl ht harr hidx hc
  | finish ht hend hqueue => exact hs.finished ht hend hqueue
  | getResponse _ => exact hs

end Pipeline

/-! ## Agreement -/

namespace Job.Ok

variable {job : Job} {todo : List (Command × ℕ)} {c : Command}

/-- No more frames are to come for a command that is complete. -/
theorem count_of_notMem_drop (h : job.Ok todo)
    (hc : c ∉ job.node.commands.drop job.cursor.stateIdx) :
    (job.arrived.map Prod.fst ++ job.expected).count c = 0 := by
  rw [h.queue]
  exact count_flatMap_replicate_of_notMem (h.rest ▸ hc)

/-- As many frames are to come for a command as are not counted yet. -/
theorem count_of_mem (h : job.Ok todo) (hnodup : job.node.commands.Nodup) {k : ℕ}
    (hc : (c, k) ∈ todo) : (job.arrived.map Prod.fst ++ job.expected).count c = k := by
  rw [h.queue]
  refine count_flatMap_replicate ?_ hc
  rw [h.rest]
  exact hnodup.sublist (List.drop_sublist _ _)

theorem exists_mem_of_mem_drop (h : job.Ok todo)
    (hc : c ∈ job.node.commands.drop job.cursor.stateIdx) : ∃ k, (c, k + 1) ∈ todo := by
  rw [← h.rest] at hc
  obtain ⟨⟨c, k⟩, hmem, rfl⟩ := List.mem_map.mp hc
  obtain ⟨k, rfl⟩ := Nat.exists_eq_add_one.mpr (h.pos _ hmem)
  exact ⟨k, hmem⟩

end Job.Ok

/-- The node that a thread works on. -/
def ThreadPc.node : ThreadPc → Option RequestNode
  | .reading job | .counting job _ => some job.node
  | _ => none

theorem ThreadPc.Ok.joins {pc : ThreadPc} (h : pc.Ok) {n : RequestNode} (hn : pc.node = some n) :
    n.Joins := by
  rcases pc with _ | job | ⟨job, d⟩ | e
  · cases hn
  · obtain ⟨todo, hok⟩ := h
    exact Option.some.inj hn ▸ hok.joins
  · obtain ⟨todo, c, f, rest, hok, -, -⟩ := h
    exact Option.some.inj hn ▸ hok.joins
  · cases hn

namespace Pipeline

variable {s : Pipeline}

/-- A thread has appended the last frame of a command, and calls `DecrementPending` next. -/
def Completing (s : Pipeline) (c : Command) : Prop :=
  ∃ t s', s.step (.count t) = some s' ∧ s'.decremented = s.decremented ++ [c]

/-- The nodes, the frames and the counters agree. -/
structure Consistent (s : Pipeline) : Prop where
  /-- In the node of a `Server` the request is the concatenation of the commands, in the order of
  the other two sequences. -/
  pending : ∀ v n, s.nodes v = some n → n.Joins
  /-- So it is in the node of a thread, whose counters are counted down with every frame. -/
  working : ∀ t n, (s.threads t).node = some n → n.Joins
  counters : ∀ t job, s.threads t = .reading job →
    job.cursor.numInstructions.drop job.cursor.stateIdx
      = (job.node.commands.drop job.cursor.stateIdx).map fun c ↦
        (c.numInstructions : ℤ) - s.numAppended c
  distinct : s.begun.Nodup
  /-- Every command is in exactly one place, once. -/
  place : ∀ c ∈ s.begun, ∃! p, c ∈ s.holds p
  once : ∀ p, (s.holds p).Nodup
  /-- Every frame was appended to the `ResponseState` of the command it answers. -/
  answers : ∀ e ∈ s.appended, ∃ c f, e = ⟨some (c, f), c.state, f⟩ ∧ c ∈ s.begun
  response : ∀ i, (s.heap i).response
    = ((s.appended.filter fun e ↦ e.target = i).map Appended.bytes).flatten
  /-- No index is out of range. -/
  safe : ∀ t e, s.threads t ≠ .crashed e
  /-- `num_left_` counts the commands that were not counted down, which are those whose frames were
  not all appended, up to the moment between the last frame and `DecrementPending`. -/
  numLeft : ∀ i, (s.heap i).numLeft
    = s.begun.countP fun c ↦ c.state = i ∧ c ∉ s.decremented
  complete : ∀ c ∈ s.decremented, s.numAppended c = c.numInstructions
  completing : ∀ c ∈ s.begun, s.numAppended c = c.numInstructions →
    c ∈ s.decremented ∨ s.Completing c
  /-- `BlockingGetResponse` returns when every frame of every command is there. -/
  returns : ∀ i, (s.step (.getResponse i)).isSome → ∀ c ∈ s.begun, c.state = i →
    s.numAppended c = c.numInstructions

theorem invariant_of_run {as : List PipelineAction}
    (hrun : Run (Guarded (StepOf step) Orderly) {} as s) : s.Local ∧ s.Listed ∧ s.Accounted := by
  refine hrun.invariant (I := fun s ↦ s.Local ∧ s.Listed ∧ s.Accounted)
    ⟨local_init, listed_init, accounted_init⟩ ?_
  rintro s a s' ⟨hlocal, hlisted, haccounted⟩ ⟨hstep, ha⟩
  have hmoves := hlocal.moves hstep ha
  exact ⟨hlocal.step hmoves, hlisted.step hmoves, haccounted.step hlisted hmoves⟩

/-- All frames of a command were appended if it was counted down. -/
theorem Accounted.complete (hs : s.Accounted) (hloc : s.Local) (hl : s.Listed) {c : Command}
    (hc : c ∈ s.decremented) : s.numAppended c = c.numInstructions := by
  obtain ⟨p, hp⟩ := (hl.placed.mem_iff c).mp (hs.begun c hc)
  have hframes := hs.frames p c hp
  have hsettled := (hs.decremented p c hp).mp hc
  suffices hdue : s.due c p = 0 by rwa [hdue, Nat.add_zero] at hframes
  -- what a thread has left behind is not in the rest of its node
  have hdrop : ∀ job : Job, job.node.commands.Nodup →
      c ∈ job.node.commands.take job.cursor.stateIdx →
      c ∉ job.node.commands.drop job.cursor.stateIdx := fun job hnodup htake ↦
    List.disjoint_take_drop hnodup le_rfl htake
  rcases p with _ | v | t | _
  · cases hsettled
  · cases hsettled
  · have hthread := hloc.threads t
    have hnodup := hl.placed.nodup (.working t)
    rw [settled] at hsettled
    rw [holds] at hnodup
    rw [due]
    rcases ht : s.threads t with _ | job | ⟨job, d⟩ | e <;> rw [ht] at hsettled hthread hnodup
    · cases hsettled
    · obtain ⟨todo, hok⟩ := hthread
      exact hok.count_of_notMem_drop (hdrop job hnodup hsettled)
    · obtain ⟨todo, c', f, rest, hok, harr, -⟩ := hthread
      have hcount := hok.count_of_notMem_drop (hdrop job hnodup hsettled)
      rw [harr, List.map_cons, List.cons_append, List.count_cons] at hcount
      rw [ThreadPc.toCome, harr]
      exact (Nat.add_eq_zero_iff.mp hcount).1
    · cases hsettled
  · rfl

/-- A thread that has appended the last frame of a command is about to count it down. -/
theorem Local.completing (hs : s.Local) {t : ℕ × ℕ} {job : Job} {d : Delivery} {c : Command}
    (ht : s.threads t = .counting job d) (hnodup : job.node.commands.Nodup)
    (hc : c ∈ job.node.commands.drop job.cursor.stateIdx)
    (hcount : (ThreadPc.counting job d).toCome.count c = 0) : s.Completing c := by
  obtain ⟨todo, c', f, rest, hok, harr, rfl⟩ := hs.ok_counting ht
  obtain ⟨k, hk⟩ := hok.exists_mem_of_mem_drop hc
  have htotal := hok.count_of_mem hnodup hk
  rw [ThreadPc.toCome, harr, List.tail_cons] at hcount
  rw [harr, List.map_cons, List.cons_append, List.count_cons, hcount] at htotal
  split_ifs at htotal with hhead
  · obtain rfl : c' = c := beq_iff_eq.mp hhead
    obtain ⟨⟨k', todo', rfl⟩, -⟩ := hok.head harr
    have hk' : k' = 0 := by
      have hhead := hok.count_of_mem hnodup List.mem_cons_self
      rw [hok.count_of_mem hnodup hk] at hhead
      omega
    subst hk'
    obtain ⟨cursor, hcounted, -, -⟩ := hok.counted harr
    refine ⟨t, s.completed t { job with cursor := cursor, arrived := rest } c', ?_, rfl⟩
    rw [Pipeline.step, Pipeline.count, ht, Job.delivery]
    simp only [hcounted, harr]
    rfl
  · omega

/-- A command whose frames were all appended was counted down, or is about to be. -/
theorem Accounted.completing (hs : s.Accounted) (hloc : s.Local) (hl : s.Listed) {c : Command}
    (hc : c ∈ s.begun) (hall : s.numAppended c = c.numInstructions) :
    c ∈ s.decremented ∨ s.Completing c := by
  obtain ⟨p, hp⟩ := (hl.placed.mem_iff c).mp hc
  have hframes := hs.frames p c hp
  have hpos := hloc.instructions c hc
  rw [hs.decremented p c hp]
  have hdue : s.due c p = 0 := by omega
  -- until a thread has the command, all its frames are due
  rcases p with _ | v | t | _
  · exact absurd hdue hpos.ne'
  · exact absurd hdue hpos.ne'
  · have hthread := hloc.threads t
    have hnodup := hl.placed.nodup (.working t)
    rw [settled]
    rw [holds] at hp hnodup
    rw [due] at hdue
    rcases ht : s.threads t with _ | job | ⟨job, d⟩ | e <;> rw [ht] at hp hdue hthread hnodup
    · cases hp
    · obtain ⟨todo, hok⟩ := hthread
      rw [ThreadPc.commands, ← List.take_append_drop job.cursor.stateIdx job.node.commands,
        List.mem_append] at hp
      refine hp.imp id fun hdrop ↦ ?_
      obtain ⟨k, hk⟩ := hok.exists_mem_of_mem_drop hdrop
      have hcount := hok.count_of_mem hnodup hk
      rw [ThreadPc.toCome, hcount] at hdue
      cases hdue
    · rw [ThreadPc.commands, ← List.take_append_drop job.cursor.stateIdx job.node.commands,
        List.mem_append] at hp
      exact hp.imp id fun hdrop ↦ hloc.completing ht hnodup hdrop hdue
    · cases hp
  · exact Or.inl hp

/-- The counters of a thread between two turns. -/
theorem Accounted.counters (hs : s.Accounted) (hl : s.Listed) {t : ℕ × ℕ} {job : Job}
    {todo : List (Command × ℕ)} (ht : s.threads t = .reading job) (hok : job.Ok todo) :
    job.cursor.numInstructions.drop job.cursor.stateIdx
      = (job.node.commands.drop job.cursor.stateIdx).map fun c ↦
        (c.numInstructions : ℤ) - s.numAppended c := by
  have hworking : s.holds (.working t) = job.node.commands := by
    rw [holds, ht]
    rfl
  rw [hok.owes.counts, ← hok.rest, List.map_map, List.map_map]
  refine List.map_congr_left fun x hx ↦ ?_
  have hmem : x.1 ∈ s.holds (.working t) := by
    rw [hworking]
    exact List.mem_of_mem_drop (hok.rest ▸ List.mem_map_of_mem hx)
  have hframes := hs.frames _ x.1 hmem
  have hcount := hok.count_of_mem (hworking ▸ hl.placed.nodup (.working t)) hx
  rw [due, ht, ThreadPc.toCome, hcount] at hframes
  simp only [Function.comp_apply]
  omega

/-- `BlockingGetResponse` returns only when no command of the `ResponseState` is pending. -/
theorem Accounted.returns (hs : s.Accounted) (hloc : s.Local) (hl : s.Listed) {i : ℕ}
    (hi : (s.step (.getResponse i)).isSome) {c : Command} (hc : c ∈ s.begun)
    (hstate : c.state = i) : s.numAppended c = c.numInstructions := by
  rw [Pipeline.step, getResponse] at hi
  split_ifs at hi with hleft
  · cases hi
  rw [hs.numLeft, Int.natCast_pos, Nat.pos_iff_ne_zero, not_not, List.countP_eq_zero] at hleft
  apply hs.complete hloc hl
  have hnot := hleft c hc
  rw [decide_eq_true_iff, not_and, not_not] at hnot
  exact hnot hstate

/-- **Commands and pending counts agree**, in every state that the callers and the threads of any
`Server`s can reach. -/
theorem pipeline_consistent {as : List PipelineAction}
    (hrun : Run (Guarded (StepOf step) Orderly) {} as s) : s.Consistent := by
  obtain ⟨hloc, hl, hs⟩ := invariant_of_run hrun
  refine ⟨fun v n hn ↦ (hloc.nodes v n hn).1, fun t n hn ↦ (hloc.threads t).joins hn,
    fun t job ht ↦ ?_, hl.nodup, fun c hc ↦ hl.placed.existsUnique hc, hl.placed.nodup,
    hs.answers, hs.response, fun t e ht ↦ ?_, hs.numLeft, fun c hc ↦ hs.complete hloc hl hc,
    fun c hc hall ↦ hs.completing hloc hl hc hall,
    fun i hi c hc hstate ↦ hs.returns hloc hl hi hc hstate⟩
  · obtain ⟨todo, hok⟩ := hloc.ok_reading ht
    exact hs.counters hl ht hok
  · have hthread := hloc.threads t
    rwa [ht] at hthread

/-- Two `Server`s work for one `ResponseState`. One of its commands is answered in two frames and
counted down, and the only frame of the other was just appended. -/
def sharedRun : List PipelineAction :=
  [.increment 0 [1] 2 7, .increment 1 [2] 1 7, .enqueue ⟨1, 1, [2], 1, 7⟩, .take (1, 0),
    .enqueue ⟨0, 0, [1], 2, 7⟩, .read (1, 0) [Routerlib.getResponse] {}, .take (0, 1),
    .append (1, 0), .read (0, 1) [Routerlib.getResponse, Routerlib.getResponse] {}, .append (0, 1),
    .count (0, 1), .append (0, 1), .count (0, 1), .finish (0, 1)]

theorem pipeline_consistent_shared : ∃ s : Pipeline,
    Run (Guarded (StepOf step) Orderly) {} sharedRun s ∧ s.Consistent ∧
      (s.heap 7).numLeft = 1 ∧ s.numAppended ⟨1, 1, [2], 1, 7⟩ = 1 := by
  obtain ⟨s, hrun, hs⟩ := exists_run_of_execChecked
    (fun s a ↦ of_decide_eq_true (p := Orderly s a))
    (show (execChecked step (fun s a ↦ decide (s.Orderly a)) {} sharedRun).map
      (fun s ↦ ((s.heap 7).numLeft, s.numAppended ⟨1, 1, [2], 1, 7⟩)) = some (1, 1) by decide)
  obtain ⟨hleft, happended⟩ := Prod.mk.injEq _ _ _ _ ▸ hs
  exact ⟨s, hrun, pipeline_consistent hrun, hleft, happended⟩

end Pipeline

end MemcacheRouter.Routerlib
