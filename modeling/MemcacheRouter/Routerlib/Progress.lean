import MemcacheRouter.Foundations.Transition
import MemcacheRouter.Routerlib.ReadLoop

/-!
# The progress of the inner loop

Every turn of the inner loop of `Server::ProcessRequests` continues at the position that
`ParseHeader` returns. A header that is not all there is no danger to the loop: `ParseHeader`
returns 0 for it, but the turn throws before it uses that. A length field is: the end of the frame
is computed modulo `2 ^ 32` and read as an `int`, so a length that is close enough to `2 ^ 32` leads
back to where the frame began, or before it, and one that is close to `2 ^ 31` leads to a negative
position.

A turn that does not abort advances by at least a header exactly if the end of the frame is an
`int`.
-/

open Transition

namespace MemcacheRouter.Routerlib

theorem toInt_of_le {n : ℕ} (h : 2 ^ 31 ≤ n) (hlt : n < 3 * 2 ^ 31) : toInt n = n - 2 ^ 32 := by
  have hsub : ((n : ℤ) - (2 ^ 32 : ℕ)).bmod (2 ^ 32) = n - (2 ^ 32 : ℕ) :=
    Int.bmod_eq_of_le (by omega) (by omega)
  exact (Int.sub_bmod_right _ _).symm.trans (hsub.trans (by simp))

theorem parseHeader_ne_unfinished {response : Bytes} {pos : ℕ} {header : ProtocolHeader} :
    parseHeader response pos header ≠ .error .unfinished := by
  unfold parseHeader
  dsimp only
  split_ifs <;> simp

theorem checkExtras_ne_unfinished {response : Bytes} {pos : ℕ} {header : ProtocolHeader} :
    checkExtras response pos header ≠ .error .unfinished := by
  unfold checkExtras
  split_ifs <;> simp

namespace Cursor

/-- The length field of the header at the position. -/
def bodyLength (c : Cursor) : ℕ :=
  (ProtocolHeader.ofBytes (c.response.drop c.pos.toNat)).totalBodyLength.toNat

/-- The end of the frame at the position is an `int`. -/
def EndFits (c : Cursor) : Prop := c.pos + headerSize + c.bodyLength < 2 ^ 31

instance (c : Cursor) : Decidable c.EndFits := inferInstanceAs (Decidable (_ < _))

theorem more_iff {c : Cursor} : c.more = true ↔ 0 ≤ c.pos ∧ c.pos < c.response.length := by
  rw [more, Bool.and_eq_true, decide_eq_true_iff, decide_eq_true_iff]

/-- Without a whole header the second half of a turn throws. -/
theorem le_length_of_count {c c' : Cursor} {d : Delivery} {completes : Bool}
    (h : c.count d = .ok (completes, c')) : c.pos.toNat + headerSize ≤ c.response.length := by
  obtain ⟨_, hextras, -⟩ := bind_eq_ok.mp h
  unfold checkExtras at hextras
  split_ifs at hextras
  omega

end Cursor

namespace Reader

variable {r s t : Reader}

/-- An iteration of the inner loop that does not abort. -/
def iterate (r : Reader) (_ : Unit) : Option Reader :=
  if r.cursor.more then r.turn.toOption else none

/-! ## One iteration -/

/-- **What an iteration can do.** -/
theorem iterate_cases (h : StepOf iterate r () t) :
    r.cursor.more = true ∧ r.cursor.pos.toNat + headerSize ≤ r.cursor.response.length ∧
      t.cursor.pos = toInt (r.cursor.pos.toNat + headerSize + r.cursor.bodyLength) ∧
      t.cursor.response = r.cursor.response := by
  rw [StepOf, iterate] at h
  split_ifs at h with hmore
  have hturn : r.turn = .ok t := by
    rcases hr : r.turn with e | t'
    · rw [hr] at h
      cases h
    · rw [hr] at h
      exact congrArg _ (Option.some.inj h)
  obtain ⟨d, hd, hturn⟩ := bind_eq_ok.mp hturn
  obtain ⟨⟨completes, cursor⟩, hcount, hturn⟩ := bind_eq_ok.mp hturn
  cases hturn
  have hle := Cursor.le_length_of_count hcount
  obtain ⟨hparse, -, -⟩ := Cursor.deliver_eq_ok hd
  obtain ⟨k, -, -, rfl⟩ := Cursor.count_eq_ok hcount
  rw [parseHeader, if_neg (by omega)] at hparse
  dsimp only at hparse
  split_ifs at hparse with hmagic
  rw [Except.ok.injEq, Prod.mk.injEq] at hparse
  refine ⟨hmore, hle, ?_, rfl⟩
  rw [Cursor.bodyLength, hparse.1]

/-- **An iteration advances by a header exactly if the end of the frame is an `int`.** -/
theorem advances_iff (hlen : r.cursor.response.length ≤ kBufferLen) (h : StepOf iterate r () t) :
    r.cursor.pos + headerSize ≤ t.cursor.pos ↔ r.cursor.EndFits := by
  obtain ⟨hmore, hle, hpos, -⟩ := iterate_cases h
  obtain ⟨hnonneg, hlt⟩ := Cursor.more_iff.mp hmore
  have hbody : r.cursor.bodyLength < 2 ^ 32 := UInt32.toNat_lt _
  rw [kBufferLen] at hlen
  rw [hpos, Cursor.EndFits]
  generalize hbodyLength : r.cursor.bodyLength = n at hbody
  rw [headerSize] at hle ⊢
  rcases Nat.lt_or_ge (r.cursor.pos.toNat + 24 + n) (2 ^ 31) with hfits | hover
  · rw [toInt_eq hfits]
    omega
  · rw [toInt_of_le hover (by omega)]
    omega

/-- The chunk stays the same throughout the inner loop. -/
theorem response_of_run {ls : List Unit} (h : Run (StepOf iterate) r ls s) :
    s.cursor.response = r.cursor.response :=
  h.invariant (I := fun u ↦ u.cursor.response = r.cursor.response) rfl
    fun _ _ _ hu hstep ↦ (iterate_cases hstep).2.2.2.trans hu

/-! ## The loop -/

/-- A turn does not run out of fuel. -/
theorem turn_ne_unfinished : r.turn ≠ .error .unfinished := by
  intro h
  rcases bind_eq_error.mp h with hdeliver | ⟨d, -, hrest⟩
  · rcases bind_eq_error.mp hdeliver with hparse | ⟨_, -, hstate⟩
    · exact parseHeader_ne_unfinished hparse
    · dsimp only at hstate
      split at hstate <;> cases hstate
  · rcases bind_eq_error.mp hrest with hcount | ⟨_, -, hend⟩
    · rcases bind_eq_error.mp hcount with hextras | ⟨_, -, hcounter⟩
      · exact checkExtras_ne_unfinished hextras
      · split at hcounter <;> cases hcounter
    · cases hend

/-- A loop that has used up its fuel has iterated as often as that. -/
theorem exists_run_of_drain {fuel : ℕ} : ∀ {r : Reader}, r.drain fuel = .error .unfinished →
    ∃ ls t, ls.length = fuel ∧ Run (StepOf iterate) r ls t := by
  induction fuel with
  | zero => exact fun {r} _ ↦ ⟨[], r, rfl, Run.nil r⟩
  | succ fuel ih =>
    intro r h
    rw [drain] at h
    split_ifs at h with hmore
    rcases hturn : r.turn with e | r₁
    · rw [hturn] at h
      obtain rfl : e = .unfinished := by simpa [bind, Except.bind] using h
      exact absurd hturn turn_ne_unfinished
    · rw [hturn] at h
      obtain ⟨ls, t, hlen, hrun⟩ := ih h
      have hstep : StepOf iterate r () r₁ := by
        rw [StepOf, iterate, if_pos hmore, hturn]
        rfl
      exact ⟨() :: ls, t, congrArg (· + 1) hlen, Run.cons hstep hrun⟩

/-- The inner loop makes progress: every iteration that does not abort advances by at least a
header, and the loop ends. -/
structure Progresses (r : Reader) : Prop where
  advances : ∀ ls s t, Run (StepOf iterate) r ls s → StepOf iterate s () t →
    s.cursor.pos + headerSize ≤ t.cursor.pos
  ends : r.drain (r.cursor.response.length + 1) ≠ .error .unfinished

end Reader

/-- **The inner loop makes progress on a chunk exactly if the end of every frame that it comes to is
an `int`.** -/
theorem progresses_iff (r : Reader) (chunk : Bytes) (header : ProtocolHeader)
    (hlen : chunk.length ≤ kBufferLen) :
    (r.read chunk header).Progresses ↔
      ∀ ls s t, Run (StepOf Reader.iterate) (r.read chunk header) ls s →
        StepOf Reader.iterate s () t → s.cursor.EndFits := by
  have hiff : ∀ ls s t, Run (StepOf Reader.iterate) (r.read chunk header) ls s →
      StepOf Reader.iterate s () t →
        (s.cursor.pos + headerSize ≤ t.cursor.pos ↔ s.cursor.EndFits) := by
    intro ls s t hrun hstep
    refine Reader.advances_iff ?_ hstep
    rw [Reader.response_of_run hrun]
    exact hlen
  constructor
  · intro h ls s t hrun hstep
    exact (hiff ls s t hrun hstep).mp (h.advances ls s t hrun hstep)
  · intro h
    have hadvances : ∀ ls s t, Run (StepOf Reader.iterate) (r.read chunk header) ls s →
        StepOf Reader.iterate s () t → s.cursor.pos + headerSize ≤ t.cursor.pos :=
      fun ls s t hrun hstep ↦ (hiff ls s t hrun hstep).mpr (h ls s t hrun hstep)
    refine ⟨hadvances, fun hdrain ↦ ?_⟩
    obtain ⟨ls, t, hls, hrun⟩ := Reader.exists_run_of_drain hdrain
    -- what is left of the chunk gets shorter with every iteration
    have hle := hrun.length_add_le (μ := fun u ↦ u.cursor.response.length - u.cursor.pos.toNat)
      fun ms u l v hu hstep ↦ by
        obtain ⟨hmore, -, -, hresponse⟩ := Reader.iterate_cases hstep
        obtain ⟨hnonneg, hlt⟩ := Cursor.more_iff.mp hmore
        have hpos := hadvances ms u v hu hstep
        rw [hresponse]
        rw [headerSize] at hpos
        omega
    omega

/-- A reader that waits for the answer to one GET reads it. -/
theorem progresses_iff_getResponse :
    ((Reader.start [(0, [getResponse])] fun _ ↦ {}).read getResponse {}).Progresses ↔
      ∀ ls s t,
        Run (StepOf Reader.iterate)
            ((Reader.start [(0, [getResponse])] fun _ ↦ {}).read getResponse {}) ls s →
          StepOf Reader.iterate s () t → s.cursor.EndFits :=
  progresses_iff (Reader.start [(0, [getResponse])] fun _ ↦ {}) getResponse {} (by decide)

/-- A header whose length field is `2 ^ 32 - 24`. -/
def standstill : Bytes :=
  [0x81, 0, 0, 0, 0, 0, 0, 0, 255, 255, 255, 232, 0, 0, 0, 0, 0, 0, 0, 0, 0, 0, 0, 0]

/-- **The inner loop stands still** at a header whose frame ends, modulo `2 ^ 32`, where it
began. -/
theorem loop_stands_still :
    ∃ r : Reader, standstill ≠ [] ∧ standstill.length ≤ kBufferLen ∧
      ¬(r.read standstill {}).Progresses := by
  refine ⟨⟨[0], { numInstructions := [2] }, fun _ ↦ {}⟩, by decide, by decide, fun h ↦ ?_⟩
  obtain ⟨t, hstep, hpos⟩ : ∃ t,
      StepOf Reader.iterate
        (Reader.read ⟨[0], { numInstructions := [2] }, fun _ ↦ {}⟩ standstill {}) () t ∧
        t.cursor.pos = 0 :=
    ⟨_, rfl, by decide⟩
  have hadvances := h.advances [] _ t (Run.nil _) hstep
  rw [hpos] at hadvances
  exact absurd hadvances (by decide)

end MemcacheRouter.Routerlib
