import MemcacheRouter.Client.MemClient
import MemcacheRouter.Cmrclient.Calls

/-!
# Counters

`Client::incr` and `Client::decr`, from the call to the counter in memcached and back. The offset is
a signed integer of 32 bits until `IncrKeys` tests its sign and hands memcached an unsigned amount.

There are two places where the sign changes, and at both of them the least integer stays what it is.
In `IncrKeys` this does no harm, because `abs` is followed by a conversion to an unsigned integer.
`decr` calls `incr` with the negated offset, and there it does: a decrement by the least integer
takes away from the counter what it should add. Every other call applies the offset it was given.
-/

open Transition

namespace MemcacheRouter

/-! ## Offsets in 32 bits -/

theorem toNat_toUInt32_of_nonneg {offset : Int32} (h : 0 ≤ offset.toInt) :
    offset.toUInt32.toNat = offset.toInt.natAbs := by
  rw [Int32.toNat_toUInt32_of_le (Int32.le_iff_toInt_le.mpr h), Int32.toNatClampNeg]
  omega

/-- The absolute value wraps, and the conversion makes up for it. -/
theorem toNat_toUInt32_abs (offset : Int32) :
    offset.abs.toUInt32.toNat = offset.toInt.natAbs := by
  have hlt := offset.toBitVec.isLt
  have habs : offset.abs.toUInt32.toNat = offset.toBitVec.abs.toNat := rfl
  have hint : offset.toInt = offset.toBitVec.toInt := rfl
  rw [habs, hint, BitVec.toNat_abs, BitVec.toInt_eq_msb_cond]
  split_ifs <;> omega

/-- The negation of the least integer wraps. -/
theorem zero_sub_minValue : (0 : Int32) - Int32.minValue = Int32.minValue := by decide

theorem toInt_zero_sub {offset : Int32} (h : offset ≠ Int32.minValue) :
    (0 - offset).toInt = -offset.toInt := by
  have hge := offset.le_toInt
  have hlt := offset.toInt_lt
  have hne : offset.toInt ≠ -2 ^ 31 := by
    rw [← Int32.toInt_minValue]
    exact fun heq ↦ h (Int32.toInt_inj.mp heq)
  rw [Int32.toInt_sub, Int32.toInt_zero, Int.zero_sub]
  exact Int.bmod_eq_of_le (by omega) (by omega)

/-- **The four-way branch of `IncrKeys`** with the amounts as they are computed in 32 bits, where
`abs` may wrap. -/
theorem Store.count_eq (s : Store) (kv : KeyValue) : s.count kv =
    if 0 ≤ kv.offset.toInt then
      if kv.defaultCounterVal?.isSome then s.withInitial
      else s.increment kv.key kv.offset.toUInt32.toNat
    else
      if kv.defaultCounterVal?.isSome then s.withInitial
      else s.decrement kv.key kv.offset.abs.toUInt32.toNat := by
  rw [Store.count, toNat_toUInt32_abs]
  split_ifs with hsign
  · rfl
  · rw [toNat_toUInt32_of_nonneg hsign]
  · rfl
  · rfl

/-! ## What a call should do -/

/-- The counter after an increment by a signed offset: it wraps at 64 bits and stops at zero. -/
def afterIncr (c offset : ℤ) : ℤ :=
  if 0 ≤ offset then (c + offset) % 2 ^ 64 else max 0 (c - |offset|)

/-- The counter after a decrement by a signed offset. -/
def afterDecr (c offset : ℤ) : ℤ :=
  if 0 ≤ offset then max 0 (c - offset) else (c + |offset|) % 2 ^ 64

section Directions

variable {c : ℤ} {offset : Int32}

/-- Taking away is adding the negated offset. -/
theorem afterDecr_eq_afterIncr_neg (hc : 0 ≤ c ∧ c < 2 ^ 64) (offset : ℤ) :
    afterDecr c offset = afterIncr c (-offset) := by
  rw [afterDecr, afterIncr]
  rcases lt_trichotomy offset 0 with hneg | rfl | hpos
  · rw [if_neg (by omega), if_pos (by omega), abs_of_neg hneg]
  · rw [if_pos le_rfl, if_pos (by omega)]
    omega
  · rw [if_pos hpos.le, if_neg (by omega), abs_neg, abs_of_pos hpos]

/-- The two directions of the least offset never agree. -/
theorem afterDecr_minValue_ne (hc : 0 ≤ c ∧ c < 2 ^ 64) :
    afterDecr c Int32.minValue.toInt ≠ afterIncr c Int32.minValue.toInt := by
  rw [afterDecr, afterIncr, Int32.toInt_minValue, if_neg (by decide), if_neg (by decide)]
  have habs : |(-2 ^ 31 : ℤ)| = 2 ^ 31 := by decide
  rw [habs]
  omega

/-- **Negating the offset in 32 bits** turns one direction into the other exactly if it does not
wrap. -/
theorem afterDecr_eq_iff (hc : 0 ≤ c ∧ c < 2 ^ 64) :
    afterDecr c offset.toInt = afterIncr c (0 - offset).toInt ↔ offset ≠ Int32.minValue := by
  constructor
  · rintro h rfl
    rw [zero_sub_minValue] at h
    exact afterDecr_minValue_ne hc h
  · intro h
    rw [toInt_zero_sub h, afterDecr_eq_afterIncr_neg hc]

end Directions

/-- Without a default value `IncrKeys` updates the counter by the offset. -/
theorem Store.exists_count_eq_updateCounter (s : Store) (kv : KeyValue)
    (hdefault : kv.defaultCounterVal? = none) : ∃ f : ℕ → ℕ, s.count kv = s.updateCounter kv.key f ∧
      ∀ v < 2 ^ 64, f v < 2 ^ 64 ∧ (f v : ℤ) = afterIncr v kv.offset.toInt := by
  rw [Store.count_eq, hdefault]
  by_cases hsign : 0 ≤ kv.offset.toInt
  · refine ⟨fun c ↦ (c + kv.offset.toUInt32.toNat) % 2 ^ 64, if_pos hsign, fun v _ ↦ ?_⟩
    rw [toNat_toUInt32_of_nonneg hsign, afterIncr, if_pos hsign]
    dsimp only
    omega
  · refine ⟨fun c ↦ c - kv.offset.abs.toUInt32.toNat, if_neg hsign, fun v hv ↦ ?_⟩
    rw [toNat_toUInt32_abs, afterIncr, if_neg hsign, abs_of_neg (not_le.mp hsign)]
    dsimp only
    omega

/-! ## Calls and their answers -/

/-- The end of `Client::incr`, where it reads the response. -/
def Client.incrReturn (response : Instruction) : Except Fault ℕ :=
  match response.incrKeys with
  | [] => .error .checkFailed
  | kv :: _ => .ok (if kv.returnCode = 16 then 0 else kv.counterVal)

/-- A call that has taken the client from `c` to `c'` is answered: it has sent an instruction, a
worker has run `ProcessPackets` on it and has sent a packet back to where it came from, and the call
returns `n`. -/
def Answered (lib : Libmemcached) (frameIds : List Bytes) (w : Stores) (c c' : Client)
    (w' : Stores) (n : ℕ) : Prop :=
  ∃ i response, c' = c.request i ∧
    processPackets lib w [⟨frameIds, i⟩] = .ok (w', [⟨frameIds, response⟩]) ∧
    Client.incrReturn response = .ok n

/-- What `Client::incr` puts into its instruction. -/
def incrMessage (key : Bytes) (offset : Int32) : KeyValue :=
  { key? := some key, offset? := some offset }

section Answers

variable {lib : Libmemcached} {frameIds : List Bytes} {w w' : Stores} {c c' : Client} {n v : ℕ}
  {key : Bytes} {offset : Int32}

theorem Client.request_injective (c : Client) : Function.Injective c.request := by
  intro i j h
  have hsent : c.reqSent ++ [i] = c.reqSent ++ [j] := congrArg Client.reqSent h
  exact List.singleton_inj.mp (List.append_cancel_left hsent)

theorem Client.incr_eq : c.incr key offset = c.request { incrKeys := [incrMessage key offset] } :=
  rfl

/-- A worker that has popped one packet with one counter. -/
theorem processPackets_incr (kv : KeyValue) :
    processPackets lib w [⟨frameIds, { incrKeys := [kv] }⟩] =
      .ok ((incrKey lib w kv).1, [⟨frameIds, { incrKeys := [(incrKey lib w kv).2] }⟩]) := rfl

/-- **The answer to `Client::incr`.** There always is one. -/
theorem answered_incr_iff : Answered lib frameIds w c (c.incr key offset) w' n ↔
    w' = (incrKey lib w (incrMessage key offset)).1 ∧
      Client.incrReturn { incrKeys := [(incrKey lib w (incrMessage key offset)).2] } = .ok n := by
  constructor
  · rintro ⟨i, response, hsent, hrun, hreturn⟩
    obtain rfl := c.request_injective (Client.incr_eq.symm.trans hsent)
    rw [processPackets_incr] at hrun
    cases hrun
    exact ⟨rfl, hreturn⟩
  · rintro ⟨rfl, hreturn⟩
    exact ⟨_, _, Client.incr_eq, processPackets_incr _, hreturn⟩

theorem exists_answered_incr (lib : Libmemcached) (frameIds : List Bytes) (w : Stores) (c : Client)
    (key : Bytes) (offset : Int32) : ∃ w' n, Answered lib frameIds w c (c.incr key offset) w' n :=
  ⟨_, _, answered_incr_iff.mpr ⟨rfl, rfl⟩⟩

/-- A call leaves the cache and the other counters as they are. -/
theorem Answered.incr_of_ne (h : Answered lib frameIds w c (c.incr key offset) w' n) :
    w'.cache = w.cache ∧ ∀ j ≠ key, w'.memc.counter j = w.memc.counter j := by
  obtain ⟨rfl, -⟩ := answered_incr_iff.mp h
  exact ⟨rfl, fun j hj ↦
    (w.memc.writesAt_count (incrMessage key offset)).counter_of_ne hj⟩

/-- **A counter that exists** takes the value that the call returns. -/
theorem Answered.incr_of_counter (hv : w.memc.counter key = some v)
    (h : Answered lib frameIds w c (c.incr key offset) w' n) :
    w'.memc.counter key = some n ∧ (n : ℤ) = afterIncr v offset.toInt := by
  obtain ⟨rfl, hreturn⟩ := answered_incr_iff.mp h
  obtain ⟨f, hcount, hf⟩ := w.memc.exists_count_eq_updateCounter (incrMessage key offset) rfl
  obtain ⟨hlt, hvalue⟩ := hf v (Store.counter_lt hv)
  obtain ⟨s', hupdate, hs'⟩ :=
    Store.updateCounter_of_counter (k := (incrMessage key offset).key) hv hlt
  rw [incrKey, hcount, hupdate] at hreturn ⊢
  obtain rfl : f v = n := Except.ok.inj hreturn
  exact ⟨hs', hvalue⟩

/-! ## The offset of a call -/

/-- The call is answered, and both the counter at `key` and what the call returns are `value`. -/
def LeavesAndReturns (lib : Libmemcached) (frameIds : List Bytes) (w : Stores) (c c' : Client)
    (key : Bytes) (value : ℤ) : Prop :=
  ∃ w' n, Answered lib frameIds w c c' w' n ∧ w'.memc.counter key = some n ∧ (n : ℤ) = value

/-- Both calls apply the offset to a counter of value `v` and return the new value. -/
structure AppliesOffset (lib : Libmemcached) (frameIds : List Bytes) (w : Stores) (c : Client)
    (key : Bytes) (offset : Int32) (v : ℕ) : Prop where
  incr : LeavesAndReturns lib frameIds w c (c.incr key offset) key (afterIncr v offset.toInt)
  decr : LeavesAndReturns lib frameIds w c (c.decr key offset) key (afterDecr v offset.toInt)

theorem leavesAndReturns_incr_iff (hv : w.memc.counter key = some v) {value : ℤ} :
    LeavesAndReturns lib frameIds w c (c.incr key offset) key value ↔
      value = afterIncr v offset.toInt := by
  constructor
  · rintro ⟨w', n, hans, -, rfl⟩
    exact (hans.incr_of_counter hv).2
  · rintro rfl
    obtain ⟨w', n, hans⟩ := exists_answered_incr lib frameIds w c key offset
    exact ⟨w', n, hans, hans.incr_of_counter hv⟩

/-- A decrement does what it should exactly if its offset can be negated. -/
theorem leavesAndReturns_decr_iff (hv : w.memc.counter key = some v) :
    LeavesAndReturns lib frameIds w c (c.decr key offset) key (afterDecr v offset.toInt) ↔
      offset ≠ Int32.minValue := by
  have hlt := Store.counter_lt hv
  rw [Client.decr, leavesAndReturns_incr_iff hv]
  exact afterDecr_eq_iff (by omega)

/-- **Calls apply the offset they are given**, whatever the counter, exactly if the offset is not
the least integer. An increment applies that one too. -/
theorem appliesOffset_iff (lib : Libmemcached) (frameIds : List Bytes) (w : Stores) (c : Client)
    (key : Bytes) (offset : Int32) (v : ℕ) (hv : w.memc.counter key = some v) :
    AppliesOffset lib frameIds w c key offset v ↔ offset ≠ Int32.minValue := by
  constructor
  · intro h
    exact (leavesAndReturns_decr_iff hv).mp h.decr
  · intro h
    exact ⟨(leavesAndReturns_incr_iff hv).mpr rfl, (leavesAndReturns_decr_iff hv).mpr h⟩

/-- Memcached with one counter, of the value that is stored. -/
def oneCounter (key value : Bytes) : Stores :=
  { cache := none, memc := ({} : Store).write key value flagInteger none }

theorem appliesOffset_iff_five : (oneCounter [107] [49]).memc.counter [107] = some 1 ∧
    AppliesOffset .inOrder [[1]] (oneCounter [107] [49]) {} [107] 5 1 := by
  have hv : (oneCounter [107] [49]).memc.counter [107] = some 1 := by decide
  exact ⟨hv, (appliesOffset_iff .inOrder [[1]] (oneCounter [107] [49]) {} [107] 5 1 hv).mpr
    (by decide)⟩

/-- **A decrement by the least integer** empties a counter of value 5, to which it should add. -/
theorem decr_minValue_empties : (oneCounter [107] [53]).memc.counter [107] = some 5 ∧
    afterDecr 5 Int32.minValue.toInt = 2147483653 ∧
    LeavesAndReturns .inOrder [[1]] (oneCounter [107] [53]) {}
      (({} : Client).decr [107] Int32.minValue) [107] 0 ∧
    ¬AppliesOffset .inOrder [[1]] (oneCounter [107] [53]) {} [107] Int32.minValue 5 := by
  have hv : (oneCounter [107] [53]).memc.counter [107] = some 5 := by decide
  refine ⟨hv, by decide, ?_, ?_⟩
  · rw [Client.decr, leavesAndReturns_incr_iff hv]
    decide
  · intro h
    exact (leavesAndReturns_decr_iff hv).mp h.decr rfl

end Answers

/-! ## Calls of many clients -/

/-- A counter call of any client, answered by any worker. -/
inductive CountStep (lib : Libmemcached) (w : Stores) : ClientCall → Stores → Prop
  | incr {frameIds : List Bytes} {c : Client} {key : Bytes} {offset : Int32} {w' : Stores} {n : ℕ}
      (h : Answered lib frameIds w c (c.incr key offset) w' n) :
      CountStep lib w (.incr key offset) w'
  | decr {frameIds : List Bytes} {c : Client} {key : Bytes} {offset : Int32} {w' : Stores} {n : ℕ}
      (h : Answered lib frameIds w c (c.decr key offset) w' n) :
      CountStep lib w (.decr key offset) w'

/-- What a call should do to the counter at `key`. -/
def applyCall (key : Bytes) (x : ℤ) : ClientCall → ℤ
  | .incr k offset => if k = key then afterIncr x offset.toInt else x
  | .decr k offset => if k = key then afterDecr x offset.toInt else x
  | _ => x

/-- The offset of a decrement can be negated. -/
def Negatable : ClientCall → Prop
  | .decr _ offset => offset ≠ Int32.minValue
  | _ => True

section Runs

variable {lib : Libmemcached} {w w' : Stores} {key : Bytes} {v : ℕ} {call : ClientCall}
  {calls : List ClientCall}

/-- One call. -/
theorem CountStep.counter (h : CountStep lib w call w') (hcall : Negatable call)
    (hv : w.memc.counter key = some v) :
    ∃ n : ℕ, w'.memc.counter key = some n ∧ (n : ℤ) = applyCall key v call := by
  have hlt := Store.counter_lt hv
  -- A call at another key changes nothing here.
  have hother : ∀ {frameIds c k offset n}, Answered lib frameIds w c (c.incr k offset) w' n →
      k ≠ key → ∃ n : ℕ, w'.memc.counter key = some n ∧ (n : ℤ) = v := by
    intro frameIds c k offset n hans hne
    exact ⟨v, (hans.incr_of_ne.2 key hne.symm).trans hv, rfl⟩
  rcases h with @⟨_, _, k, offset, _, n, hans⟩ | @⟨_, _, k, offset, _, n, hans⟩
  · rw [applyCall]
    split_ifs with hk
    · subst hk
      exact ⟨n, hans.incr_of_counter hv⟩
    · exact hother hans hk
  · rw [applyCall]
    split_ifs with hk
    · subst hk
      rw [(afterDecr_eq_iff (by omega)).mpr hcall]
      exact ⟨n, hans.incr_of_counter hv⟩
    · exact hother hans hk

/-- **No update is lost.** After the calls of any number of clients, in whatever order the workers
took them, a counter has the value that the calls on it give it one after the other. -/
theorem counter_of_run (hrun : Run (Guarded (CountStep lib) fun _ call ↦ Negatable call) w calls w')
    (hv : w.memc.counter key = some v) :
    ∃ n : ℕ, w'.memc.counter key = some n ∧ (n : ℤ) = calls.foldl (applyCall key) v := by
  induction hrun with
  | nil => exact ⟨v, hv, rfl⟩
  | snoc _ hstep ih =>
    obtain ⟨m, hm, hvalue⟩ := ih
    obtain ⟨n, hn, hcall⟩ := hstep.1.counter hstep.2 hm
    refine ⟨n, hn, ?_⟩
    rw [List.foldl_append, ← hvalue]
    exact hcall

end Runs

end MemcacheRouter
