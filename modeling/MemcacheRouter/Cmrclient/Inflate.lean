import Mathlib.Data.List.Range
import MemcacheRouter.Routerlib.Protocol

/-!
# Decompression

`Client::DecompressInternal`. `inflate` is called with a new buffer of 64 KiB until it returns
something else than `Z_OK`; then the output is resized to what was produced in all, and the buffers
are copied into it one after the other. The number of bytes to copy from a buffer is derived again
from what is left of the total, and the place to copy them to is addressed with `at`, also when
there is nothing to copy.

zlib itself is a parameter. Its documentation says that a call that is given all the input fills the
buffer and returns `Z_OK`, or comes to the end of the stream and returns `Z_STREAM_END`. It may have
nothing left to write in that last call, and then `at` throws.
-/

namespace MemcacheRouter

open Routerlib (toInt)

/-- What the functions of zlib return. -/
inductive ZStatus where
  | ok | streamEnd | needDict | streamError | dataError | memError | bufError | versionError
  deriving DecidableEq, Repr

/-- A call of `inflate`: what it returned, and what it wrote to the buffer. -/
structure InflateCall where
  ret : ZStatus
  out : Bytes
  deriving DecidableEq, Repr

/-- How `DecompressInternal` can fail to return. -/
inductive DecompressError where
  /-- `resize` was asked for more than a string can hold and threw. -/
  | lengthError
  /-- `at` was asked for a position past the end and threw. -/
  | outOfRange
  /-- A `CHECK` failed and the process aborted. -/
  | checkFailed
  /-- The loop did not end within the calls it was given. -/
  | unfinished
  deriving DecidableEq, Repr

namespace Client

/-- `kBufferLen` of `cmrclient.cpp`. -/
def kBufferLen : ℕ := 64 * 2 ^ 10

end Client

/-- zlib, and the memory it is given: what `inflateInit` returns, what `inflate` does in its `i`-th
call when all of the input was there from the first, and what the `i`-th buffer held before. -/
structure Zlib where
  inflateInit : ZStatus
  inflate : Bytes → ℕ → InflateCall
  buffer : ℕ → Bytes
  length_buffer : ∀ i, (buffer i).length = Client.kBufferLen

namespace Zlib

variable (z : Zlib) (input d : Bytes)

/-- The `i`-th buffer after the `i`-th call. -/
def filled (i : ℕ) : Bytes :=
  (z.inflate input i).out ++ (z.buffer i).drop (z.inflate input i).out.length

/-- The buffers after so many calls. -/
def outputData (n : ℕ) : List Bytes := (List.range n).map (z.filled input)

/-- What so many calls have produced. -/
def produced (n : ℕ) : Bytes := (List.range n).flatMap fun i ↦ (z.inflate input i).out

/-- The loop ends with the `n`-th call. -/
structure EndsAt (n : ℕ) : Prop where
  before : ∀ i < n, (z.inflate input i).ret = .ok
  last : (z.inflate input n).ret ≠ .ok

/-- The input is the compressed form of `d`: as long as it is not at the end of the stream, a call
writes the next 64 KiB of `d`, and the call that comes to the end writes what is left. -/
structure Inflates : Prop where
  init : z.inflateInit = .ok
  ret : ∀ i, (∀ j < i, (z.inflate input j).ret = .ok) →
    (z.inflate input i).ret = .ok ∨ (z.inflate input i).ret = .streamEnd
  ok : ∀ i, (∀ j ≤ i, (z.inflate input j).ret = .ok) →
    (z.inflate input i).out = (d.drop (i * Client.kBufferLen)).take Client.kBufferLen ∧
      (z.inflate input i).out.length = Client.kBufferLen
  streamEnd : ∀ i, (∀ j < i, (z.inflate input j).ret = .ok) →
    (z.inflate input i).ret = .streamEnd →
      (z.inflate input i).out = d.drop (i * Client.kBufferLen) ∧
        (z.inflate input i).out.length ≤ Client.kBufferLen

end Zlib

namespace Client

variable (z : Zlib) (input : Bytes)

/-- The loop over the calls of `inflate`, from the `i`-th on: what the last one returned, the
buffers, and `total_out`. -/
def inflateLoop : (fuel i : ℕ) → (outputData : List Bytes) → (totalOut : ℕ) →
    Except DecompressError (ZStatus × List Bytes × ℕ)
  | 0, _, _, _ => .error .unfinished
  | fuel + 1, i, outputData, totalOut =>
    let outputData := outputData ++ [z.filled input i]
    let totalOut := totalOut + (z.inflate input i).out.length
    if (z.inflate input i).ret = .ok then inflateLoop fuel (i + 1) outputData totalOut
    else .ok ((z.inflate input i).ret, outputData, totalOut)

/-- `memcpy` into a string. -/
def copyAt (output : Bytes) (pos : ℕ) (s : Bytes) : Bytes :=
  output.take pos ++ s ++ output.drop (pos + s.length)

/-- The loop that copies the buffers: the output, and what is left of `total_out`. -/
def copyLoop : List Bytes → (output : Bytes) → (totalOut pos : ℕ) →
    Except DecompressError (Bytes × ℕ)
  | [], output, totalOut, _ => .ok (output, totalOut)
  | s :: outputData, output, totalOut, pos =>
    let size := min totalOut kBufferLen
    if pos < output.length then
      copyLoop outputData (copyAt output pos (s.take size)) (totalOut - size) (pos + size)
    else .error .outOfRange

/-- The output is put together. A negative size is converted to a huge one. -/
def assemble (outputData : List Bytes) (totalOut : ℤ) : Except DecompressError Bytes :=
  if totalOut < 0 then .error .lengthError
  else do
    let (output, left) ←
      copyLoop outputData (List.replicate totalOut.toNat 0) totalOut.toNat 0
    if left = 0 then return output else .error .checkFailed

/-- `Client::DecompressInternal`, for so many calls of `inflate`: what it returns, and `output`. -/
def decompressInternal (fuel : ℕ) : Except DecompressError (Bool × Bytes) :=
  if z.inflateInit ≠ .ok then .ok (false, [])
  else do
    let (ret, outputData, totalOut) ← inflateLoop z input fuel 0 [] 0
    if ret = .streamEnd then
      let output ← assemble outputData (toInt totalOut)
      return (true, output)
    else return (false, [])

/-- `DecompressInternal` comes to an end, and this is how. -/
def DecompressReturns (r : Except DecompressError (Bool × Bytes)) : Prop :=
  ∃ n, ∀ fuel, n ≤ fuel → decompressInternal z input fuel = r

end Client

/-! ## The calls -/

namespace Zlib

variable {z : Zlib} {input d : Bytes} {n : ℕ}

theorem outputData_succ (n : ℕ) :
    z.outputData input (n + 1) = z.outputData input n ++ [z.filled input n] := by
  rw [outputData, outputData, List.range_succ, List.map_append, List.map_singleton]

theorem produced_succ (n : ℕ) :
    z.produced input (n + 1) = z.produced input n ++ (z.inflate input n).out := by
  rw [produced, produced, List.range_succ, List.flatMap_append, List.flatMap_singleton]

/-- A buffer begins with what the call has written, and is as long as it was. -/
theorem take_filled (i : ℕ) :
    (z.filled input i).take (z.inflate input i).out.length = (z.inflate input i).out :=
  List.take_left

/-- A buffer that was filled completely. -/
theorem filled_eq_out {i : ℕ} (h : (z.inflate input i).out.length = Client.kBufferLen) :
    z.filled input i = (z.inflate input i).out := by
  rw [filled, h, List.drop_eq_nil_of_le (z.length_buffer i).le, List.append_nil]

/-- There is at most one call that ends the loop. -/
theorem EndsAt.unique {m : ℕ} (h : z.EndsAt input n) (h' : z.EndsAt input m) : n = m := by
  rcases Nat.lt_trichotomy n m with hlt | heq | hgt
  · exact absurd (h'.before n hlt) h.last
  · exact heq
  · exact absurd (h.before m hgt) h'.last

namespace Inflates

variable (h : z.Inflates input d)

include h

/-- As long as the calls return `Z_OK` they produce the data piece by piece. -/
theorem produced_eq (hok : ∀ i < n, (z.inflate input i).ret = .ok) :
    z.produced input n = d.take (n * Client.kBufferLen) ∧
      (z.produced input n).length = n * Client.kBufferLen := by
  induction n with
  | zero => simp [produced]
  | succ n ih =>
    obtain ⟨htake, hlen⟩ := ih fun i hi ↦ hok i (hi.trans n.lt_succ_self)
    obtain ⟨hout, hfull⟩ := h.ok n fun j hj ↦ hok j (Nat.lt_succ_of_le hj)
    constructor
    · rw [produced_succ, htake, hout, Nat.succ_mul, List.take_add]
    · rw [produced_succ, List.length_append, hlen, hfull, Nat.succ_mul]

/-- The loop ends. -/
theorem exists_endsAt : ∃ n, z.EndsAt input n := by
  by_contra hnone
  have hok : ∀ i, (z.inflate input i).ret = .ok := by
    intro i
    induction i using Nat.strong_induction_on with
    | _ i ih =>
      by_contra hlast
      exact hnone ⟨i, ih, hlast⟩
  -- more calls than there are bytes
  obtain ⟨htake, hlen⟩ := h.produced_eq (n := d.length + 1) fun i _ ↦ hok i
  have hle : (z.produced input (d.length + 1)).length ≤ d.length := by
    rw [htake]
    exact List.length_take_le' _ _
  rw [hlen, Client.kBufferLen] at hle
  omega

/-- The last call produces the rest of the data. -/
theorem produced_of_endsAt (hn : z.EndsAt input n) :
    (z.inflate input n).ret = .streamEnd ∧ z.produced input (n + 1) = d ∧
      (z.inflate input n).out.length ≤ Client.kBufferLen ∧
      d.length = n * Client.kBufferLen + (z.inflate input n).out.length := by
  have hend := (h.ret n hn.before).resolve_left hn.last
  obtain ⟨hout, hle⟩ := h.streamEnd n hn.before hend
  obtain ⟨htake, hlen⟩ := h.produced_eq hn.before
  have hd : z.produced input (n + 1) = d := by
    rw [produced_succ, htake, hout, List.take_append_drop]
  refine ⟨hend, hd, hle, ?_⟩
  rw [← hlen, ← List.length_append, ← produced_succ, hd]

/-- The buffers before the last one are full, and hold what was produced so far. -/
theorem flatten_outputData (hok : ∀ i < n, (z.inflate input i).ret = .ok) :
    (∀ s ∈ z.outputData input n, s.length = Client.kBufferLen) ∧
      (z.outputData input n).flatten = z.produced input n := by
  have hfull : ∀ i < n, z.filled input i = (z.inflate input i).out := fun i hi ↦
    filled_eq_out (h.ok i fun j hj ↦ hok j (hj.trans_lt hi)).2
  constructor
  · intro s hs
    obtain ⟨i, hi, rfl⟩ := List.mem_map.mp hs
    rw [List.mem_range] at hi
    rw [hfull i hi]
    exact (h.ok i fun j hj ↦ hok j (hj.trans_lt hi)).2
  · rw [outputData, produced, List.flatMap]
    refine congrArg List.flatten (List.map_congr_left fun i hi ↦ hfull i ?_)
    exact List.mem_range.mp hi

end Inflates

end Zlib

namespace Client

variable {z : Zlib} {input d : Bytes} {n : ℕ}

theorem inflateLoop_eq (hn : z.EndsAt input n) : ∀ (fuel i : ℕ), i ≤ n → n < i + fuel →
    inflateLoop z input fuel i (z.outputData input i) (z.produced input i).length =
      .ok ((z.inflate input n).ret, z.outputData input (n + 1),
        (z.produced input (n + 1)).length) := by
  intro fuel
  induction fuel with
  | zero =>
    intro i hi hlt
    omega
  | succ fuel ih =>
    intro i hi hlt
    rw [inflateLoop, ← Zlib.outputData_succ, ← List.length_append, ← Zlib.produced_succ]
    rcases Nat.eq_or_lt_of_le hi with rfl | hi
    · exact if_neg hn.last
    · rw [if_pos (hn.before i hi)]
      exact ih (i + 1) hi (by omega)

/-- **The loop ends with the call that does not return `Z_OK`.** -/
theorem inflateLoop_of_endsAt (hn : z.EndsAt input n) {fuel : ℕ} (hfuel : n < fuel) :
    inflateLoop z input fuel 0 [] 0 =
      .ok ((z.inflate input n).ret, z.outputData input (n + 1),
        (z.produced input (n + 1)).length) :=
  inflateLoop_eq hn fuel 0 (Nat.zero_le n) (by omega)

/-! ## The copies -/

theorem copyAt_append {done output : Bytes} {s : Bytes} :
    copyAt (done ++ output) done.length s = done ++ s ++ output.drop s.length := by
  rw [copyAt, List.take_left, List.drop_append]
  simp

theorem length_flatten_of_full {full : List Bytes} (hfull : ∀ s ∈ full, s.length = kBufferLen) :
    full.flatten.length = full.length * kBufferLen := by
  induction full with
  | nil => rfl
  | cons s full ih =>
    obtain ⟨hs, hfull⟩ := List.forall_mem_cons.mp hfull
    rw [List.flatten_cons, List.length_append, hs, ih hfull, List.length_cons, Nat.succ_mul,
      Nat.add_comm]

/-- The buffers that are full are copied completely. -/
theorem copyLoop_full (m : ℕ) (later : List Bytes) : ∀ (full : List Bytes) (done : Bytes),
    (∀ s ∈ full, s.length = kBufferLen) →
      copyLoop (full ++ later) (done ++ List.replicate (full.length * kBufferLen + m) 0)
          (full.length * kBufferLen + m) done.length =
        copyLoop later (done ++ full.flatten ++ List.replicate m 0) m
          (done.length + full.length * kBufferLen) := by
  intro full
  induction full with
  | nil => simp
  | cons s full ih =>
    intro done hfull
    obtain ⟨hs, hfull⟩ := List.forall_mem_cons.mp hfull
    have hpos : 0 < kBufferLen := by decide
    have hsize : (s :: full).length * kBufferLen + m
        = kBufferLen + (full.length * kBufferLen + m) := by
      rw [List.length_cons, Nat.succ_mul]
      omega
    have hdone : (done ++ s).length = done.length + kBufferLen := by rw [List.length_append, hs]
    rw [hsize, List.cons_append, copyLoop, Nat.min_eq_right (Nat.le_add_right _ _), if_pos,
      Nat.add_sub_cancel_left, List.take_of_length_le hs.le, copyAt_append, hs,
      List.drop_replicate, Nat.add_sub_cancel_left, ← hdone, ih (done ++ s) hfull, hdone]
    · rw [List.flatten_cons, List.append_assoc done s, List.length_cons, Nat.succ_mul]
      congr 1
      omega
    · rw [List.length_append, List.length_replicate]
      omega

/-- The last buffer: there has to be something to copy. -/
theorem copyLoop_last {done s : Bytes} {m : ℕ} (hm : m ≤ kBufferLen) (hs : m ≤ s.length) :
    copyLoop [s] (done ++ List.replicate m 0) m done.length =
      if m = 0 then .error .outOfRange else .ok (done ++ s.take m, 0) := by
  have htake : (s.take m).length = m := List.length_take_of_le hs
  rw [copyLoop, Nat.min_eq_left hm, List.length_append, List.length_replicate]
  split_ifs with hlt hzero hzero
  · omega
  · rw [copyLoop, copyAt_append, htake, List.drop_replicate, Nat.sub_self, List.replicate_zero,
      List.append_nil]
  · rfl
  · omega

/-- **What is assembled from full buffers and a last one.** -/
theorem assemble_eq {full : List Bytes} {s : Bytes} {m : ℕ}
    (hfull : ∀ s ∈ full, s.length = kBufferLen) (hm : m ≤ kBufferLen) (hs : m ≤ s.length)
    (hlt : full.length * kBufferLen + m < 2 ^ 31) :
    assemble (full ++ [s]) (toInt (full.length * kBufferLen + m)) =
      if m = 0 then .error .outOfRange else .ok (full.flatten ++ s.take m) := by
  have hcopy := copyLoop_full m [s] full [] hfull
  have hlen := length_flatten_of_full hfull
  rw [List.nil_append, List.nil_append, List.length_nil, Nat.zero_add, ← hlen,
    copyLoop_last hm hs] at hcopy
  rw [Routerlib.toInt_eq hlt, assemble, if_neg (by omega), Int.toNat_natCast, ← hlen, hcopy]
  split_ifs <;> rfl

/-! ## What is returned -/

section Returns

variable {n : ℕ} {d : Bytes}

/-- An input on which `inflate` does not come to the end of a stream is rejected. -/
theorem decompressReturns_of_ret_ne (hn : z.EndsAt input n)
    (hret : (z.inflate input n).ret ≠ .streamEnd) :
    DecompressReturns z input (.ok (false, [])) := by
  refine ⟨n + 1, fun fuel hfuel ↦ ?_⟩
  rw [decompressInternal]
  split_ifs with hinit
  · rfl
  · refine bind_eq_ok.mpr ⟨_, inflateLoop_of_endsAt hn hfuel, ?_⟩
    exact if_neg hret

/-- **What is returned for the compressed form of some data.** -/
theorem decompressReturns_of_inflates (h : z.Inflates input d) (hd : d.length < 2 ^ 31)
    (hn : z.EndsAt input n) :
    DecompressReturns z input
      (if (z.inflate input n).out = [] then .error .outOfRange else .ok (true, d)) := by
  obtain ⟨hret, hproduced, hle, hlen⟩ := h.produced_of_endsAt hn
  obtain ⟨hfull, hflatten⟩ := h.flatten_outputData hn.before
  have hcount : (z.outputData input n).length = n := by
    rw [Zlib.outputData, List.length_map, List.length_range]
  have hassemble := assemble_eq (s := z.filled input n) hfull hle
    (by rw [Zlib.filled, List.length_append]; omega) (by rw [hcount, ← hlen]; exact hd)
  rw [hcount, ← hlen, Zlib.take_filled, hflatten, ← Zlib.produced_succ, hproduced,
    ← Zlib.outputData_succ] at hassemble
  refine ⟨n + 1, fun fuel hfuel ↦ ?_⟩
  have hinit : ¬z.inflateInit ≠ .ok := fun hne ↦ hne h.init
  rw [decompressInternal, if_neg hinit, inflateLoop_of_endsAt hn hfuel, hproduced]
  refine (if_pos hret).trans ?_
  rw [hassemble]
  simp only [List.length_eq_zero_iff]
  split_ifs <;> rfl

theorem DecompressReturns.unique {r r' : Except DecompressError (Bool × Bytes)}
    (h : DecompressReturns z input r) (h' : DecompressReturns z input r') : r = r' := by
  obtain ⟨n, hn⟩ := h
  obtain ⟨n', hn'⟩ := h'
  exact (hn _ (le_max_left n n')).symm.trans (hn' _ (le_max_right n n'))

/-- Copying does not change the size of the output. -/
theorem length_of_copyLoop : ∀ {outputData : List Bytes} {output output' : Bytes}
    {totalOut pos left : ℕ}, copyLoop outputData output totalOut pos = .ok (output', left) →
      pos + totalOut = output.length → output'.length = output.length := by
  intro outputData
  induction outputData with
  | nil =>
    intro output output' totalOut pos left h _
    cases h
    rfl
  | cons s outputData ih =>
    intro output output' totalOut pos left h hlen
    rw [copyLoop] at h
    split_ifs at h with hpos
    have htake : (s.take (min totalOut kBufferLen)).length ≤ totalOut :=
      (List.length_take_le _ s).trans (Nat.min_le_left _ _)
    have hcopy : (copyAt output pos (s.take (min totalOut kBufferLen))).length = output.length := by
      rw [copyAt, List.length_append, List.length_append, List.length_take, List.length_drop]
      omega
    rw [ih h (by omega), hcopy]

/-- What is returned is not longer than an `int` can tell. -/
theorem length_lt_of_decompressReturns {s : Bytes}
    (h : DecompressReturns z input (.ok (true, s))) : s.length < 2 ^ 31 := by
  obtain ⟨n, hn⟩ := h
  have hreturn := hn n le_rfl
  rw [decompressInternal] at hreturn
  split_ifs at hreturn with hinit
  · cases hreturn
  · obtain ⟨⟨ret, outputData, totalOut⟩, -, hreturn⟩ := bind_eq_ok.mp hreturn
    dsimp only at hreturn
    split_ifs at hreturn with hret
    · obtain ⟨output, hassemble, houtput⟩ := bind_eq_ok.mp hreturn
      cases houtput
      rw [assemble] at hassemble
      split_ifs at hassemble with hnonneg
      obtain ⟨⟨output, left⟩, hcopy, hleft⟩ := bind_eq_ok.mp hassemble
      dsimp only at hleft
      split_ifs at hleft
      · cases hleft
        have hlen := length_of_copyLoop hcopy (by rw [Nat.zero_add, List.length_replicate])
        have hlt := Routerlib.toInt_lt totalOut
        rw [hlen, List.length_replicate]
        omega
    · cases hreturn

end Returns

/-- **A stream is reassembled exactly if the last call of `inflate` has something left to write**,
and an input on which `inflate` does not come to the end of a stream is rejected. -/
theorem decompress_iff (z : Zlib) (input : Bytes) :
    (∀ d : Bytes, z.Inflates input d → d.length < 2 ^ 31 →
      (DecompressReturns z input (.ok (true, d)) ↔
        ∀ n, z.EndsAt input n → (z.inflate input n).out ≠ [])) ∧
    ∀ n, z.EndsAt input n → (z.inflate input n).ret ≠ .streamEnd →
      DecompressReturns z input (.ok (false, [])) := by
  refine ⟨fun d h hd ↦ ⟨fun hreturns n hn hnil ↦ ?_, fun hlast ↦ ?_⟩,
    fun n hn hret ↦ decompressReturns_of_ret_ne hn hret⟩
  · have hthrows := decompressReturns_of_inflates h hd hn
    rw [if_pos hnil] at hthrows
    cases hreturns.unique hthrows
  · obtain ⟨n, hn⟩ := h.exists_endsAt
    have hreturns := decompressReturns_of_inflates h hd hn
    rwa [if_neg (hlast n hn)] at hreturns

/-- What `zlib.compress` makes of three bytes. -/
def compressedThree : Bytes := [120, 156, 99, 100, 98, 6, 0, 0, 13, 0, 7]

/-- What `zlib.compress` makes of nothing. -/
def compressedNil : Bytes := [120, 156, 3, 0, 0, 0, 0, 1]

/-- zlib, on inputs that it inflates in one call. -/
def zlibOfTable (table : List (Bytes × Bytes)) : Zlib where
  inflateInit := .ok
  inflate input _ :=
    match table.lookup input with
    | some out => ⟨.streamEnd, out⟩
    | none => ⟨.dataError, []⟩
  buffer _ := List.replicate kBufferLen 0
  length_buffer _ := List.length_replicate

theorem inflate_zlibOfTable {table : List (Bytes × Bytes)} {input d : Bytes}
    (h : table.lookup input = some d) (i : ℕ) :
    (zlibOfTable table).inflate input i = ⟨.streamEnd, d⟩ := by
  rw [zlibOfTable]
  simp only [h]

/-- What is in the table is inflated in one call. -/
theorem inflates_zlibOfTable {table : List (Bytes × Bytes)} {input d : Bytes}
    (h : table.lookup input = some d) (hd : d.length ≤ kBufferLen) :
    (zlibOfTable table).Inflates input d ∧ (zlibOfTable table).EndsAt input 0 := by
  have hcall := inflate_zlibOfTable h
  refine ⟨⟨rfl, fun i _ ↦ Or.inr (by rw [hcall]), fun i hok ↦ ?_, fun i hok _ ↦ ?_⟩,
    ⟨fun i hi ↦ absurd hi (Nat.not_lt_zero i), by simp [hcall]⟩⟩
  · have hi := hok i le_rfl
    rw [hcall] at hi
    cases hi
  · rcases Nat.eq_zero_or_pos i with rfl | hpos
    · rw [hcall, Nat.zero_mul]
      exact ⟨rfl, hd⟩
    · have hzero := hok 0 hpos
      rw [hcall] at hzero
      cases hzero

/-- What is in the table is decompressed, unless it is empty. -/
theorem decompressReturns_zlibOfTable {table : List (Bytes × Bytes)} {input d : Bytes}
    (h : table.lookup input = some d) (hd : d.length ≤ kBufferLen) (hne : d ≠ []) :
    DecompressReturns (zlibOfTable table) input (.ok (true, d)) := by
  obtain ⟨hinflates, hends⟩ := inflates_zlibOfTable h hd
  have hreturns := decompressReturns_of_inflates hinflates (hd.trans_lt (by decide)) hends
  rwa [inflate_zlibOfTable h, if_neg hne] at hreturns

/-- Three bytes are reassembled, and a header that names no compression method is rejected. -/
theorem decompress_iff_three :
    DecompressReturns (zlibOfTable [(compressedThree, [1, 2, 3])]) compressedThree
        (.ok (true, [1, 2, 3])) ∧
      DecompressReturns (zlibOfTable [(compressedThree, [1, 2, 3])]) [0, 0] (.ok (false, [])) := by
  obtain ⟨hinflates, hends⟩ := inflates_zlibOfTable
    (show [(compressedThree, ([1, 2, 3] : Bytes))].lookup compressedThree = some [1, 2, 3] by
      decide)
    (by decide)
  constructor
  · apply ((decompress_iff _ compressedThree).1 [1, 2, 3] hinflates (by decide)).mpr
    intro n hn
    rw [hn.unique hends]
    decide
  · apply (decompress_iff _ [0, 0]).2 0 ⟨fun i hi ↦ absurd hi (Nat.not_lt_zero i), ?_⟩
    · decide
    · decide

/-- **The empty stream is not reassembled**: there is nothing to copy, and `at` throws. -/
theorem decompress_nil_throws :
    (zlibOfTable [(compressedNil, [])]).Inflates compressedNil [] ∧
      DecompressReturns (zlibOfTable [(compressedNil, [])]) compressedNil (.error .outOfRange) ∧
      ¬DecompressReturns (zlibOfTable [(compressedNil, [])]) compressedNil (.ok (true, [])) := by
  obtain ⟨hinflates, hends⟩ := inflates_zlibOfTable
    (show [(compressedNil, ([] : Bytes))].lookup compressedNil = some [] by decide) (by decide)
  have hthrows : DecompressReturns _ compressedNil (.error .outOfRange) :=
    decompressReturns_of_inflates hinflates (by decide) hends
  refine ⟨hinflates, hthrows, fun hreturns ↦ ?_⟩
  cases hreturns.unique hthrows

end Client

end MemcacheRouter
