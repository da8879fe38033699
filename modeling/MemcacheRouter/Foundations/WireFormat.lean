import Mathlib.Algebra.Order.Group.Nat
import MemcacheRouter.Foundations.Framing
import MemcacheRouter.Foundations.TaggedFields

/-!
# A wire format

A `Runtime` that reads and writes the encoding of protocol buffers: numbers in groups of seven bits,
strings and embedded messages behind their length, tags that say how long a field is, groups that
end with a tag of their own. It has the laws that generated code relies on (`lawful`).
-/

namespace WireFormat

open TaggedFields

/-! ## Varints -/

/-- At most `k` bytes of a number, in groups of seven bits, least significant first; the high bit of
a byte says that more follow. -/
def varintBytes : ℕ → ℕ → List UInt8
  | 0, _ => []
  | k + 1, n =>
    if n < 128 then [UInt8.ofNat n] else UInt8.ofNat (n % 128 + 128) :: varintBytes k (n / 128)

/-- A varint has at most ten bytes. -/
def writeVarint (n : ℕ) : List UInt8 := varintBytes 10 n

/-- Read a varint of at most `k` bytes. -/
def readGroups : ℕ → List UInt8 → Option (ℕ × List UInt8)
  | 0, _ => none
  | _ + 1, [] => none
  | k + 1, b :: bs =>
    if b < 128 then some (b.toNat, bs)
    else (readGroups k bs).map fun r ↦ (b.toNat - 128 + 128 * r.1, r.2)

/-- What does not fit into 64 bits is lost. -/
def readVarint64 (input : List UInt8) : Option (ℕ × List UInt8) :=
  (readGroups 10 input).map fun r ↦ (r.1 % 2 ^ 64, r.2)

/-- The upper half of what `readVarint64` reads is lost. -/
def readVarint32 (input : List UInt8) : Option (ℕ × List UInt8) :=
  (readGroups 10 input).map fun r ↦ (r.1 % 2 ^ 32, r.2)

theorem readGroups_varintBytes {k n : ℕ} (hk : k ≠ 0) (h : n < 128 ^ k) (rest : List UInt8) :
    readGroups k (varintBytes k n ++ rest) = some (n, rest) := by
  induction k generalizing n with
  | zero => exact absurd rfl hk
  | succ k ih =>
    rw [varintBytes]
    -- the last byte is below 128, and every other one has its top bit set
    split_ifs with hn
    · have hval : (UInt8.ofNat n).toNat = n := by
        rw [UInt8.toNat_ofNat']
        omega
      rw [List.singleton_append, readGroups, if_pos, hval]
      rw [UInt8.lt_iff_toNat_lt, hval]
      exact hn
    · have hval : (UInt8.ofNat (n % 128 + 128)).toNat = n % 128 + 128 := by
        rw [UInt8.toNat_ofNat']
        omega
      have hdiv : n / 128 < 128 ^ k := by
        rw [Nat.div_lt_iff_lt_mul (by decide), ← pow_succ]
        exact h
      have hk' : k ≠ 0 := by
        rintro rfl
        rw [pow_zero] at hdiv
        omega
      rw [List.cons_append, readGroups, if_neg, ih hk' hdiv, Option.map_some, hval]
      · congr 2
        omega
      · rw [UInt8.lt_iff_toNat_lt, hval]
        have h128 : (128 : UInt8).toNat = 128 := rfl
        omega

/-- **A varint is read back**, whatever follows it. -/
theorem readVarint64_writeVarint {n : ℕ} (h : n < 2 ^ 64) (rest : List UInt8) :
    readVarint64 (writeVarint n ++ rest) = some (n, rest) := by
  have h' : n < 128 ^ 10 := h.trans (by decide)
  rw [readVarint64, writeVarint, readGroups_varintBytes (by decide) h', Option.map_some,
    Nat.mod_eq_of_lt h]

theorem readVarint32_writeVarint {n : ℕ} (h : n < 2 ^ 64) (rest : List UInt8) :
    readVarint32 (writeVarint n ++ rest) = some (n % 2 ^ 32, rest) := by
  have h' : n < 128 ^ 10 := h.trans (by decide)
  rw [readVarint32, writeVarint, readGroups_varintBytes (by decide) h', Option.map_some]

theorem readVarint32_writeVarint_of_lt {n : ℕ} (h : n < 2 ^ 32) (rest : List UInt8) :
    readVarint32 (writeVarint n ++ rest) = some (n, rest) := by
  rw [readVarint32_writeVarint (h.trans (by decide)), Nat.mod_eq_of_lt h]

theorem length_writeVarint_one {n : ℕ} (h : n < 128) : (writeVarint n).length = 1 := by
  rw [writeVarint, varintBytes, if_pos h, List.length_singleton]

theorem length_writeVarint_two {n : ℕ} (h : 128 ≤ n) (h' : n < 128 ^ 2) :
    (writeVarint n).length = 2 := by
  have hdiv : n / 128 < 128 := by omega
  rw [writeVarint, varintBytes, if_neg (by omega), varintBytes, if_pos hdiv]
  rfl

/-- A reader uses up bytes. -/
theorem length_of_readGroups {k n : ℕ} {input rest : List UInt8}
    (h : readGroups k input = some (n, rest)) : rest.length < input.length := by
  induction k generalizing input n with
  | zero => cases h
  | succ k ih =>
    rcases input with _ | ⟨b, bs⟩
    · cases h
    · rw [readGroups] at h
      split_ifs at h
      · obtain ⟨-, rfl⟩ := Prod.ext_iff.mp (Option.some.inj h)
        exact Nat.lt_succ_self _
      · obtain ⟨r, hr, heq⟩ := Option.map_eq_some_iff.mp h
        obtain ⟨-, rfl⟩ := Prod.ext_iff.mp heq
        exact (ih hr).trans (Nat.lt_succ_self _)

theorem length_of_readVarint64 {n : ℕ} {input rest : List UInt8}
    (h : readVarint64 input = some (n, rest)) : rest.length < input.length := by
  obtain ⟨r, hr, heq⟩ := Option.map_eq_some_iff.mp h
  obtain ⟨-, rfl⟩ := Prod.ext_iff.mp heq
  exact length_of_readGroups hr

theorem length_of_readVarint32 {n : ℕ} {input rest : List UInt8}
    (h : readVarint32 input = some (n, rest)) : rest.length < input.length := by
  obtain ⟨r, hr, heq⟩ := Option.map_eq_some_iff.mp h
  obtain ⟨-, rfl⟩ := Prod.ext_iff.mp heq
  exact length_of_readGroups hr

/-! ## Payloads -/

/-- Read `n` bytes. -/
def readBytes (n : ℕ) (input : List UInt8) : Option (List UInt8 × List UInt8) :=
  if n ≤ input.length then some (input.take n, input.drop n) else none

/-- A string behind its length, which is an `int`. -/
def readString (input : List UInt8) : Option (List UInt8 × List UInt8) := do
  let (n, rest) ← readVarint32 input
  if n < 2 ^ 31 then readBytes n rest else none

def writeString (s : List UInt8) : List UInt8 := writeVarint s.length ++ s

theorem readBytes_append {n : ℕ} {bs : List UInt8} (h : bs.length = n) (rest : List UInt8) :
    readBytes n (bs ++ rest) = some (bs, rest) := by
  subst h
  rw [readBytes, if_pos (by rw [List.length_append]; omega), List.take_left, List.drop_left]

theorem readBytes_eq_some {n : ℕ} {input bs rest : List UInt8}
    (h : readBytes n input = some (bs, rest)) : bs.length = n ∧ rest.length + n = input.length := by
  rw [readBytes] at h
  split_ifs at h with hn
  obtain ⟨rfl, rfl⟩ := Prod.ext_iff.mp (Option.some.inj h)
  rw [List.length_take, List.length_drop]
  omega

theorem readString_writeString {s : List UInt8} (h : s.length < 2 ^ 31) (rest : List UInt8) :
    readString (writeString s ++ rest) = some (s, rest) := by
  have h' : s.length < 2 ^ 32 := h.trans (by decide)
  rw [readString, writeString, List.append_assoc, readVarint32_writeVarint_of_lt h']
  exact (if_pos h).trans (readBytes_append rfl rest)

theorem readString_eq_some {input s rest : List UInt8} (h : readString input = some (s, rest)) :
    rest.length < input.length ∧ s.length < 2 ^ 31 := by
  obtain ⟨⟨n, rest'⟩, hn, h⟩ := Option.bind_eq_some_iff.mp h
  have hlen := length_of_readVarint32 hn
  dsimp only at h
  split_ifs at h with hlt
  have := readBytes_eq_some h
  omega

/-- What is left of a message that claims to be longer than its input ends with the input. -/
def readDelimited (input : List UInt8) : Option (List UInt8 × List UInt8) :=
  (readVarint32 input).map fun r ↦ (r.2.take r.1, r.2.drop r.1)

theorem readDelimited_append {bs : List UInt8} (h : bs.length < 2 ^ 32) (rest : List UInt8) :
    readDelimited (writeVarint bs.length ++ bs ++ rest) = some (bs, rest) := by
  rw [readDelimited, List.append_assoc, readVarint32_writeVarint_of_lt h, Option.map_some,
    List.take_left, List.drop_left]

theorem length_of_readDelimited {input payload rest : List UInt8}
    (h : readDelimited input = some (payload, rest)) :
    payload.length + rest.length < input.length := by
  obtain ⟨⟨n, rest'⟩, hn, heq⟩ := Option.map_eq_some_iff.mp h
  obtain ⟨rfl, rfl⟩ := Prod.ext_iff.mp heq
  have hlen := length_of_readVarint32 hn
  rwa [← List.length_append, List.take_append_drop]

/-! ## Tags -/

/-- A tag has 32 bits and is not zero. -/
def readTag (input : List UInt8) : Option (ℕ × List UInt8) :=
  (readVarint32 input).filter (·.1 ≠ 0)

theorem readTag_writeVarint {tag : ℕ} (h0 : tag ≠ 0) (h : tag < 2 ^ 32) (rest : List UInt8) :
    readTag (writeVarint tag ++ rest) = some (tag, rest) := by
  rw [readTag, readVarint32_writeVarint_of_lt h, Option.filter_some, if_pos (decide_eq_true h0)]

theorem readTag_eq_some {input rest : List UInt8} {tag : ℕ} (h : readTag input = some (tag, rest)) :
    rest.length < input.length ∧ tag ≠ 0 ∧ tag < 2 ^ 32 := by
  obtain ⟨hread, h0⟩ := Option.filter_eq_some_iff.mp h
  refine ⟨length_of_readVarint32 hread, of_decide_eq_true h0, ?_⟩
  obtain ⟨r, -, heq⟩ := Option.map_eq_some_iff.mp hread
  obtain ⟨rfl, -⟩ := Prod.ext_iff.mp heq
  exact Nat.mod_lt _ (by decide)

/-! ## Skipped fields -/

/-- A field that was skipped, with the bytes that are written for it after its tag. -/
structure UnknownField where
  tag : ℕ
  payload : List UInt8
  deriving DecidableEq

/-- `SkipMessage`: skip the fields of a group up to its last tag, which is returned with them. At
the end of the input there is none. -/
def skipMessage (skip : ℕ → List UInt8 → Option (List UInt8 × List UInt8)) :
    ℕ → List UInt8 → Option (List UInt8 × ℕ × List UInt8)
  | 0, _ => none
  | fuel + 1, input =>
    match readTag input with
    | none => none
    | some (tag, rest) =>
      if tag % 8 = endGroup then some ([], tag, rest)
      else
        match skip tag rest with
        | none => none
        | some (payload, rest') =>
          (skipMessage skip fuel rest').map fun r ↦
            (writeVarint tag ++ payload ++ r.1, r.2)

/-- `SkipField`, with so many groups allowed inside each other: a group, of wire type 3, must end
with its own number. The payload is returned as it is written again. -/
def skipPayload : ℕ → ℕ → List UInt8 → Option (List UInt8 × List UInt8)
  | groups, tag, input =>
    match tag % 8, groups with
    | 0, _ => (readVarint64 input).map (Prod.map writeVarint id)
    | 1, _ => readBytes 8 input
    | 2, _ => (readString input).map (Prod.map writeString id)
    | 3, groups + 1 =>
      (skipMessage (skipPayload groups) (input.length + 1) input).bind fun r ↦
        if r.2.1 = tagOf (tag / 8) endGroup then some (r.1 ++ writeVarint r.2.1, r.2.2) else none
    | 5, _ => readBytes 4 input
    | _, _ => none

/-- What was skipped once is skipped again. -/
def SkipsAgain (skip : List UInt8 → Option (List UInt8 × List UInt8)) : Prop :=
  ∀ {input payload rest}, skip input = some (payload, rest) →
    rest.length ≤ input.length ∧ ∀ more, skip (payload ++ more) = some (payload, more)

theorem skipsAgain_varint : SkipsAgain fun input ↦
    (readVarint64 input).map (Prod.map writeVarint id) := by
  intro input payload rest h
  obtain ⟨r, hr, heq⟩ := Option.map_eq_some_iff.mp h
  obtain ⟨rfl, rfl⟩ := Prod.ext_iff.mp heq
  have hlt : r.1 < 2 ^ 64 := by
    obtain ⟨r', -, rfl⟩ := Option.map_eq_some_iff.mp hr
    exact Nat.mod_lt _ (by decide)
  refine ⟨(length_of_readVarint64 hr).le, fun more ↦ ?_⟩
  exact congrArg (Option.map _) (readVarint64_writeVarint hlt more)

theorem skipsAgain_readBytes (n : ℕ) : SkipsAgain (readBytes n) := by
  intro input payload rest h
  have hlen := readBytes_eq_some h
  exact ⟨by omega, fun more ↦ readBytes_append hlen.1 more⟩

theorem skipsAgain_readString : SkipsAgain fun input ↦
    (readString input).map (Prod.map writeString id) := by
  intro input payload rest h
  obtain ⟨r, hr, heq⟩ := Option.map_eq_some_iff.mp h
  obtain ⟨rfl, rfl⟩ := Prod.ext_iff.mp heq
  have hlen := readString_eq_some hr
  refine ⟨hlen.1.le, fun more ↦ ?_⟩
  exact congrArg (Option.map _) (readString_writeString hlen.2 more)

theorem length_writeVarint_pos (n : ℕ) : 0 < (writeVarint n).length := by
  rw [writeVarint, varintBytes]
  split_ifs <;> exact Nat.succ_pos _

/-- The fields of a group are skipped again, by any fuel that is enough for them. -/
theorem skipMessage_eq_some {skip : ℕ → List UInt8 → Option (List UInt8 × List UInt8)}
    (hskip : ∀ tag, SkipsAgain (skip tag)) {fuel last : ℕ} {input fields rest : List UInt8}
    (h : skipMessage skip fuel input = some (fields, last, rest)) :
    rest.length ≤ input.length ∧ ∀ more {fuel' : ℕ}, fields.length < fuel' →
      skipMessage skip fuel' (fields ++ writeVarint last ++ more) = some (fields, last, more) := by
  induction fuel generalizing input fields with
  | zero => cases h
  | succ fuel ih =>
    rw [skipMessage] at h
    split at h
    · cases h
    · rename_i tag rest₀ htag
      obtain ⟨hlen, h0, hlt⟩ := readTag_eq_some htag
      split_ifs at h with hend
      · -- the last tag
        obtain ⟨rfl, rfl, rfl⟩ := Option.some.inj h
        refine ⟨hlen.le, fun more fuel' hfuel ↦ ?_⟩
        obtain ⟨fuel', rfl⟩ : ∃ k, fuel' = k + 1 := Nat.exists_eq_add_one.mpr (by omega)
        rw [List.nil_append, skipMessage, readTag_writeVarint h0 hlt]
        exact if_pos hend
      · -- one more field
        split at h
        · cases h
        · rename_i payload rest₁ hpay
          obtain ⟨⟨fields', last', rest'⟩, hr, heq⟩ := Option.map_eq_some_iff.mp h
          obtain ⟨rfl, hlast⟩ := Prod.ext_iff.mp heq
          obtain ⟨rfl, rfl⟩ := Prod.ext_iff.mp hlast
          obtain ⟨hle, hmore⟩ := hskip tag hpay
          obtain ⟨hle', hmore'⟩ := ih hr
          refine ⟨by omega, fun more fuel' hfuel ↦ ?_⟩
          have htaglen := length_writeVarint_pos tag
          simp only [List.length_append] at hfuel
          obtain ⟨fuel', rfl⟩ : ∃ k, fuel' = k + 1 := Nat.exists_eq_add_one.mpr (by omega)
          have happ : writeVarint tag ++ payload ++ fields' ++ writeVarint last' ++ more =
              writeVarint tag ++ (payload ++ (fields' ++ writeVarint last' ++ more)) := by
            simp only [List.append_assoc]
          dsimp only
          rw [happ, skipMessage, readTag_writeVarint h0 hlt]
          dsimp only
          rw [if_neg hend, hmore]
          dsimp only
          rw [hmore' more (by omega), Option.map_some]

/-- **What was skipped once is skipped again**, groups inside groups included. -/
theorem skipsAgain_skipPayload (groups tag : ℕ) : SkipsAgain (skipPayload groups tag) := by
  induction groups using Nat.strongRecOn generalizing tag with
  | _ groups ih =>
    intro input payload rest h
    unfold skipPayload at h ⊢
    split at h
    · exact skipsAgain_varint h
    · exact skipsAgain_readBytes 8 h
    · exact skipsAgain_readString h
    · rename_i groups _
      obtain ⟨⟨fields, last, rest'⟩, hr, h⟩ := Option.bind_eq_some_iff.mp h
      split_ifs at h with hlast
      obtain ⟨rfl, rfl⟩ := Prod.ext_iff.mp (Option.some.inj h)
      obtain ⟨hle, hmore⟩ := skipMessage_eq_some (ih groups (Nat.lt_succ_self _)) hr
      refine ⟨hle, fun more ↦ ?_⟩
      dsimp only at hmore hlast ⊢
      rw [hmore more (by simp only [List.length_append]; omega), Option.bind_some]
      exact if_pos hlast
    · exact skipsAgain_readBytes 4 h
    · cases h

/-! ## The runtime -/

/-- A number of `α` as a varint. -/
def varintScalar {α : Type} (read : List UInt8 → Option (ℕ × List UInt8)) (ofNat : ℕ → α)
    (toNat : α → ℕ) : Scalar α where
  read input := (read input).map (Prod.map ofNat id)
  write a := writeVarint (toNat a)
  size a := (writeVarint (toNat a)).length

section VarintScalar

variable {α : Type} {read : List UInt8 → Option (ℕ × List UInt8)} {ofNat : ℕ → α} {toNat : α → ℕ}
  {limit : ℕ}

theorem varintScalar_shortens
    (hlen : ∀ {n input rest}, read input = some (n, rest) → rest.length < input.length) :
    (varintScalar read ofNat toNat).Shortens limit := by
  intro input a rest _ h
  obtain ⟨r, hr, heq⟩ := Option.map_eq_some_iff.mp h
  obtain ⟨-, rfl⟩ := Prod.ext_iff.mp heq
  exact hlen hr

theorem varintScalar_lawful
    (hread : ∀ a rest, ∃ n, read (writeVarint (toNat a) ++ rest) = some (n, rest) ∧ ofNat n = a) :
    (varintScalar read ofNat toNat).Lawful limit fun _ ↦ True where
  read_write := by
    intro a _ rest _
    obtain ⟨n, hn, rfl⟩ := hread a rest
    exact congrArg (Option.map _) hn
  length_write := fun _ ↦ rfl
  fits := fun _ _ ↦ trivial

end VarintScalar

/-- Negative numbers are extended to 64 bits before they are written. -/
def int32ToNat (i : Int32) : ℕ := i.toInt64.toUInt64.toNat

/-- Messages and groups may stand inside each other so many times. -/
def recursionLimit : ℕ := 100

/-- The encoding of protocol buffers. A tag of more than two bytes is not guessed, and one that is
written with more bytes than it needs is not recognised. -/
def protobuf : Runtime UnknownField where
  readTag := readTag
  writeTag number wireType := writeVarint (tagOf number wireType)
  expectTag tag input := if tag < 2 ^ 14 then input.dropPrefix? (writeVarint tag) else none
  expectAtEnd := List.isEmpty
  skipField depth tag input :=
    (skipPayload (recursionLimit - depth) tag input).map (Prod.map (.mk tag) id)
  writeUnknown u := writeVarint u.tag ++ u.payload
  unknownSize u := (writeVarint u.tag ++ u.payload).length
  string := ⟨readString, writeString, fun s ↦ (writeString s).length⟩
  uint32 := varintScalar readVarint32 UInt32.ofNat UInt32.toNat
  uint64 := varintScalar readVarint64 UInt64.ofNat UInt64.toNat
  int32 := varintScalar readVarint32 (fun n ↦ (UInt32.ofNat n).toInt32) int32ToNat
  bool := varintScalar readVarint32 (fun n ↦ n != 0) Bool.toNat
  double :=
    { read := fun input ↦
        (readBytes 8 input).map (Prod.map (fun bs ↦ UInt64.ofNat (BigEndian.decode bs.reverse)) id)
      write := fun d ↦ (BigEndian.encode 8 d.toNat).reverse
      size := fun _ ↦ 8 }
  readDelimited := readDelimited
  writeLength := writeVarint
  lengthSize n := (writeVarint n).length

section Laws

variable {limit : ℕ}

theorem int32_lawful : (protobuf.int32).Lawful limit fun _ ↦ True := by
  refine varintScalar_lawful fun i rest ↦ ?_
  have hlt : int32ToNat i < 2 ^ 64 := UInt64.toNat_lt _
  refine ⟨_, readVarint32_writeVarint hlt rest, ?_⟩
  apply Int32.toBitVec_inj.mp
  apply BitVec.eq_of_toNat_eq
  -- extending and cutting off again gives the number back
  have hback : i.toInt64.toInt32.toBitVec.toNat = i.toBitVec.toNat := by
    rw [Int32.toInt32_toInt64]
  have hcut : i.toInt64.toInt32.toBitVec = i.toInt64.toBitVec.setWidth 32 :=
    BitVec.signExtend_eq_setWidth_of_le _ (by decide)
  have hval : int32ToNat i = i.toInt64.toBitVec.toNat := rfl
  rw [← hback, hcut, BitVec.toNat_setWidth, hval]
  simp

theorem double_shortens : (protobuf.double).Shortens limit := by
  intro input d rest _ h
  obtain ⟨r, hr, heq⟩ := Option.map_eq_some_iff.mp h
  obtain ⟨-, rfl⟩ := Prod.ext_iff.mp heq
  have hlen := readBytes_eq_some hr
  dsimp only [Prod.map, id]
  omega

theorem double_lawful : (protobuf.double).Lawful limit fun _ ↦ True where
  read_write := by
    intro d _ rest _
    have hlen : (BigEndian.encode 8 d.toNat).reverse.length = 8 := by
      rw [List.length_reverse, BigEndian.length_encode]
    have hd : d.toNat < 256 ^ 8 := d.toNat_lt
    simp only [protobuf]
    rw [readBytes_append hlen, Option.map_some]
    simp only [Prod.map, List.reverse_reverse, BigEndian.decode_encode_of_lt hd,
      UInt64.ofNat_toNat, id]
  length_write := by
    intro d _
    exact List.length_reverse.trans (BigEndian.length_encode 8 d.toNat)
  fits := fun _ _ ↦ trivial

/-- A guess reads the tag as it is written. -/
theorem expectTag_sound {tag : ℕ} {input rest : List UInt8} (h0 : tag ≠ 0)
    (h : protobuf.expectTag tag input = some rest) : readTag input = some (tag, rest) := by
  simp only [protobuf] at h
  split_ifs at h with hlt
  obtain ⟨written, rfl, heq⟩ := List.dropPrefix?_eq_some_iff.mp h
  obtain rfl := eq_of_beq heq
  exact readTag_writeVarint h0 (hlt.trans (by decide)) rest

end Laws

/-- **The laws hold of the encoding**, up to the length that a string can have. -/
theorem lawful {limit : ℕ} (hlimit : limit ≤ 2 ^ 31) : protobuf.Lawful limit where
  readTag_nil := rfl
  readTag_shortens _ h := (readTag_eq_some h).1
  expectTag_sound h0 _ h := expectTag_sound h0 h
  expectAtEnd_sound _ h := List.isEmpty_iff.mp h
  skipField_shortens _ h := by
    obtain ⟨r, hr, heq⟩ := Option.map_eq_some_iff.mp h
    obtain ⟨-, rfl⟩ := Prod.ext_iff.mp heq
    exact (skipsAgain_skipPayload _ _ hr).1
  string_shortens _ h := (readString_eq_some h).1
  uint32_shortens := varintScalar_shortens length_of_readVarint32
  uint64_shortens := varintScalar_shortens length_of_readVarint64
  int32_shortens := varintScalar_shortens length_of_readVarint32
  bool_shortens := varintScalar_shortens length_of_readVarint32
  double_shortens := double_shortens
  readDelimited_shortens _ h := length_of_readDelimited h
  readTag_writeTag hn hlt hw rest _ := by
    refine readTag_writeVarint ?_ ?_ rest
    · rw [tagOf]; omega
    · rw [tagOf]; omega
  length_writeTag hn hw := by
    refine length_writeVarint_one ?_
    rw [tagOf]; omega
  length_writeTag_two hn hlt hw := by
    refine length_writeVarint_two ?_ ?_
    · rw [tagOf]; omega
    · rw [tagOf]; omega
  kept _ htag h := by
    obtain ⟨-, h0, hlt⟩ := readTag_eq_some htag
    obtain ⟨r, hr, heq⟩ := Option.map_eq_some_iff.mp h
    obtain ⟨rfl, rfl⟩ := Prod.ext_iff.mp heq
    refine ⟨r.1, fun rest _ ↦ ?_, fun rest _ ↦ ?_⟩
    · exact (List.append_assoc _ _ _).symm ▸ readTag_writeVarint h0 hlt _
    · exact congrArg (Option.map _) ((skipsAgain_skipPayload _ _ hr).2 rest)
  length_writeUnknown _ := rfl
  string :=
    { read_write := fun h _ _ ↦ readString_writeString h _
      length_write := fun _ ↦ rfl
      fits := fun _ h ↦ (readString_eq_some h).2 }
  uint32 := varintScalar_lawful
    fun a rest ↦ ⟨_, readVarint32_writeVarint_of_lt a.toNat_lt rest, UInt32.ofNat_toNat⟩
  uint64 := varintScalar_lawful
    fun a rest ↦ ⟨_, readVarint64_writeVarint a.toNat_lt rest, UInt64.ofNat_toNat⟩
  int32 := int32_lawful
  bool := varintScalar_lawful
    fun b rest ↦ ⟨b.toNat, readVarint32_writeVarint_of_lt (by cases b <;> decide) rest,
      by cases b <;> rfl⟩
  bool_size b := by cases b <;> rfl
  double := double_lawful
  double_size _ := rfl
  readDelimited_writeLength {payload rest} hlt := by
    rw [List.length_append, List.length_append] at hlt
    exact readDelimited_append (by omega) rest
  length_writeLength _ := rfl

end WireFormat
