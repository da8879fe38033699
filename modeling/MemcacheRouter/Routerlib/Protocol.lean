import Mathlib.Data.List.Induction
import MemcacheRouter.Foundations.Framing
import MemcacheRouter.Wire.Message

/-!
# The binary protocol

`protocol.h` and `protocol.cpp`: the header of 24 bytes that every request and every response starts
with, `ParseHeader`, and the requests that a `RequestPacket` collects. Fields of more than one byte
go through `htobe` on the way out and through `betoh` on the way in, so on any host they travel most
significant byte first.

The requests round-trip. Whatever was collected since the last `Reset`, cutting `Command()` at the
lengths its headers give yields one frame for every call, and every frame decodes to its call.
-/

namespace MemcacheRouter.Routerlib

/-- `REQUEST`, the magic byte of a request. -/
def requestMagic : UInt8 := 0x80

/-- `RESPONSE`, the magic byte of a response. -/
def responseMagic : UInt8 := 0x81

/-- The members of `enum Commands` that a `RequestPacket` sends. -/
inductive Commands where
  | get | set | noop
  deriving DecidableEq, Repr

/-- The value of a member of `enum Commands`. -/
def Commands.toUInt8 : Commands → UInt8
  | .get => 0
  | .set => 1
  | .noop => 10

/-- `struct ProtocolHeader`, in host order. The fields default to what `ResetHeader` assigns. -/
structure ProtocolHeader where
  magic : UInt8 := 0
  opcode : UInt8 := 0
  keyLength : UInt16 := 0
  extraLength : UInt8 := 0
  dataType : UInt8 := 0
  reserved : UInt16 := 0
  totalBodyLength : UInt32 := 0
  opaqueData : UInt32 := 0
  cas : UInt64 := 0
  deriving DecidableEq, Repr

/-- `sizeof(ProtocolHeader)`. -/
def headerSize : ℕ := 24

namespace ProtocolHeader

/-- The memory of a header whose fields were converted to network order. -/
def toBytes (h : ProtocolHeader) : Bytes :=
  BigEndian.encode 1 h.magic.toNat ++ (BigEndian.encode 1 h.opcode.toNat ++
    (BigEndian.encode 2 h.keyLength.toNat ++ (BigEndian.encode 1 h.extraLength.toNat ++
      (BigEndian.encode 1 h.dataType.toNat ++ (BigEndian.encode 2 h.reserved.toNat ++
        (BigEndian.encode 4 h.totalBodyLength.toNat ++ (BigEndian.encode 4 h.opaqueData.toNat ++
          BigEndian.encode 8 h.cas.toNat)))))))

/-- The number in the `width` bytes at an offset. -/
def field (bs : Bytes) (offset width : ℕ) : ℕ := BigEndian.decode ((bs.drop offset).take width)

/-- The header that the first bytes hold, converted to host order. -/
def ofBytes (bs : Bytes) : ProtocolHeader where
  magic := .ofNat (field bs 0 1)
  opcode := .ofNat (field bs 1 1)
  keyLength := .ofNat (field bs 2 2)
  extraLength := .ofNat (field bs 4 1)
  dataType := .ofNat (field bs 5 1)
  reserved := .ofNat (field bs 6 2)
  totalBodyLength := .ofNat (field bs 8 4)
  opaqueData := .ofNat (field bs 12 4)
  cas := .ofNat (field bs 16 8)

@[simp] theorem length_toBytes (h : ProtocolHeader) : h.toBytes.length = headerSize := by
  simp [toBytes, headerSize]

theorem field_append (bs rest : Bytes) {offset width : ℕ} (h : offset + width ≤ bs.length) :
    field (bs ++ rest) offset width = field bs offset width := by
  rw [field, field, List.drop_append_of_le_length (by omega),
    List.take_append_of_le_length (by rw [List.length_drop]; omega)]

/-- Only the first bytes are read. -/
theorem ofBytes_append (bs rest : Bytes) (h : headerSize ≤ bs.length) :
    ofBytes (bs ++ rest) = ofBytes bs := by
  rw [headerSize] at h
  simp (disch := omega) only [ofBytes, field_append]

/-- The first field. -/
theorem field_zero_encode {w n : ℕ} (rest : Bytes) (h : n < 256 ^ w) :
    field (BigEndian.encode w n ++ rest) 0 w = n := by
  rw [field, List.drop_zero, List.take_left' (BigEndian.length_encode w n),
    BigEndian.decode_encode_of_lt h]

/-- The fields after the first one. -/
theorem field_encode_append {w n : ℕ} (rest : Bytes) {offset width : ℕ} (h : w ≤ offset) :
    field (BigEndian.encode w n ++ rest) offset width = field rest (offset - w) width := by
  rw [field, field, List.drop_append, BigEndian.length_encode,
    List.drop_eq_nil_of_le (by rw [BigEndian.length_encode]; exact h), List.nil_append]

/-- **A header round-trips**, whatever follows it. -/
theorem ofBytes_toBytes (h : ProtocolHeader) (rest : Bytes) : ofBytes (h.toBytes ++ rest) = h := by
  have hmagic := h.magic.toNat_lt
  have hopcode := h.opcode.toNat_lt
  have hkey := h.keyLength.toNat_lt
  have hextra := h.extraLength.toNat_lt
  have hdata := h.dataType.toNat_lt
  have hreserved := h.reserved.toNat_lt
  have htotal := h.totalBodyLength.toNat_lt
  have hopaque := h.opaqueData.toNat_lt
  have hcas := h.cas.toNat_lt
  simp (disch := omega) only [ofBytes, toBytes, List.append_assoc, field_encode_append,
    Nat.reduceSub, field_zero_encode, UInt8.ofNat_toNat, UInt16.ofNat_toNat, UInt32.ofNat_toNat,
    UInt64.ofNat_toNat]

end ProtocolHeader

/-- A size that was converted to `int`. -/
def toInt (n : ℕ) : ℤ := (n : ℤ).bmod (2 ^ 32)

theorem toInt_lt (n : ℕ) : toInt n < (2 ^ 31 : ℕ) := Int.bmod_lt (by decide)

theorem toInt_eq {n : ℕ} (h : n < 2 ^ 31) : toInt n = n :=
  Int.bmod_eq_of_le (by omega) (by omega)

/-- How a thread of a `Server` can stop being defined. -/
inductive Crash where
  /-- A `CHECK` failed and the process aborted. -/
  | checkFailed
  /-- `substr` was asked for a position past the end and threw. -/
  | outOfRange
  /-- A vector was indexed past its end. -/
  | badIndex
  /-- The loop did not end within the turns it was given. -/
  | unfinished
  deriving DecidableEq, Repr

/-- `ParseHeader`: the position after the frame and the header. If the header is not all there it is
left as it is, and the position is 0. -/
def parseHeader (response : Bytes) (pos : ℕ) (header : ProtocolHeader) :
    Except Crash (ℤ × ProtocolHeader) :=
  if response.length < pos + headerSize then .ok (0, header)
  else
    let h := ProtocolHeader.ofBytes (response.drop pos)
    if h.magic = responseMagic then .ok (toInt (pos + headerSize + h.totalBodyLength.toNat), h)
    else .error .checkFailed

/-! ## Requests -/

/-- `class RequestPacket`. -/
structure RequestPacket where
  command : Bytes := []
  /-- An `int`, which counts fewer than `2 ^ 31` requests. -/
  num : ℕ := 0

namespace RequestPacket

/-- `RequestPacket::Reset`. -/
def reset (_ : RequestPacket) : RequestPacket := {}

/-- `RequestPacket::Get`. -/
def get (p : RequestPacket) (key : Bytes) : RequestPacket where
  num := p.num + 1
  command := p.command ++ ({
    magic := requestMagic
    opcode := Commands.get.toUInt8
    keyLength := .ofNat key.length
    totalBodyLength := .ofNat key.length : ProtocolHeader }).toBytes ++ key

/-- `RequestPacket::Set`. The extras are four bytes of flag and four bytes of expiry. -/
def set (p : RequestPacket) (key value : Bytes) (flag expiry : UInt32) (cas : UInt64) :
    RequestPacket where
  num := p.num + 1
  command := p.command ++ ({
    magic := requestMagic
    opcode := Commands.set.toUInt8
    keyLength := .ofNat key.length
    extraLength := 8
    totalBodyLength := .ofNat (key.length + value.length + 8)
    cas := cas : ProtocolHeader }).toBytes ++ BigEndian.encode 4 flag.toNat ++
      BigEndian.encode 4 expiry.toNat ++ key ++ value

/-- `RequestPacket::Noop`. -/
def noop (p : RequestPacket) : RequestPacket where
  num := p.num + 1
  command := p.command ++
    ({ magic := requestMagic, opcode := Commands.noop.toUInt8 : ProtocolHeader }).toBytes

/-- `RequestPacket::NumCommands`. -/
def numCommands (p : RequestPacket) : ℕ := p.num

end RequestPacket

/-- A call that adds a request. -/
inductive RequestCall where
  | get (key : Bytes)
  | set (key value : Bytes) (flag expiry : UInt32) (cas : UInt64)
  | noop
  deriving DecidableEq, Repr

/-- A call of a `RequestPacket`. -/
inductive PacketCall where
  | reset
  | add (c : RequestCall)
  deriving DecidableEq, Repr

/-- Add a request. -/
def RequestPacket.add (p : RequestPacket) : RequestCall → RequestPacket
  | .get key => p.get key
  | .set key value flag expiry cas => p.set key value flag expiry cas
  | .noop => p.noop

/-- One call. -/
def RequestPacket.call (p : RequestPacket) : PacketCall → RequestPacket
  | .reset => p.reset
  | .add c => p.add c

/-- The requests since the last `Reset`. -/
def sinceReset (calls : List PacketCall) : List RequestCall :=
  calls.foldl (fun since c ↦ match c with
    | .reset => []
    | .add c => since ++ [c]) []

/-! ## Cutting and decoding -/

/-- The length of the frame that starts here, by its header. -/
def frameSize (magic : UInt8) (bs : Bytes) : Option ℕ :=
  if bs.length < headerSize then none
  else if (ProtocolHeader.ofBytes bs).magic = magic then
    some (headerSize + (ProtocolHeader.ofBytes bs).totalBodyLength.toNat)
  else none

/-- What a request says. -/
structure Request where
  opcode : UInt8
  key : Bytes := []
  value : Bytes := []
  flag : UInt32 := 0
  expiry : UInt32 := 0
  cas : UInt64 := 0
  deriving DecidableEq, Repr

/-- Decode a frame: the extras are the flag and the expiry, then comes the key, and the rest is the
value. -/
def decodeRequest (frame : Bytes) : Request :=
  let h := ProtocolHeader.ofBytes frame
  let extras := (frame.drop headerSize).take h.extraLength.toNat
  let body := frame.drop (headerSize + h.extraLength.toNat)
  { opcode := h.opcode
    key := body.take h.keyLength.toNat
    value := body.drop h.keyLength.toNat
    flag := .ofNat (ProtocolHeader.field extras 0 4)
    expiry := .ofNat (ProtocolHeader.field extras 4 4)
    cas := h.cas }

theorem frameSize_eq_some_iff {magic : UInt8} {bs : Bytes} {n : ℕ} :
    frameSize magic bs = some n ↔ headerSize ≤ bs.length ∧
      (ProtocolHeader.ofBytes bs).magic = magic ∧
      n = headerSize + (ProtocolHeader.ofBytes bs).totalBodyLength.toNat := by
  rw [frameSize]
  split_ifs with hlen hmagic
  · simp only [false_iff, not_and]
    intro h
    omega
  · rw [Option.some.injEq, eq_comm]
    exact ⟨fun h ↦ ⟨not_lt.mp hlen, hmagic, h⟩, fun h ↦ h.2.2⟩
  · simp only [false_iff, not_and]
    exact fun _ h ↦ absurd h hmagic

/-- A frame whose header gives its length delimits itself. -/
theorem delimits_of_frameSize {magic : UInt8} {f : Bytes}
    (h : frameSize magic f = some f.length) : Framing.Delimits (frameSize magic) f := by
  obtain ⟨hlen, hmagic, hsize⟩ := frameSize_eq_some_iff.mp h
  refine ⟨?_, fun rest ↦ ?_⟩
  · rintro rfl
    exact absurd hlen (by decide)
  · rw [frameSize_eq_some_iff, ProtocolHeader.ofBytes_append f rest hlen]
    refine ⟨?_, hmagic, hsize⟩
    rw [List.length_append]
    omega

/-- A header that gives the length of the body after it. -/
theorem frameSize_toBytes_append {h : ProtocolHeader} {body : Bytes}
    (htotal : h.totalBodyLength.toNat = body.length) :
    frameSize h.magic (h.toBytes ++ body) = some (h.toBytes ++ body).length := by
  rw [frameSize_eq_some_iff, ProtocolHeader.ofBytes_toBytes, List.length_append,
    ProtocolHeader.length_toBytes, htotal]
  exact ⟨Nat.le_add_right _ _, rfl, rfl⟩

/-- A header that gives the lengths of the extras and the key after it. -/
theorem decodeRequest_toBytes_append {h : ProtocolHeader} {extras key value : Bytes}
    (hextra : h.extraLength.toNat = extras.length) (hkey : h.keyLength.toNat = key.length) :
    decodeRequest (h.toBytes ++ (extras ++ (key ++ value))) =
      ⟨h.opcode, key, value, .ofNat (ProtocolHeader.field extras 0 4),
        .ofNat (ProtocolHeader.field extras 4 4), h.cas⟩ := by
  have hdrop : (h.toBytes ++ (extras ++ (key ++ value))).drop headerSize
      = extras ++ (key ++ value) := List.drop_left' h.length_toBytes
  simp only [decodeRequest, ProtocolHeader.ofBytes_toBytes, ← List.drop_drop, hdrop, hextra, hkey,
    List.take_left, List.drop_left]

/-! ## The round trip -/

namespace RequestCall

/-- The arguments fit the widths of the header fields. -/
def Fits : RequestCall → Prop
  | .get key => key.length ≤ 65535
  | .set key value _ _ _ => key.length ≤ 65535 ∧ key.length + value.length + 8 < 2 ^ 32
  | .noop => True

/-- What the call asks for. -/
def request : RequestCall → Request
  | .get key => { opcode := Commands.get.toUInt8, key := key }
  | .set key value flag expiry cas => ⟨Commands.set.toUInt8, key, value, flag, expiry, cas⟩
  | .noop => { opcode := Commands.noop.toUInt8 }

/-- The frame that the call appends. -/
def frame (c : RequestCall) : Bytes := (RequestPacket.add {} c).command

variable {c : RequestCall}

theorem command_add (p : RequestPacket) (c : RequestCall) :
    (p.add c).command = p.command ++ c.frame := by
  rcases c with key | ⟨key, value, flag, expiry, cas⟩ | _
  · exact List.append_assoc _ _ _
  · simp [RequestPacket.add, RequestPacket.set, frame]
  · rfl

theorem num_add (p : RequestPacket) (c : RequestCall) : (p.add c).num = p.num + 1 := by
  rcases c with key | ⟨key, value, flag, expiry, cas⟩ | _ <;> rfl

/-- The header of the frame. -/
def header : RequestCall → ProtocolHeader
  | .get key => {
      magic := requestMagic
      opcode := Commands.get.toUInt8
      keyLength := .ofNat key.length
      totalBodyLength := .ofNat key.length }
  | .set key value _ _ cas => {
      magic := requestMagic
      opcode := Commands.set.toUInt8
      keyLength := .ofNat key.length
      extraLength := 8
      totalBodyLength := .ofNat (key.length + value.length + 8)
      cas := cas }
  | .noop => { magic := requestMagic, opcode := Commands.noop.toUInt8 }

/-- The extras of the frame. -/
def extras : RequestCall → Bytes
  | .set _ _ flag expiry _ => BigEndian.encode 4 flag.toNat ++ BigEndian.encode 4 expiry.toNat
  | _ => []

theorem frame_eq (c : RequestCall) :
    c.frame = c.header.toBytes ++ (c.extras ++ (c.request.key ++ c.request.value)) := by
  rcases c with key | ⟨key, value, flag, expiry, cas⟩ | _
  · simp [frame, RequestPacket.add, RequestPacket.get, header, extras, request]
  · simp [frame, RequestPacket.add, RequestPacket.set, header, extras, request]
  · rfl

/-- The three lengths in the header, none of which is cut. -/
theorem header_lengths (hc : c.Fits) :
    c.header.keyLength.toNat = c.request.key.length ∧
      c.header.extraLength.toNat = c.extras.length ∧
      c.header.totalBodyLength.toNat
        = (c.extras ++ (c.request.key ++ c.request.value)).length := by
  rcases c with key | ⟨key, value, flag, expiry, cas⟩ | _
  · have hc : key.length ≤ 65535 := hc
    refine ⟨UInt16.toNat_ofNat_of_lt' (by rw [UInt16.size]; omega), rfl, ?_⟩
    refine (UInt32.toNat_ofNat_of_lt' (by rw [UInt32.size]; omega)).trans ?_
    simp [extras, request]
  · obtain ⟨hkey, htotal⟩ := hc
    refine ⟨UInt16.toNat_ofNat_of_lt' (by rw [UInt16.size]; omega), rfl, ?_⟩
    refine (UInt32.toNat_ofNat_of_lt' (by rw [UInt32.size]; omega)).trans ?_
    simp only [extras, request, List.length_append, BigEndian.length_encode]
    omega
  · exact ⟨rfl, rfl, rfl⟩

/-- The flag and the expiry in the extras. -/
theorem field_extras (c : RequestCall) :
    UInt32.ofNat (ProtocolHeader.field c.extras 0 4) = c.request.flag ∧
      UInt32.ofNat (ProtocolHeader.field c.extras 4 4) = c.request.expiry := by
  rcases c with key | ⟨key, value, flag, expiry, cas⟩ | _
  · exact ⟨rfl, rfl⟩
  · have hflag := flag.toNat_lt
    have hexpiry := expiry.toNat_lt
    rw [extras, ProtocolHeader.field_zero_encode _ (by omega),
      ProtocolHeader.field_encode_append _ le_rfl, ← List.append_nil (BigEndian.encode 4 _),
      ProtocolHeader.field_zero_encode _ (by omega)]
    exact ⟨UInt32.ofNat_toNat, UInt32.ofNat_toNat⟩
  · exact ⟨rfl, rfl⟩

/-- The frame delimits itself. -/
theorem delimits_frame (hc : c.Fits) : Framing.Delimits (frameSize requestMagic) c.frame := by
  have hmagic : c.header.magic = requestMagic := by
    rcases c with key | ⟨key, value, flag, expiry, cas⟩ | _ <;> rfl
  apply delimits_of_frameSize
  rw [← hmagic, frame_eq]
  exact frameSize_toBytes_append (header_lengths hc).2.2

/-- The frame decodes to its call. -/
theorem decodeRequest_frame (hc : c.Fits) : decodeRequest c.frame = c.request := by
  obtain ⟨hkey, hextra, -⟩ := header_lengths hc
  rw [frame_eq, decodeRequest_toBytes_append hextra hkey, (field_extras c).1, (field_extras c).2]
  rcases c with key | ⟨key, value, flag, expiry, cas⟩ | _ <;> rfl

end RequestCall

/-- What a `RequestPacket` holds: the frames of the requests since the last `Reset`, and their
number. -/
theorem command_eq (calls : List PacketCall) :
    (calls.foldl RequestPacket.call {}).command
        = ((sinceReset calls).map RequestCall.frame).flatten ∧
      (calls.foldl RequestPacket.call {}).num = (sinceReset calls).length := by
  induction calls using List.reverseRecOn with
  | nil => exact ⟨rfl, rfl⟩
  | append_singleton calls c ih =>
    simp only [sinceReset, List.foldl_append, List.foldl_cons, List.foldl_nil]
    rw [← sinceReset]
    rcases c with _ | c
    · exact ⟨rfl, rfl⟩
    · simp only [RequestPacket.call]
      rw [RequestCall.command_add, RequestCall.num_add, ih.1, ih.2, List.map_append,
        List.flatten_append, List.length_append]
      exact ⟨by simp, rfl⟩

/-- **Requests round-trip.** For every sequence of calls whose requests since the last `Reset` fit
the header fields, `Command()` is cut exactly into one frame for each of them, `NumCommands()` in
all, and the frames decode to what was asked for, in the order of the calls. -/
theorem request_roundtrip (calls : List PacketCall) (h : ∀ c ∈ sinceReset calls, c.Fits) :
    ∃ frames, Framing.split (frameSize requestMagic)
        (calls.foldl RequestPacket.call {}).command = some frames ∧
      frames.length = (calls.foldl RequestPacket.call {}).numCommands ∧
      frames.map decodeRequest = (sinceReset calls).map RequestCall.request := by
  obtain ⟨hcommand, hnum⟩ := command_eq calls
  refine ⟨(sinceReset calls).map RequestCall.frame, ?_, ?_, ?_⟩
  · rw [hcommand]
    apply Framing.split_flatten
    intro f hf
    obtain ⟨c, hc, rfl⟩ := List.mem_map.mp hf
    exact RequestCall.delimits_frame (h c hc)
  · rw [List.length_map, RequestPacket.numCommands, hnum]
  · rw [List.map_map]
    exact List.map_congr_left fun c hc ↦ RequestCall.decodeRequest_frame (h c hc)

/-- A value is stored and read back. -/
theorem request_roundtrip_setGet : ∃ frames, Framing.split (frameSize requestMagic)
      ([PacketCall.add .noop, .reset, .add (.set [107] [49, 50] 1 2 3), .add (.get [107])].foldl
        RequestPacket.call {}).command = some frames ∧
    frames.length = 2 ∧
    frames.map decodeRequest = [⟨1, [107], [49, 50], 1, 2, 3⟩, { opcode := 0, key := [107] }] := by
  refine request_roundtrip
    [.add .noop, .reset, .add (.set [107] [49, 50] 1 2 3), .add (.get [107])] ?_
  simp [sinceReset, RequestCall.Fits]

end MemcacheRouter.Routerlib
