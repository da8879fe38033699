import Mathlib.Algebra.BigOperators.Group.List.Basic
import MemcacheRouter.Foundations.TaggedFields
import MemcacheRouter.Wire.Message

/-!
# The code generated from `memdata.proto`

The five messages with all their fields, at the widths the description gives them, and the
functions of `memdata.pb.cc`: the loop that reads a message, given by the table of its cases with
the tags each of them guesses, `SerializeWithCachedSizes`, `ByteSize` and `MergeFrom`. The library
these call is a `Runtime`; `U` is the type of the fields it skips. A `double` is its bits. The
library gives up on a message of 64 MiB, so that what is said of a parser here is said of shorter
inputs.

The sizes are naturals where the code has an `int`: the library refuses to write a message whose
size does not fit.
-/

namespace MemcacheRouter.Memdata

open TaggedFields

/-- `kDefaultTotalBytesLimit`: an input is read as far as this. -/
def totalBytesLimit : ℕ := 64 * 2 ^ 20

structure KeyValue (U : Type) where
  key? : Option Bytes := none
  val? : Option Bytes := none
  flags? : Option UInt32 := none
  expireInSeconds? : Option UInt64 := none
  cas? : Option UInt64 := none
  allowReplace? : Option Bool := none
  defaultCounterVal? : Option UInt64 := none
  offset? : Option Int32 := none
  counterVal? : Option UInt64 := none
  serverIndex? : Option Int32 := none
  noPropagate? : Option Bool := none
  returnCode? : Option Int32 := none
  returnError? : Option Bytes := none
  unknownFields : List U := []
  deriving DecidableEq

structure Server (U : Type) where
  hostname? : Option Bytes := none
  port? : Option Int32 := none
  unknownFields : List U := []
  deriving DecidableEq

structure Breakdown (U : Type) where
  average? : Option UInt64 := none
  count? : Option UInt64 := none
  unknownFields : List U := []
  deriving DecidableEq

structure Stats (U : Type) where
  pushLatency? : Option (Breakdown U) := none
  popLatency? : Option (Breakdown U) := none
  batchSize? : Option (Breakdown U) := none
  loopLatency? : Option (Breakdown U) := none
  packetLatency? : Option (Breakdown U) := none
  cacheHit? : Option (Breakdown U) := none
  cacheMiss? : Option (Breakdown U) := none
  touch? : Option Bool := none
  unknownFields : List U := []
  deriving DecidableEq

structure Instruction (U : Type) where
  getKeys : List (KeyValue U) := []
  setKeys : List (KeyValue U) := []
  incrKeys : List (KeyValue U) := []
  servers : List (Server U) := []
  stats? : Option (Stats U) := none
  unknownFields : List U := []
  deriving DecidableEq

variable {U M N : Type}

/-! ## Reading -/

/-- `mutable_stats` and its like: an embedded message that is not set starts empty. -/
def embedded (rt : Runtime U) (sub : Table N U) (empty : N) (slot : Slot M (Option N))
    (number : ℕ) (expect : List (ℕ × ℕ)) (last : Bool := false) : FieldCase M :=
  .message rt sub (fun m ↦ (slot.get m).getD empty) (fun m n ↦ slot.set m (some n))
    number expect last

/-- `add_get_keys` and its like: an element of a repeated field starts empty. -/
def repeated (rt : Runtime U) (sub : Table N U) (empty : N) (slot : Slot M (List N))
    (number : ℕ) (expect : List (ℕ × ℕ)) : FieldCase M :=
  .message rt sub (fun _ ↦ empty) (fun m n ↦ slot.set m (slot.get m ++ [n])) number expect false

namespace KeyValue

/-- The switch of `KeyValue::MergePartialFromCodedStream`. -/
def table (rt : Runtime U) : Table (KeyValue U) U where
  cases := [
    .optional rt.string ⟨key?, fun m v ↦ { m with key? := v }, fun _ ↦ rfl⟩
      1 lengthDelimited [(18, 2)],
    .optional rt.string ⟨val?, fun m v ↦ { m with val? := v }, fun _ ↦ rfl⟩
      2 lengthDelimited [(24, 3)],
    .optional rt.uint32 ⟨flags?, fun m v ↦ { m with flags? := v }, fun _ ↦ rfl⟩
      3 varint [(32, 4)],
    .optional rt.uint64 ⟨expireInSeconds?, fun m v ↦ { m with expireInSeconds? := v }, fun _ ↦ rfl⟩
      4 varint [(40, 5)],
    .optional rt.uint64 ⟨cas?, fun m v ↦ { m with cas? := v }, fun _ ↦ rfl⟩
      5 varint [(48, 6)],
    .optional rt.bool ⟨allowReplace?, fun m v ↦ { m with allowReplace? := v }, fun _ ↦ rfl⟩
      6 varint [(56, 7)],
    .optional rt.uint64
      ⟨defaultCounterVal?, fun m v ↦ { m with defaultCounterVal? := v }, fun _ ↦ rfl⟩
      7 varint [(64, 8)],
    .optional rt.int32 ⟨offset?, fun m v ↦ { m with offset? := v }, fun _ ↦ rfl⟩
      8 varint [(72, 9)],
    .optional rt.uint64 ⟨counterVal?, fun m v ↦ { m with counterVal? := v }, fun _ ↦ rfl⟩
      9 varint [(80, 10)],
    .optional rt.int32 ⟨serverIndex?, fun m v ↦ { m with serverIndex? := v }, fun _ ↦ rfl⟩
      10 varint [(88, 11)],
    .optional rt.bool ⟨noPropagate?, fun m v ↦ { m with noPropagate? := v }, fun _ ↦ rfl⟩
      11 varint [(112, 14)],
    .optional rt.int32 ⟨returnCode?, fun m v ↦ { m with returnCode? := v }, fun _ ↦ rfl⟩
      14 varint [(122, 15)],
    .optional rt.string ⟨returnError?, fun m v ↦ { m with returnError? := v }, fun _ ↦ rfl⟩
      15 lengthDelimited [] true]
  addUnknown m u := { m with unknownFields := m.unknownFields ++ [u] }
  depth := 1

end KeyValue

namespace Server

def table (rt : Runtime U) : Table (Server U) U where
  cases := [
    .optional rt.string ⟨hostname?, fun m v ↦ { m with hostname? := v }, fun _ ↦ rfl⟩
      1 lengthDelimited [(16, 2)],
    .optional rt.int32 ⟨port?, fun m v ↦ { m with port? := v }, fun _ ↦ rfl⟩
      2 varint [] true]
  addUnknown m u := { m with unknownFields := m.unknownFields ++ [u] }
  depth := 1

end Server

namespace Breakdown

def table (rt : Runtime U) : Table (Breakdown U) U where
  cases := [
    .optional rt.double ⟨average?, fun m v ↦ { m with average? := v }, fun _ ↦ rfl⟩
      1 fixed64 [(16, 2)],
    .optional rt.uint64 ⟨count?, fun m v ↦ { m with count? := v }, fun _ ↦ rfl⟩
      2 varint [] true]
  addUnknown m u := { m with unknownFields := m.unknownFields ++ [u] }
  depth := 2

end Breakdown

namespace Stats

def table (rt : Runtime U) : Table (Stats U) U where
  cases := [
    embedded rt (Breakdown.table rt) {}
      ⟨pushLatency?, fun m v ↦ { m with pushLatency? := v }, fun _ ↦ rfl⟩ 1 [(18, 2)],
    embedded rt (Breakdown.table rt) {}
      ⟨popLatency?, fun m v ↦ { m with popLatency? := v }, fun _ ↦ rfl⟩ 2 [(26, 3)],
    embedded rt (Breakdown.table rt) {}
      ⟨batchSize?, fun m v ↦ { m with batchSize? := v }, fun _ ↦ rfl⟩ 3 [(34, 4)],
    embedded rt (Breakdown.table rt) {}
      ⟨loopLatency?, fun m v ↦ { m with loopLatency? := v }, fun _ ↦ rfl⟩ 4 [(42, 5)],
    embedded rt (Breakdown.table rt) {}
      ⟨packetLatency?, fun m v ↦ { m with packetLatency? := v }, fun _ ↦ rfl⟩ 5 [(50, 6)],
    embedded rt (Breakdown.table rt) {}
      ⟨cacheHit?, fun m v ↦ { m with cacheHit? := v }, fun _ ↦ rfl⟩ 6 [(58, 7)],
    embedded rt (Breakdown.table rt) {}
      ⟨cacheMiss?, fun m v ↦ { m with cacheMiss? := v }, fun _ ↦ rfl⟩ 7 [(800, 100)],
    .optional rt.bool ⟨touch?, fun m v ↦ { m with touch? := v }, fun _ ↦ rfl⟩
      100 varint [] true]
  addUnknown m u := { m with unknownFields := m.unknownFields ++ [u] }
  depth := 1

end Stats

namespace Instruction

def table (rt : Runtime U) : Table (Instruction U) U where
  cases := [
    repeated rt (KeyValue.table rt) {}
      ⟨getKeys, fun m v ↦ { m with getKeys := v }, fun _ ↦ rfl⟩ 1 [(10, 1), (18, 2)],
    repeated rt (KeyValue.table rt) {}
      ⟨setKeys, fun m v ↦ { m with setKeys := v }, fun _ ↦ rfl⟩ 2 [(18, 2), (26, 3)],
    repeated rt (KeyValue.table rt) {}
      ⟨incrKeys, fun m v ↦ { m with incrKeys := v }, fun _ ↦ rfl⟩ 3 [(26, 3), (34, 4)],
    repeated rt (Server.table rt) {}
      ⟨servers, fun m v ↦ { m with servers := v }, fun _ ↦ rfl⟩ 4 [(34, 4), (42, 5)],
    embedded rt (Stats.table rt) {}
      ⟨stats?, fun m v ↦ { m with stats? := v }, fun _ ↦ rfl⟩ 5 [] true]
  addUnknown m u := { m with unknownFields := m.unknownFields ++ [u] }

/-- `ParseFromArray`. -/
def parseFromArray (rt : Runtime U) (data : Bytes) : Option (Instruction U) :=
  (table rt).mergeFromBytes rt {} data

end Instruction

/-! ## Sizes -/

/-- The size of an optional field whose tag has `tagSize` bytes. -/
def optionalSize {α : Type} (tagSize : ℕ) (size : α → ℕ) (o : Option α) : ℕ :=
  o.elim 0 fun a ↦ tagSize + size a

/-- `MessageSizeNoVirtual`. -/
def messageSize (rt : Runtime U) (byteSize : N → ℕ) (n : N) : ℕ :=
  rt.lengthSize (byteSize n) + byteSize n

/-- The size of a repeated field of messages, with one byte for each tag. -/
def repeatedSize (rt : Runtime U) (byteSize : N → ℕ) (ns : List N) : ℕ :=
  1 * ns.length + (ns.map (messageSize rt byteSize)).sum

/-- `ComputeUnknownFieldsSize`. -/
def unknownFieldsSize (rt : Runtime U) (us : List U) : ℕ := (us.map rt.unknownSize).sum

/-- `KeyValue::ByteSize`. -/
def KeyValue.byteSize (rt : Runtime U) (kv : KeyValue U) : ℕ :=
  optionalSize 1 rt.string.size kv.key? +
  optionalSize 1 rt.string.size kv.val? +
  optionalSize 1 rt.uint32.size kv.flags? +
  optionalSize 1 rt.uint64.size kv.expireInSeconds? +
  optionalSize 1 rt.uint64.size kv.cas? +
  optionalSize 1 (fun _ ↦ 1) kv.allowReplace? +
  optionalSize 1 rt.uint64.size kv.defaultCounterVal? +
  optionalSize 1 rt.int32.size kv.offset? +
  optionalSize 1 rt.uint64.size kv.counterVal? +
  optionalSize 1 rt.int32.size kv.serverIndex? +
  optionalSize 1 (fun _ ↦ 1) kv.noPropagate? +
  optionalSize 1 rt.int32.size kv.returnCode? +
  optionalSize 1 rt.string.size kv.returnError? +
  unknownFieldsSize rt kv.unknownFields

def Server.byteSize (rt : Runtime U) (s : Server U) : ℕ :=
  optionalSize 1 rt.string.size s.hostname? +
  optionalSize 1 rt.int32.size s.port? +
  unknownFieldsSize rt s.unknownFields

def Breakdown.byteSize (rt : Runtime U) (b : Breakdown U) : ℕ :=
  optionalSize 1 (fun _ ↦ 8) b.average? +
  optionalSize 1 rt.uint64.size b.count? +
  unknownFieldsSize rt b.unknownFields

def Stats.byteSize (rt : Runtime U) (s : Stats U) : ℕ :=
  optionalSize 1 (messageSize rt (Breakdown.byteSize rt)) s.pushLatency? +
  optionalSize 1 (messageSize rt (Breakdown.byteSize rt)) s.popLatency? +
  optionalSize 1 (messageSize rt (Breakdown.byteSize rt)) s.batchSize? +
  optionalSize 1 (messageSize rt (Breakdown.byteSize rt)) s.loopLatency? +
  optionalSize 1 (messageSize rt (Breakdown.byteSize rt)) s.packetLatency? +
  optionalSize 1 (messageSize rt (Breakdown.byteSize rt)) s.cacheHit? +
  optionalSize 1 (messageSize rt (Breakdown.byteSize rt)) s.cacheMiss? +
  optionalSize 2 (fun _ ↦ 1) s.touch? +
  unknownFieldsSize rt s.unknownFields

def Instruction.byteSize (rt : Runtime U) (i : Instruction U) : ℕ :=
  optionalSize 1 (messageSize rt (Stats.byteSize rt)) i.stats? +
  repeatedSize rt (KeyValue.byteSize rt) i.getKeys +
  repeatedSize rt (KeyValue.byteSize rt) i.setKeys +
  repeatedSize rt (KeyValue.byteSize rt) i.incrKeys +
  repeatedSize rt (Server.byteSize rt) i.servers +
  unknownFieldsSize rt i.unknownFields

/-! ## Writing -/

/-- `SerializeUnknownFields`. -/
def writeUnknownFields (rt : Runtime U) (us : List U) : Bytes := us.flatMap rt.writeUnknown

/-- `WriteMessageMaybeToArray`: the length is the size computed by `ByteSize`. -/
def writeSized (rt : Runtime U) (byteSize : N → ℕ) (serialize : N → Bytes) (number : ℕ) (n : N) :
    Bytes :=
  writeMessage rt number (byteSize n) (serialize n)

/-- `KeyValue::SerializeWithCachedSizes`. -/
def KeyValue.serialize (rt : Runtime U) (kv : KeyValue U) : Bytes :=
  writeOptional rt 1 lengthDelimited rt.string kv.key? ++
  (writeOptional rt 2 lengthDelimited rt.string kv.val? ++
  (writeOptional rt 3 varint rt.uint32 kv.flags? ++
  (writeOptional rt 4 varint rt.uint64 kv.expireInSeconds? ++
  (writeOptional rt 5 varint rt.uint64 kv.cas? ++
  (writeOptional rt 6 varint rt.bool kv.allowReplace? ++
  (writeOptional rt 7 varint rt.uint64 kv.defaultCounterVal? ++
  (writeOptional rt 8 varint rt.int32 kv.offset? ++
  (writeOptional rt 9 varint rt.uint64 kv.counterVal? ++
  (writeOptional rt 10 varint rt.int32 kv.serverIndex? ++
  (writeOptional rt 11 varint rt.bool kv.noPropagate? ++
  (writeOptional rt 14 varint rt.int32 kv.returnCode? ++
  (writeOptional rt 15 lengthDelimited rt.string kv.returnError? ++
  writeUnknownFields rt kv.unknownFields))))))))))))

def Server.serialize (rt : Runtime U) (s : Server U) : Bytes :=
  writeOptional rt 1 lengthDelimited rt.string s.hostname? ++
  (writeOptional rt 2 varint rt.int32 s.port? ++
  writeUnknownFields rt s.unknownFields)

def Breakdown.serialize (rt : Runtime U) (b : Breakdown U) : Bytes :=
  writeOptional rt 1 fixed64 rt.double b.average? ++
  (writeOptional rt 2 varint rt.uint64 b.count? ++
  writeUnknownFields rt b.unknownFields)

/-- An embedded `Breakdown` is written if it is set. -/
def writeBreakdown (rt : Runtime U) (number : ℕ) (b : Option (Breakdown U)) : Bytes :=
  b.elim [] (writeSized rt (Breakdown.byteSize rt) (Breakdown.serialize rt) number)

def Stats.serialize (rt : Runtime U) (s : Stats U) : Bytes :=
  writeBreakdown rt 1 s.pushLatency? ++
  (writeBreakdown rt 2 s.popLatency? ++
  (writeBreakdown rt 3 s.batchSize? ++
  (writeBreakdown rt 4 s.loopLatency? ++
  (writeBreakdown rt 5 s.packetLatency? ++
  (writeBreakdown rt 6 s.cacheHit? ++
  (writeBreakdown rt 7 s.cacheMiss? ++
  (writeOptional rt 100 varint rt.bool s.touch? ++
  writeUnknownFields rt s.unknownFields)))))))

def Instruction.serialize (rt : Runtime U) (i : Instruction U) : Bytes :=
  i.getKeys.flatMap (writeSized rt (KeyValue.byteSize rt) (KeyValue.serialize rt) 1) ++
  (i.setKeys.flatMap (writeSized rt (KeyValue.byteSize rt) (KeyValue.serialize rt) 2) ++
  (i.incrKeys.flatMap (writeSized rt (KeyValue.byteSize rt) (KeyValue.serialize rt) 3) ++
  (i.servers.flatMap (writeSized rt (Server.byteSize rt) (Server.serialize rt) 4) ++
  (i.stats?.elim [] (writeSized rt (Stats.byteSize rt) (Stats.serialize rt) 5) ++
  writeUnknownFields rt i.unknownFields))))

/-! ## Merging -/

/-- A scalar that is set in `from_` wins. -/
def KeyValue.mergeFrom (m from_ : KeyValue U) : KeyValue U where
  key? := from_.key? <|> m.key?
  val? := from_.val? <|> m.val?
  flags? := from_.flags? <|> m.flags?
  expireInSeconds? := from_.expireInSeconds? <|> m.expireInSeconds?
  cas? := from_.cas? <|> m.cas?
  allowReplace? := from_.allowReplace? <|> m.allowReplace?
  defaultCounterVal? := from_.defaultCounterVal? <|> m.defaultCounterVal?
  offset? := from_.offset? <|> m.offset?
  counterVal? := from_.counterVal? <|> m.counterVal?
  serverIndex? := from_.serverIndex? <|> m.serverIndex?
  noPropagate? := from_.noPropagate? <|> m.noPropagate?
  returnCode? := from_.returnCode? <|> m.returnCode?
  returnError? := from_.returnError? <|> m.returnError?
  unknownFields := m.unknownFields ++ from_.unknownFields

def Server.mergeFrom (m from_ : Server U) : Server U where
  hostname? := from_.hostname? <|> m.hostname?
  port? := from_.port? <|> m.port?
  unknownFields := m.unknownFields ++ from_.unknownFields

def Breakdown.mergeFrom (m from_ : Breakdown U) : Breakdown U where
  average? := from_.average? <|> m.average?
  count? := from_.count? <|> m.count?
  unknownFields := m.unknownFields ++ from_.unknownFields

/-- An embedded message that is set in `from_` is merged into the one that is there. -/
def mergeEmbedded (empty : N) (mergeFrom : N → N → N) (m from_ : Option N) : Option N :=
  from_.elim m fun n ↦ some (mergeFrom (m.getD empty) n)

def Stats.mergeFrom (m from_ : Stats U) : Stats U where
  pushLatency? := mergeEmbedded {} Breakdown.mergeFrom m.pushLatency? from_.pushLatency?
  popLatency? := mergeEmbedded {} Breakdown.mergeFrom m.popLatency? from_.popLatency?
  batchSize? := mergeEmbedded {} Breakdown.mergeFrom m.batchSize? from_.batchSize?
  loopLatency? := mergeEmbedded {} Breakdown.mergeFrom m.loopLatency? from_.loopLatency?
  packetLatency? := mergeEmbedded {} Breakdown.mergeFrom m.packetLatency? from_.packetLatency?
  cacheHit? := mergeEmbedded {} Breakdown.mergeFrom m.cacheHit? from_.cacheHit?
  cacheMiss? := mergeEmbedded {} Breakdown.mergeFrom m.cacheMiss? from_.cacheMiss?
  touch? := from_.touch? <|> m.touch?
  unknownFields := m.unknownFields ++ from_.unknownFields

def Instruction.mergeFrom (m from_ : Instruction U) : Instruction U where
  getKeys := m.getKeys ++ from_.getKeys
  setKeys := m.setKeys ++ from_.setKeys
  incrKeys := m.incrKeys ++ from_.incrKeys
  servers := m.servers ++ from_.servers
  stats? := mergeEmbedded {} Stats.mergeFrom m.stats? from_.stats?
  unknownFields := m.unknownFields ++ from_.unknownFields

end MemcacheRouter.Memdata
