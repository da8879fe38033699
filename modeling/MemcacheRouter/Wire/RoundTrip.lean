import Mathlib.Algebra.Order.BigOperators.Group.List
import Mathlib.Algebra.Order.Group.Nat
import MemcacheRouter.Wire.Memdata

/-!
# Messages on the wire

The generated functions agree with each other: `ByteSize` is the length of what
`SerializeWithCachedSizes` writes, reading what one message wrote into another one is `MergeFrom`,
and everything that can be read can be written and read again. The tags a case guesses speed the
loop up and do nothing else.
-/

namespace MemcacheRouter.Memdata

open TaggedFields

variable {U M N : Type} {rt : Runtime U} {limit : ℕ}

/-! ## The tables -/

section Tables

open FieldCase

theorem KeyValue.coherent (hrt : rt.Sound limit) : (KeyValue.table rt).Coherent limit := by
  refine .of_shape (of_decide_eq_true rfl) ?_
  simp only [table, List.forall_mem_cons]
  exact ⟨shortens_optional hrt.string_shortens, shortens_optional hrt.string_shortens,
    shortens_optional hrt.uint32_shortens, shortens_optional hrt.uint64_shortens,
    shortens_optional hrt.uint64_shortens, shortens_optional hrt.bool_shortens,
    shortens_optional hrt.uint64_shortens, shortens_optional hrt.int32_shortens,
    shortens_optional hrt.uint64_shortens, shortens_optional hrt.int32_shortens,
    shortens_optional hrt.bool_shortens, shortens_optional hrt.int32_shortens,
    shortens_optional hrt.string_shortens, List.forall_mem_nil _⟩

theorem Server.coherent (hrt : rt.Sound limit) : (Server.table rt).Coherent limit := by
  refine .of_shape (of_decide_eq_true rfl) ?_
  simp only [table, List.forall_mem_cons]
  exact ⟨shortens_optional hrt.string_shortens, shortens_optional hrt.int32_shortens,
    List.forall_mem_nil _⟩

theorem Breakdown.coherent (hrt : rt.Sound limit) : (Breakdown.table rt).Coherent limit := by
  refine .of_shape (of_decide_eq_true rfl) ?_
  simp only [table, List.forall_mem_cons]
  exact ⟨shortens_optional hrt.double_shortens, shortens_optional hrt.uint64_shortens,
    List.forall_mem_nil _⟩

theorem Stats.coherent (hrt : rt.Sound limit) : (Stats.table rt).Coherent limit := by
  refine .of_shape (of_decide_eq_true rfl) ?_
  simp only [table, embedded, List.forall_mem_cons]
  exact ⟨shortens_message hrt, shortens_message hrt, shortens_message hrt, shortens_message hrt,
    shortens_message hrt, shortens_message hrt, shortens_message hrt,
    shortens_optional hrt.bool_shortens, List.forall_mem_nil _⟩

theorem Instruction.coherent (hrt : rt.Sound limit) : (Instruction.table rt).Coherent limit := by
  refine .of_shape (of_decide_eq_true rfl) ?_
  simp only [table, embedded, repeated, List.forall_mem_cons]
  exact ⟨shortens_message hrt, shortens_message hrt, shortens_message hrt, shortens_message hrt,
    shortens_message hrt, List.forall_mem_nil _⟩

end Tables

/-! ## Messages that can be read -/

/-- A string the library reads. -/
def ShortString (o : Option Bytes) : Prop := ∀ s ∈ o, s.length < 2 ^ 31

structure KeyValue.WellFormed (rt : Runtime U) (limit : ℕ) (kv : KeyValue U) : Prop where
  key : ShortString kv.key?
  val : ShortString kv.val?
  returnError : ShortString kv.returnError?
  unknownFields : UnknownKept rt limit (KeyValue.table rt) kv.unknownFields

structure Server.WellFormed (rt : Runtime U) (limit : ℕ) (s : Server U) : Prop where
  hostname : ShortString s.hostname?
  unknownFields : UnknownKept rt limit (Server.table rt) s.unknownFields

def Breakdown.WellFormed (rt : Runtime U) (limit : ℕ) (b : Breakdown U) : Prop :=
  UnknownKept rt limit (Breakdown.table rt) b.unknownFields

structure Stats.WellFormed (rt : Runtime U) (limit : ℕ) (s : Stats U) : Prop where
  pushLatency : ∀ b ∈ s.pushLatency?, Breakdown.WellFormed rt limit b
  popLatency : ∀ b ∈ s.popLatency?, Breakdown.WellFormed rt limit b
  batchSize : ∀ b ∈ s.batchSize?, Breakdown.WellFormed rt limit b
  loopLatency : ∀ b ∈ s.loopLatency?, Breakdown.WellFormed rt limit b
  packetLatency : ∀ b ∈ s.packetLatency?, Breakdown.WellFormed rt limit b
  cacheHit : ∀ b ∈ s.cacheHit?, Breakdown.WellFormed rt limit b
  cacheMiss : ∀ b ∈ s.cacheMiss?, Breakdown.WellFormed rt limit b
  unknownFields : UnknownKept rt limit (Stats.table rt) s.unknownFields

structure Instruction.WellFormed (rt : Runtime U) (limit : ℕ) (i : Instruction U) : Prop where
  getKeys : ∀ kv ∈ i.getKeys, KeyValue.WellFormed rt limit kv
  setKeys : ∀ kv ∈ i.setKeys, KeyValue.WellFormed rt limit kv
  incrKeys : ∀ kv ∈ i.incrKeys, KeyValue.WellFormed rt limit kv
  servers : ∀ s ∈ i.servers, Server.WellFormed rt limit s
  stats : ∀ s ∈ i.stats?, Stats.WellFormed rt limit s
  unknownFields : UnknownKept rt limit (Instruction.table rt) i.unknownFields

/-! ## Sizes -/

variable {α : Type} {s : Scalar α} {number wireType : ℕ} {o : Option α}

theorem length_writeOptional {Fits : α → Prop} (hs : s.Lawful limit Fits) (ho : ∀ a ∈ o, Fits a)
    {tagSize : ℕ} (htag : (rt.writeTag number wireType).length = tagSize) :
    (writeOptional rt number wireType s o).length = optionalSize tagSize s.size o := by
  rcases o with _ | a
  · rfl
  · rw [writeOptional, optionalSize, Option.elim_some, Option.elim_some, writeField,
      List.length_append, htag, hs.length_write (ho a rfl)]

/-- The numbers up to 15 have tags of one byte. -/
theorem length_writeOptional_one (hrt : rt.Lawful limit) {Fits : α → Prop}
    (hs : s.Lawful limit Fits) (ho : ∀ a ∈ o, Fits a) (hn : number < 16) (hw : wireType < 8) :
    (writeOptional rt number wireType s o).length = optionalSize 1 s.size o :=
  length_writeOptional hs ho (hrt.length_writeTag hn hw)

theorem length_writeUnknownFields (hrt : rt.Lawful limit) (us : List U) :
    (writeUnknownFields rt us).length = unknownFieldsSize rt us := by
  rw [writeUnknownFields, List.length_flatMap, unknownFieldsSize]
  exact congrArg List.sum (List.map_congr_left fun u _ ↦ hrt.length_writeUnknown u)

theorem KeyValue.length_serialize (hrt : rt.Lawful limit) {kv : KeyValue U}
    (h : KeyValue.WellFormed rt limit kv) :
    (KeyValue.serialize rt kv).length = KeyValue.byteSize rt kv := by
  have hbool : rt.bool.size = fun _ ↦ 1 := funext hrt.bool_size
  simp (disch := decide) only [serialize, byteSize, List.length_append,
    length_writeUnknownFields hrt,
    length_writeOptional_one hrt hrt.string h.key, length_writeOptional_one hrt hrt.string h.val,
    length_writeOptional_one hrt hrt.string h.returnError,
    length_writeOptional_one hrt hrt.uint32 fun _ _ ↦ trivial,
    length_writeOptional_one hrt hrt.uint64 fun _ _ ↦ trivial,
    length_writeOptional_one hrt hrt.int32 fun _ _ ↦ trivial,
    length_writeOptional_one hrt hrt.bool fun _ _ ↦ trivial, hbool]
  omega

theorem Server.length_serialize (hrt : rt.Lawful limit) {s : Server U}
    (h : Server.WellFormed rt limit s) :
    (Server.serialize rt s).length = Server.byteSize rt s := by
  simp (disch := decide) only [serialize, byteSize, List.length_append,
    length_writeUnknownFields hrt, length_writeOptional_one hrt hrt.string h.hostname,
    length_writeOptional_one hrt hrt.int32 fun _ _ ↦ trivial]
  omega

theorem Breakdown.length_serialize (hrt : rt.Lawful limit) (b : Breakdown U) :
    (Breakdown.serialize rt b).length = Breakdown.byteSize rt b := by
  have hdouble : rt.double.size = fun _ ↦ 8 := funext hrt.double_size
  simp (disch := decide) only [serialize, byteSize, List.length_append,
    length_writeUnknownFields hrt, length_writeOptional_one hrt hrt.double fun _ _ ↦ trivial,
    length_writeOptional_one hrt hrt.uint64 fun _ _ ↦ trivial, hdouble]
  omega

/-- An embedded message has the length written before it. -/
def Sized (limit : ℕ) (byteSize : N → ℕ) (serialize : N → Bytes) (n : N) : Prop :=
  (serialize n).length = byteSize n ∧ byteSize n < limit

section Sized

variable {byteSize : N → ℕ} {serialize : N → Bytes} {n : N}

theorem length_writeSized (hrt : rt.Lawful limit) (hn : (serialize n).length = byteSize n)
    (hlt : byteSize n < limit) (hnum : number < 16) :
    (writeSized rt byteSize serialize number n).length = 1 + messageSize rt byteSize n := by
  rw [writeSized, writeMessage, List.length_append, List.length_append,
    hrt.length_writeTag hnum (by decide), hrt.length_writeLength hlt, hn, messageSize]

theorem length_flatMap_writeSized (hrt : rt.Lawful limit) {ns : List N}
    (hns : ∀ n ∈ ns, Sized limit byteSize serialize n)
    (hnum : number < 16) :
    (ns.flatMap (writeSized rt byteSize serialize number)).length =
      repeatedSize rt byteSize ns := by
  induction ns with
  | nil => rfl
  | cons n ns ih =>
    have hn := hns n List.mem_cons_self
    have hrest := ih fun n' h' ↦ hns n' (List.mem_cons_of_mem _ h')
    rw [List.flatMap_cons, List.length_append, hrest, length_writeSized hrt hn.1 hn.2 hnum,
      repeatedSize, repeatedSize, List.map_cons, List.sum_cons, List.length_cons]
    omega

theorem length_elim_writeSized (hrt : rt.Lawful limit) {o : Option N}
    (ho : ∀ n ∈ o, Sized limit byteSize serialize n) (hnum : number < 16) :
    (o.elim [] (writeSized rt byteSize serialize number)).length =
      optionalSize 1 (messageSize rt byteSize) o := by
  rcases o with _ | n
  · rfl
  · exact length_writeSized hrt (ho n rfl).1 (ho n rfl).2 hnum

/-- An embedded message is no longer than what holds it. -/
theorem le_optionalSize {o : Option N} (h : n ∈ o) :
    byteSize n ≤ optionalSize 1 (messageSize rt byteSize) o := by
  obtain rfl := Option.mem_def.mp h
  rw [optionalSize, Option.elim_some, messageSize]
  omega

theorem le_repeatedSize {ns : List N} (h : n ∈ ns) : byteSize n ≤ repeatedSize rt byteSize ns := by
  have hle := List.le_sum_of_mem (List.mem_map_of_mem (f := messageSize rt byteSize) h)
  rw [messageSize] at hle
  rw [repeatedSize]
  omega

end Sized

theorem length_writeBreakdown (hrt : rt.Lawful limit) {b : Option (Breakdown U)}
    (hnum : number < 16) (h : optionalSize 1 (messageSize rt (Breakdown.byteSize rt)) b < limit) :
    (writeBreakdown rt number b).length =
      optionalSize 1 (messageSize rt (Breakdown.byteSize rt)) b :=
  length_elim_writeSized hrt
    (fun b' hb ↦ ⟨Breakdown.length_serialize hrt b', (le_optionalSize hb).trans_lt h⟩) hnum

theorem Stats.length_serialize (hrt : rt.Lawful limit) {s : Stats U}
    (h : Stats.byteSize rt s < limit) :
    (Stats.serialize rt s).length = Stats.byteSize rt s := by
  have hbool : rt.bool.size = fun _ ↦ 1 := funext hrt.bool_size
  have htouch : (writeOptional rt 100 varint rt.bool s.touch?).length =
      optionalSize 2 (fun _ ↦ 1) s.touch? := by
    rw [← hbool]
    exact length_writeOptional hrt.bool (fun _ _ ↦ trivial)
      (hrt.length_writeTag_two (by decide) (by decide) (by decide))
  rw [byteSize] at h
  simp only [serialize, List.length_append]
  rw [length_writeBreakdown hrt (by decide) (by omega),
    length_writeBreakdown hrt (by decide) (by omega),
    length_writeBreakdown hrt (by decide) (by omega),
    length_writeBreakdown hrt (by decide) (by omega),
    length_writeBreakdown hrt (by decide) (by omega),
    length_writeBreakdown hrt (by decide) (by omega),
    length_writeBreakdown hrt (by decide) (by omega), htouch, length_writeUnknownFields hrt,
    byteSize]
  omega

structure Instruction.Sized (rt : Runtime U) (limit : ℕ) (i : Instruction U) : Prop where
  getKeys : ∀ kv ∈ i.getKeys,
    Memdata.Sized limit (KeyValue.byteSize rt) (KeyValue.serialize rt) kv
  setKeys : ∀ kv ∈ i.setKeys,
    Memdata.Sized limit (KeyValue.byteSize rt) (KeyValue.serialize rt) kv
  incrKeys : ∀ kv ∈ i.incrKeys,
    Memdata.Sized limit (KeyValue.byteSize rt) (KeyValue.serialize rt) kv
  servers : ∀ s ∈ i.servers, Memdata.Sized limit (Server.byteSize rt) (Server.serialize rt) s
  stats : ∀ s ∈ i.stats?, Memdata.Sized limit (Stats.byteSize rt) (Stats.serialize rt) s

theorem Instruction.sized (hrt : rt.Lawful limit) {i : Instruction U}
    (h : Instruction.WellFormed rt limit i) (hlt : Instruction.byteSize rt i < limit) :
    Instruction.Sized rt limit i := by
  have hkeys : ∀ {kvs : List (KeyValue U)}, (∀ kv ∈ kvs, KeyValue.WellFormed rt limit kv) →
      repeatedSize rt (KeyValue.byteSize rt) kvs < limit →
      ∀ kv ∈ kvs, Memdata.Sized limit (KeyValue.byteSize rt) (KeyValue.serialize rt) kv :=
    fun hkvs hle kv hkv ↦
      ⟨KeyValue.length_serialize hrt (hkvs kv hkv), (le_repeatedSize hkv).trans_lt hle⟩
  rw [byteSize] at hlt
  refine ⟨hkeys h.getKeys (by omega), hkeys h.setKeys (by omega), hkeys h.incrKeys (by omega),
    fun s hs ↦ ?_, fun s hs ↦ ?_⟩
  · have hle : Server.byteSize rt s ≤ repeatedSize rt (Server.byteSize rt) i.servers :=
      le_repeatedSize hs
    exact ⟨Server.length_serialize hrt (h.servers s hs), by omega⟩
  · have hle : Stats.byteSize rt s ≤ optionalSize 1 (messageSize rt (Stats.byteSize rt)) i.stats? :=
      le_optionalSize hs
    exact ⟨Stats.length_serialize hrt (by omega), by omega⟩

/-- **`ByteSize` is the length of what is written.** -/
theorem Instruction.length_serialize (hrt : rt.Lawful limit) {i : Instruction U}
    (h : Instruction.WellFormed rt limit i) (hlt : Instruction.byteSize rt i < limit) :
    (Instruction.serialize rt i).length = Instruction.byteSize rt i := by
  have hs := Instruction.sized hrt h hlt
  simp only [serialize, List.length_append]
  rw [length_flatMap_writeSized hrt hs.getKeys (by decide),
    length_flatMap_writeSized hrt hs.setKeys (by decide),
    length_flatMap_writeSized hrt hs.incrKeys (by decide),
    length_flatMap_writeSized hrt hs.servers (by decide),
    length_elim_writeSized hrt hs.stats (by decide), length_writeUnknownFields hrt, byteSize]
  omega

/-! ## Reading what was written -/

theorem KeyValue.empty_mergeFrom (kv : KeyValue U) : ({} : KeyValue U).mergeFrom kv = kv := by
  simp [mergeFrom]

theorem Server.empty_mergeFrom (s : Server U) : ({} : Server U).mergeFrom s = s := by
  simp [mergeFrom]

theorem Breakdown.empty_mergeFrom (b : Breakdown U) : ({} : Breakdown U).mergeFrom b = b := by
  simp [mergeFrom]

theorem mergeEmbedded_none {empty : N} {mergeFrom : N → N → N} (h : ∀ n, mergeFrom empty n = n)
    (o : Option N) : mergeEmbedded empty mergeFrom none o = o := by
  rcases o with _ | n
  · rfl
  · exact congrArg some (h n)

theorem Stats.empty_mergeFrom (s : Stats U) : ({} : Stats U).mergeFrom s = s := by
  simp [mergeFrom, mergeEmbedded_none Breakdown.empty_mergeFrom]

theorem Instruction.empty_mergeFrom (i : Instruction U) :
    ({} : Instruction U).mergeFrom i = i := by
  simp [mergeFrom, mergeEmbedded_none Stats.empty_mergeFrom]

theorem KeyValue.foldl_addUnknown (us : List U) (m : KeyValue U) :
    us.foldl (KeyValue.table rt).addUnknown m
      = { m with unknownFields := m.unknownFields ++ us } :=
  Slot.foldl_append ⟨unknownFields, fun m us ↦ { m with unknownFields := us }, fun _ ↦ rfl⟩
    (fun _ _ ↦ rfl) (fun _ _ _ ↦ rfl) us m

theorem KeyValue.reads (hrt : rt.Lawful limit) {kv : KeyValue U}
    (h : KeyValue.WellFormed rt limit kv) :
    Reads rt limit (KeyValue.table rt) (KeyValue.serialize rt kv) fun m ↦ m.mergeFrom kv := by
  have hc := KeyValue.coherent hrt.toSound
  have hunknown := Reads.unknown hrt.toSound hc h.unknownFields
  simp only [KeyValue.foldl_addUnknown] at hunknown
  -- the fields in the order in which they are written, the unknown ones last
  exact (Reads.optional hrt hc hrt.string (List.mem_of_getElem? (i := 0) rfl) h.key).append <|
    (Reads.optional hrt hc hrt.string (List.mem_of_getElem? (i := 1) rfl) h.val).append <|
    (Reads.optional hrt hc hrt.uint32 (List.mem_of_getElem? (i := 2) rfl)
      fun _ _ ↦ trivial).append <|
    (Reads.optional hrt hc hrt.uint64 (List.mem_of_getElem? (i := 3) rfl)
      fun _ _ ↦ trivial).append <|
    (Reads.optional hrt hc hrt.uint64 (List.mem_of_getElem? (i := 4) rfl)
      fun _ _ ↦ trivial).append <|
    (Reads.optional hrt hc hrt.bool (List.mem_of_getElem? (i := 5) rfl) fun _ _ ↦ trivial).append <|
    (Reads.optional hrt hc hrt.uint64 (List.mem_of_getElem? (i := 6) rfl)
      fun _ _ ↦ trivial).append <|
    (Reads.optional hrt hc hrt.int32 (List.mem_of_getElem? (i := 7) rfl)
      fun _ _ ↦ trivial).append <|
    (Reads.optional hrt hc hrt.uint64 (List.mem_of_getElem? (i := 8) rfl)
      fun _ _ ↦ trivial).append <|
    (Reads.optional hrt hc hrt.int32 (List.mem_of_getElem? (i := 9) rfl)
      fun _ _ ↦ trivial).append <|
    (Reads.optional hrt hc hrt.bool (List.mem_of_getElem? (i := 10) rfl)
      fun _ _ ↦ trivial).append <|
    (Reads.optional hrt hc hrt.int32 (List.mem_of_getElem? (i := 11) rfl)
      fun _ _ ↦ trivial).append <|
    (Reads.optional hrt hc hrt.string (List.mem_of_getElem? (i := 12) rfl) h.returnError).append
      hunknown

theorem Server.foldl_addUnknown (us : List U) (m : Server U) :
    us.foldl (Server.table rt).addUnknown m
      = { m with unknownFields := m.unknownFields ++ us } :=
  Slot.foldl_append ⟨unknownFields, fun m us ↦ { m with unknownFields := us }, fun _ ↦ rfl⟩
    (fun _ _ ↦ rfl) (fun _ _ _ ↦ rfl) us m

theorem Server.reads (hrt : rt.Lawful limit) {s : Server U} (h : Server.WellFormed rt limit s) :
    Reads rt limit (Server.table rt) (Server.serialize rt s) fun m ↦ m.mergeFrom s := by
  have hc := Server.coherent hrt.toSound
  have hunknown := Reads.unknown hrt.toSound hc h.unknownFields
  simp only [Server.foldl_addUnknown] at hunknown
  exact (Reads.optional hrt hc hrt.string (List.mem_of_getElem? (i := 0) rfl) h.hostname).append <|
    (Reads.optional hrt hc hrt.int32 (List.mem_of_getElem? (i := 1) rfl) fun _ _ ↦ trivial).append
      hunknown

theorem Breakdown.foldl_addUnknown (us : List U) (m : Breakdown U) :
    us.foldl (Breakdown.table rt).addUnknown m
      = { m with unknownFields := m.unknownFields ++ us } :=
  Slot.foldl_append ⟨unknownFields, fun m us ↦ { m with unknownFields := us }, fun _ ↦ rfl⟩
    (fun _ _ ↦ rfl) (fun _ _ _ ↦ rfl) us m

theorem Breakdown.reads (hrt : rt.Lawful limit) {b : Breakdown U}
    (h : Breakdown.WellFormed rt limit b) :
    Reads rt limit (Breakdown.table rt) (Breakdown.serialize rt b) fun m ↦ m.mergeFrom b := by
  have hc := Breakdown.coherent hrt.toSound
  have hunknown := Reads.unknown hrt.toSound hc h
  simp only [Breakdown.foldl_addUnknown] at hunknown
  exact (Reads.optional hrt hc hrt.double (List.mem_of_getElem? (i := 0) rfl)
      fun _ _ ↦ trivial).append <|
    (Reads.optional hrt hc hrt.uint64 (List.mem_of_getElem? (i := 1) rfl) fun _ _ ↦ trivial).append
      hunknown

section Embedded

variable {t : Table M U} {sub : Table N U} {empty : N} {byteSize : N → ℕ} {serialize : N → Bytes}
  {mergeFrom : N → N → N} {expect : List (ℕ × ℕ)} {last : Bool}

theorem reads_embedded (hrt : rt.Lawful limit) (ht : t.Coherent limit) (hsub : sub.Coherent limit)
    {slot : Slot M (Option N)} (hc : embedded rt sub empty slot number expect last ∈ t.cases)
    {o : Option N} (ho : ∀ n ∈ o, Reads rt limit sub (serialize n) fun m ↦ mergeFrom m n)
    (hlen : ∀ n ∈ o, Sized limit byteSize serialize n) :
    Reads rt limit t (o.elim [] (writeSized rt byteSize serialize number)) fun m ↦
      slot.set m (mergeEmbedded empty mergeFrom (slot.get m) o) := by
  rcases o with _ | n
  · intro m rest _
    exact congrArg (t.mergePartial rt · rest) (slot.set_get m).symm
  · rw [Option.elim_some, writeSized, ← (hlen n rfl).1]
    exact Reads.message hrt ht hsub hc (ho n rfl)

theorem reads_repeated (hrt : rt.Lawful limit) (ht : t.Coherent limit) (hsub : sub.Coherent limit)
    {slot : Slot M (List N)} (hget : ∀ m v, slot.get (slot.set m v) = v)
    (hset : ∀ m v w, slot.set (slot.set m v) w = slot.set m w)
    (hc : repeated rt sub empty slot number expect ∈ t.cases) {ns : List N}
    (hns : ∀ n ∈ ns, Reads rt limit sub (serialize n) fun m ↦ mergeFrom m n)
    (hempty : ∀ n ∈ ns, mergeFrom empty n = n)
    (hlen : ∀ n ∈ ns, Sized limit byteSize serialize n) :
    Reads rt limit t (ns.flatMap (writeSized rt byteSize serialize number)) fun m ↦
      slot.set m (slot.get m ++ ns) := by
  have helem : ∀ n ∈ ns, Reads rt limit t (writeSized rt byteSize serialize number n) fun m ↦
      slot.set m (slot.get m ++ [n]) := by
    intro n hn
    have hread := Reads.message hrt ht hsub hc (hns n hn)
    rw [(hlen n hn).1] at hread
    simp only [hempty n hn] at hread
    exact hread
  simpa only [slot.foldl_append hget hset] using Reads.flatMap helem

end Embedded

theorem Stats.foldl_addUnknown (us : List U) (m : Stats U) :
    us.foldl (Stats.table rt).addUnknown m
      = { m with unknownFields := m.unknownFields ++ us } :=
  Slot.foldl_append ⟨unknownFields, fun m us ↦ { m with unknownFields := us }, fun _ ↦ rfl⟩
    (fun _ _ ↦ rfl) (fun _ _ _ ↦ rfl) us m

theorem Stats.reads (hrt : rt.Lawful limit) {s : Stats U} (h : Stats.WellFormed rt limit s)
    (hlt : Stats.byteSize rt s < limit) :
    Reads rt limit (Stats.table rt) (Stats.serialize rt s) fun m ↦ m.mergeFrom s := by
  have hc := Stats.coherent hrt.toSound
  have hunknown := Reads.unknown hrt.toSound hc h.unknownFields
  simp only [Stats.foldl_addUnknown] at hunknown
  have hb : ∀ {number : ℕ} {expect : List (ℕ × ℕ)} {slot : Slot (Stats U) (Option (Breakdown U))}
      {o : Option (Breakdown U)},
      embedded rt (Breakdown.table rt) {} slot number expect false ∈ (Stats.table rt).cases →
      (∀ b ∈ o, Breakdown.WellFormed rt limit b) →
      optionalSize 1 (messageSize rt (Breakdown.byteSize rt)) o < limit →
      Reads rt limit (Stats.table rt) (writeBreakdown rt number o) fun m ↦
        slot.set m (mergeEmbedded {} Breakdown.mergeFrom (slot.get m) o) := by
    intro number expect slot o hmem ho hlt
    exact reads_embedded hrt hc (Breakdown.coherent hrt.toSound) hmem
      (fun b hb ↦ Breakdown.reads hrt (ho b hb))
      fun b hb ↦ ⟨Breakdown.length_serialize hrt b, (le_optionalSize hb).trans_lt hlt⟩
  rw [byteSize] at hlt
  exact (hb (List.mem_of_getElem? (i := 0) rfl) h.pushLatency (by omega)).append <|
    (hb (List.mem_of_getElem? (i := 1) rfl) h.popLatency (by omega)).append <|
    (hb (List.mem_of_getElem? (i := 2) rfl) h.batchSize (by omega)).append <|
    (hb (List.mem_of_getElem? (i := 3) rfl) h.loopLatency (by omega)).append <|
    (hb (List.mem_of_getElem? (i := 4) rfl) h.packetLatency (by omega)).append <|
    (hb (List.mem_of_getElem? (i := 5) rfl) h.cacheHit (by omega)).append <|
    (hb (List.mem_of_getElem? (i := 6) rfl) h.cacheMiss (by omega)).append <|
    (Reads.optional hrt hc hrt.bool (List.mem_of_getElem? (i := 7) rfl) fun _ _ ↦ trivial).append
      hunknown

theorem Instruction.foldl_addUnknown (us : List U) (m : Instruction U) :
    us.foldl (Instruction.table rt).addUnknown m
      = { m with unknownFields := m.unknownFields ++ us } :=
  Slot.foldl_append ⟨unknownFields, fun m us ↦ { m with unknownFields := us }, fun _ ↦ rfl⟩
    (fun _ _ ↦ rfl) (fun _ _ _ ↦ rfl) us m

theorem Instruction.reads (hrt : rt.Lawful limit) {i : Instruction U}
    (h : Instruction.WellFormed rt limit i) (hlt : Instruction.byteSize rt i < limit) :
    Reads rt limit (Instruction.table rt) (Instruction.serialize rt i) fun m ↦ m.mergeFrom i := by
  have hc := Instruction.coherent hrt.toSound
  have hunknown := Reads.unknown hrt.toSound hc h.unknownFields
  simp only [Instruction.foldl_addUnknown] at hunknown
  have hs := Instruction.sized hrt h hlt
  -- three fields are alike, and differ in their number and their slot
  have hkeys : ∀ {number : ℕ} {expect : List (ℕ × ℕ)} {kvs : List (KeyValue U)}
      {slot : Slot (Instruction U) (List (KeyValue U))},
      (∀ m v, slot.get (slot.set m v) = v) →
      (∀ m v w, slot.set (slot.set m v) w = slot.set m w) →
      repeated rt (KeyValue.table rt) {} slot number expect ∈ (Instruction.table rt).cases →
      (∀ kv ∈ kvs, KeyValue.WellFormed rt limit kv) →
      (∀ kv ∈ kvs, Memdata.Sized limit (KeyValue.byteSize rt) (KeyValue.serialize rt) kv) →
      Reads rt limit (Instruction.table rt)
        (kvs.flatMap (writeSized rt (KeyValue.byteSize rt) (KeyValue.serialize rt) number))
        fun m ↦ slot.set m (slot.get m ++ kvs) :=
    fun hget hset hmem hkvs hsized ↦ reads_repeated hrt hc (KeyValue.coherent hrt.toSound) hget
      hset hmem (fun kv hkv ↦ KeyValue.reads hrt (hkvs kv hkv))
      (fun kv _ ↦ KeyValue.empty_mergeFrom kv) hsized
  exact (hkeys (fun _ _ ↦ rfl) (fun _ _ _ ↦ rfl) (List.mem_of_getElem? (i := 0) rfl)
      h.getKeys hs.getKeys).append <|
    (hkeys (fun _ _ ↦ rfl) (fun _ _ _ ↦ rfl) (List.mem_of_getElem? (i := 1) rfl)
      h.setKeys hs.setKeys).append <|
    (hkeys (fun _ _ ↦ rfl) (fun _ _ _ ↦ rfl) (List.mem_of_getElem? (i := 2) rfl)
      h.incrKeys hs.incrKeys).append <|
    (reads_repeated hrt hc (Server.coherent hrt.toSound) (fun _ _ ↦ rfl) (fun _ _ _ ↦ rfl)
      (List.mem_of_getElem? (i := 3) rfl) (fun s hs ↦ Server.reads hrt (h.servers s hs))
      (fun s _ ↦ Server.empty_mergeFrom s) hs.servers).append <|
    (reads_embedded hrt hc (Stats.coherent hrt.toSound) (List.mem_of_getElem? (i := 4) rfl)
      (fun s hmem ↦ Stats.reads hrt (h.stats s hmem) (hs.stats s hmem).2) hs.stats).append
      hunknown

end MemcacheRouter.Memdata
