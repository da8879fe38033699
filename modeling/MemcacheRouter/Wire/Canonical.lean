import MemcacheRouter.Foundations.WireFormat
import MemcacheRouter.Wire.RoundTrip

/-!
# Parsing

What the generated loops accept is well formed, so that a message that was parsed can be written
and parsed again; and the tags that a case guesses have no influence on the result, wherever the
guesses of the library fail.
-/

namespace MemcacheRouter.Memdata

open TaggedFields

variable {U M N : Type} {rt : Runtime U} {limit : ℕ}

/-! ## What is parsed is well formed -/

theorem forall_mem_concat {α : Type} {P : α → Prop} {as : List α} {a : α} (has : ∀ b ∈ as, P b)
    (ha : P a) : ∀ b ∈ as ++ [a], P b :=
  List.forall_mem_append.mpr ⟨has, List.forall_mem_singleton.mpr ha⟩

theorem forall_mem_some {α : Type} {P : α → Prop} {a : α} (ha : P a) : ∀ b ∈ some a, P b := by
  intro b hb
  obtain rfl := Option.some.inj hb
  exact ha

theorem KeyValue.keeps_wellFormed (hrt : rt.Lawful limit) :
    ∀ c ∈ (KeyValue.table rt).cases, c.Keeps limit (KeyValue.WellFormed rt limit) := by
  simp only [table, List.forall_mem_cons]
  exact ⟨FieldCase.keeps_optional hrt.string fun _ _ ha hm ↦ { hm with key := forall_mem_some ha },
    FieldCase.keeps_optional hrt.string fun _ _ ha hm ↦ { hm with val := forall_mem_some ha },
    FieldCase.keeps_optional hrt.uint32 fun _ _ _ hm ↦ { hm with },
    FieldCase.keeps_optional hrt.uint64 fun _ _ _ hm ↦ { hm with },
    FieldCase.keeps_optional hrt.uint64 fun _ _ _ hm ↦ { hm with },
    FieldCase.keeps_optional hrt.bool fun _ _ _ hm ↦ { hm with },
    FieldCase.keeps_optional hrt.uint64 fun _ _ _ hm ↦ { hm with },
    FieldCase.keeps_optional hrt.int32 fun _ _ _ hm ↦ { hm with },
    FieldCase.keeps_optional hrt.uint64 fun _ _ _ hm ↦ { hm with },
    FieldCase.keeps_optional hrt.int32 fun _ _ _ hm ↦ { hm with },
    FieldCase.keeps_optional hrt.bool fun _ _ _ hm ↦ { hm with },
    FieldCase.keeps_optional hrt.int32 fun _ _ _ hm ↦ { hm with },
    FieldCase.keeps_optional hrt.string
      fun _ _ ha hm ↦ { hm with returnError := forall_mem_some ha },
    List.forall_mem_nil _⟩

theorem Server.keeps_wellFormed (hrt : rt.Lawful limit) :
    ∀ c ∈ (Server.table rt).cases, c.Keeps limit (Server.WellFormed rt limit) := by
  simp only [table, List.forall_mem_cons]
  exact ⟨FieldCase.keeps_optional hrt.string
      fun _ _ ha hm ↦ { hm with hostname := forall_mem_some ha },
    FieldCase.keeps_optional hrt.int32 fun _ _ _ hm ↦ { hm with },
    List.forall_mem_nil _⟩

theorem Breakdown.keeps_wellFormed (hrt : rt.Lawful limit) :
    ∀ c ∈ (Breakdown.table rt).cases, c.Keeps limit (Breakdown.WellFormed rt limit) := by
  simp only [table, List.forall_mem_cons]
  exact ⟨FieldCase.keeps_optional hrt.double fun _ _ _ hm ↦ hm,
    FieldCase.keeps_optional hrt.uint64 fun _ _ _ hm ↦ hm, List.forall_mem_nil _⟩

/-- A case of an embedded message keeps `P` if the parts it reads keep `Q`. -/
theorem keeps_embedded (hrt : rt.Lawful limit) {sub : Table N U} {empty : N} {Q : N → Prop}
    (hsub : ∀ {n payload n'}, payload.length < limit →
      sub.mergeFromBytes rt n payload = some n' → Q n → Q n')
    (hempty : Q empty) {slot : Slot M (Option N)} {P : M → Prop}
    (hget : ∀ m, P m → ∀ n ∈ slot.get m, Q n) (hset : ∀ m n, P m → Q n → P (slot.set m (some n)))
    {number : ℕ} {expect : List (ℕ × ℕ)} {last : Bool} :
    (embedded rt sub empty slot number expect last).Keeps limit P := by
  refine FieldCase.keeps_message hrt.toSound fun m payload n hlt hn hm ↦
    hset m n hm (hsub hlt hn ?_)
  cases hslot : slot.get m with
  | none => exact hempty
  | some n' => exact hget m hm n' hslot

theorem keeps_repeated (hrt : rt.Lawful limit) {sub : Table N U} {empty : N} {Q : N → Prop}
    (hsub : ∀ {n payload n'}, payload.length < limit →
      sub.mergeFromBytes rt n payload = some n' → Q n → Q n')
    (hempty : Q empty) {slot : Slot M (List N)} {P : M → Prop}
    (hset : ∀ m n, P m → Q n → P (slot.set m (slot.get m ++ [n])))
    {number : ℕ} {expect : List (ℕ × ℕ)} :
    (repeated rt sub empty slot number expect).Keeps limit P :=
  FieldCase.keeps_message hrt.toSound fun m _ n hlt hn hm ↦ hset m n hm (hsub hlt hn hempty)

variable {input : Bytes}

theorem KeyValue.wellFormed_of_parse (hrt : rt.Lawful limit) {m m' : KeyValue U}
    (hlt : input.length < limit) (h : (KeyValue.table rt).mergeFromBytes rt m input = some m')
    (hm : KeyValue.WellFormed rt limit m) :
    KeyValue.WellFormed rt limit m' :=
  Table.mergeFromBytes_invariant hrt (KeyValue.coherent hrt.toSound) (KeyValue.keeps_wellFormed hrt)
    (fun hu htag hm ↦ { hm with unknownFields := forall_mem_concat hm.unknownFields ⟨_, hu, htag⟩ })
    hlt h hm

theorem Server.wellFormed_of_parse (hrt : rt.Lawful limit) {m m' : Server U}
    (hlt : input.length < limit) (h : (Server.table rt).mergeFromBytes rt m input = some m')
    (hm : Server.WellFormed rt limit m) :
    Server.WellFormed rt limit m' :=
  Table.mergeFromBytes_invariant hrt (Server.coherent hrt.toSound) (Server.keeps_wellFormed hrt)
    (fun hu htag hm ↦ { hm with unknownFields := forall_mem_concat hm.unknownFields ⟨_, hu, htag⟩ })
    hlt h hm

theorem Breakdown.wellFormed_of_parse (hrt : rt.Lawful limit) {m m' : Breakdown U}
    (hlt : input.length < limit) (h : (Breakdown.table rt).mergeFromBytes rt m input = some m')
    (hm : Breakdown.WellFormed rt limit m) : Breakdown.WellFormed rt limit m' :=
  Table.mergeFromBytes_invariant hrt (Breakdown.coherent hrt.toSound)
    (Breakdown.keeps_wellFormed hrt) (fun hu htag hm ↦ forall_mem_concat hm ⟨_, hu, htag⟩) hlt h hm

theorem Breakdown.wellFormed_empty : Breakdown.WellFormed rt limit {} := List.forall_mem_nil _

theorem Stats.keeps_wellFormed (hrt : rt.Lawful limit) :
    ∀ c ∈ (Stats.table rt).cases, c.Keeps limit (Stats.WellFormed rt limit) := by
  have hsub : ∀ {n payload n'}, payload.length < limit →
      (Breakdown.table rt).mergeFromBytes rt n payload = some n' →
      Breakdown.WellFormed rt limit n → Breakdown.WellFormed rt limit n' :=
    Breakdown.wellFormed_of_parse hrt
  have hempty : Breakdown.WellFormed rt limit {} := Breakdown.wellFormed_empty
  simp only [table, List.forall_mem_cons]
  exact ⟨keeps_embedded hrt hsub hempty (fun _ hm ↦ hm.pushLatency)
      fun _ _ hm hn ↦ { hm with pushLatency := forall_mem_some hn },
    keeps_embedded hrt hsub hempty (fun _ hm ↦ hm.popLatency)
      fun _ _ hm hn ↦ { hm with popLatency := forall_mem_some hn },
    keeps_embedded hrt hsub hempty (fun _ hm ↦ hm.batchSize)
      fun _ _ hm hn ↦ { hm with batchSize := forall_mem_some hn },
    keeps_embedded hrt hsub hempty (fun _ hm ↦ hm.loopLatency)
      fun _ _ hm hn ↦ { hm with loopLatency := forall_mem_some hn },
    keeps_embedded hrt hsub hempty (fun _ hm ↦ hm.packetLatency)
      fun _ _ hm hn ↦ { hm with packetLatency := forall_mem_some hn },
    keeps_embedded hrt hsub hempty (fun _ hm ↦ hm.cacheHit)
      fun _ _ hm hn ↦ { hm with cacheHit := forall_mem_some hn },
    keeps_embedded hrt hsub hempty (fun _ hm ↦ hm.cacheMiss)
      fun _ _ hm hn ↦ { hm with cacheMiss := forall_mem_some hn },
    FieldCase.keeps_optional hrt.bool fun _ _ _ hm ↦ { hm with }, List.forall_mem_nil _⟩

theorem Stats.wellFormed_of_parse (hrt : rt.Lawful limit) {m m' : Stats U}
    (hlt : input.length < limit) (h : (Stats.table rt).mergeFromBytes rt m input = some m')
    (hm : Stats.WellFormed rt limit m) :
    Stats.WellFormed rt limit m' :=
  Table.mergeFromBytes_invariant hrt (Stats.coherent hrt.toSound) (Stats.keeps_wellFormed hrt)
    (fun hu htag hm ↦ { hm with unknownFields := forall_mem_concat hm.unknownFields ⟨_, hu, htag⟩ })
    hlt h hm

theorem forall_mem_none {α : Type} {P : α → Prop} : ∀ a ∈ (none : Option α), P a :=
  fun _ h ↦ nomatch h

theorem KeyValue.wellFormed_empty : KeyValue.WellFormed rt limit {} :=
  ⟨forall_mem_none, forall_mem_none, forall_mem_none, List.forall_mem_nil _⟩

theorem Server.wellFormed_empty : Server.WellFormed rt limit {} :=
  ⟨forall_mem_none, List.forall_mem_nil _⟩

theorem Stats.wellFormed_empty : Stats.WellFormed rt limit {} :=
  ⟨forall_mem_none, forall_mem_none, forall_mem_none, forall_mem_none, forall_mem_none,
    forall_mem_none, forall_mem_none, List.forall_mem_nil _⟩

theorem Instruction.wellFormed_empty : Instruction.WellFormed rt limit {} :=
  ⟨List.forall_mem_nil _, List.forall_mem_nil _, List.forall_mem_nil _, List.forall_mem_nil _,
    forall_mem_none, List.forall_mem_nil _⟩

theorem Instruction.keeps_wellFormed (hrt : rt.Lawful limit) :
    ∀ c ∈ (Instruction.table rt).cases, c.Keeps limit (Instruction.WellFormed rt limit) := by
  have hkv : ∀ {n payload n'}, payload.length < limit →
      (KeyValue.table rt).mergeFromBytes rt n payload = some n' →
      KeyValue.WellFormed rt limit n → KeyValue.WellFormed rt limit n' :=
    KeyValue.wellFormed_of_parse hrt
  simp only [table, List.forall_mem_cons]
  exact ⟨keeps_repeated hrt hkv KeyValue.wellFormed_empty
      fun _ _ hm hn ↦ { hm with getKeys := forall_mem_concat hm.getKeys hn },
    keeps_repeated hrt hkv KeyValue.wellFormed_empty
      fun _ _ hm hn ↦ { hm with setKeys := forall_mem_concat hm.setKeys hn },
    keeps_repeated hrt hkv KeyValue.wellFormed_empty
      fun _ _ hm hn ↦ { hm with incrKeys := forall_mem_concat hm.incrKeys hn },
    keeps_repeated hrt (Server.wellFormed_of_parse hrt) Server.wellFormed_empty
      fun _ _ hm hn ↦ { hm with servers := forall_mem_concat hm.servers hn },
    keeps_embedded hrt (Stats.wellFormed_of_parse hrt) Stats.wellFormed_empty
      (fun _ hm ↦ hm.stats) fun _ _ hm hn ↦ { hm with stats := forall_mem_some hn },
    List.forall_mem_nil _⟩

/-- **What is parsed is well formed.** -/
theorem Instruction.wellFormed_of_parse (hrt : rt.Lawful limit) {m m' : Instruction U}
    (hlt : input.length < limit) (h : (Instruction.table rt).mergeFromBytes rt m input = some m')
    (hm : Instruction.WellFormed rt limit m) : Instruction.WellFormed rt limit m' :=
  Table.mergeFromBytes_invariant hrt (Instruction.coherent hrt.toSound)
    (Instruction.keeps_wellFormed hrt)
    (fun hu htag hm ↦ { hm with unknownFields := forall_mem_concat hm.unknownFields ⟨_, hu, htag⟩ })
    hlt h hm

/-! ## The guesses -/

/-- The same library with other guesses. -/
def guessing (rt : Runtime U) (expectTag : ℕ → Bytes → Option Bytes)
    (expectAtEnd : Bytes → Bool) : Runtime U :=
  { rt with expectTag := expectTag, expectAtEnd := expectAtEnd }

section Guesses

variable {expectTag : ℕ → Bytes → Option Bytes} {expectAtEnd : Bytes → Bool}

theorem guessesOf_guessing : rt.GuessesOf (guessing rt expectTag expectAtEnd) := ⟨rfl, rfl, rfl⟩

theorem sound_guessing (hrt : rt.Sound limit)
    (htag : ∀ tag input rest, tag ≠ 0 → input.length < limit → expectTag tag input = some rest →
      rt.readTag input = some (tag, rest))
    (hend : ∀ input, input.length < limit → expectAtEnd input = true → input = []) :
    (guessing rt expectTag expectAtEnd).Sound limit :=
  { hrt with
    expectTag_sound := fun h0 hlt h ↦ htag _ _ _ h0 hlt h
    expectAtEnd_sound := fun hlt h ↦ hend _ hlt h }

/-! The strings and numbers of a message are read without a guess. -/

theorem KeyValue.alike_guessing :
    (KeyValue.table rt).Alike limit (KeyValue.table (guessing rt expectTag expectAtEnd)) :=
  .refl _

theorem Server.alike_guessing :
    (Server.table rt).Alike limit (Server.table (guessing rt expectTag expectAtEnd)) :=
  .refl _

theorem Breakdown.alike_guessing :
    (Breakdown.table rt).Alike limit (Breakdown.table (guessing rt expectTag expectAtEnd)) :=
  .refl _

variable (hrt : rt.Sound limit) (hrt' : (guessing rt expectTag expectAtEnd).Sound limit)

include hrt hrt'

theorem Stats.alike_guessing :
    (Stats.table rt).Alike limit (Stats.table (guessing rt expectTag expectAtEnd)) where
  cases := by
    have hb : ∀ {slot : Slot (Stats U) (Option (Breakdown U))} {number : ℕ}
        {expect : List (ℕ × ℕ)}, FieldCase.Alike limit
          (embedded rt (Breakdown.table rt) {} slot number expect)
          (embedded (guessing rt expectTag expectAtEnd)
            (Breakdown.table (guessing rt expectTag expectAtEnd)) {} slot number expect) :=
      .message Breakdown.alike_guessing guessesOf_guessing hrt hrt' (Breakdown.coherent hrt)
        (Breakdown.coherent hrt') _ _ _ _ _
    exact .cons hb (.cons hb (.cons hb (.cons hb (.cons hb (.cons hb (.cons hb
      (.cons (.refl _) .nil)))))))
  addUnknown := rfl
  depth := rfl

theorem Instruction.alike_guessing :
    (Instruction.table rt).Alike limit (Instruction.table (guessing rt expectTag expectAtEnd)) where
  cases := by
    have hkv : ∀ {slot : Slot (Instruction U) (List (KeyValue U))} {number : ℕ}
        {expect : List (ℕ × ℕ)}, FieldCase.Alike limit
          (repeated rt (KeyValue.table rt) {} slot number expect)
          (repeated (guessing rt expectTag expectAtEnd)
            (KeyValue.table (guessing rt expectTag expectAtEnd)) {} slot number expect) :=
      .message KeyValue.alike_guessing guessesOf_guessing hrt hrt' (KeyValue.coherent hrt)
        (KeyValue.coherent hrt') _ _ _ _ _
    refine .cons hkv (.cons hkv (.cons hkv (.cons ?_ (.cons ?_ .nil))))
    · exact .message Server.alike_guessing guessesOf_guessing hrt hrt' (Server.coherent hrt)
        (Server.coherent hrt') _ _ _ _ _
    · exact .message (Stats.alike_guessing hrt hrt') guessesOf_guessing hrt hrt'
        (Stats.coherent hrt) (Stats.coherent hrt') _ _ _ _ _
  addUnknown := rfl
  depth := rfl

end Guesses

/-! ## Main results -/

/-- **Parsing does not depend on the guesses.** Wherever the library gives up guessing a tag or the
end of the message, at the end of a buffer or always, the result is the same. -/
theorem Instruction.parseFromArray_guessing (hrt : rt.Sound totalBytesLimit)
    {expectTag : ℕ → Bytes → Option Bytes} {expectAtEnd : Bytes → Bool}
    (htag : ∀ tag input rest, tag ≠ 0 → input.length < totalBytesLimit →
      expectTag tag input = some rest → rt.readTag input = some (tag, rest))
    (hend : ∀ input, input.length < totalBytesLimit → expectAtEnd input = true → input = [])
    {data : Bytes} (hlt : data.length < totalBytesLimit) :
    Instruction.parseFromArray (guessing rt expectTag expectAtEnd) data =
      Instruction.parseFromArray rt data := by
  have hrt' := sound_guessing hrt htag hend
  exact (Instruction.alike_guessing hrt hrt').mergeFromBytes guessesOf_guessing hrt hrt'
    (Instruction.coherent hrt) (Instruction.coherent hrt') {} hlt

theorem protobuf_lawful : WireFormat.protobuf.Lawful totalBytesLimit :=
  WireFormat.lawful (by decide)

/-- Two keys are read without a single guess. -/
theorem Instruction.parseFromArray_without_guesses :
    Instruction.parseFromArray (guessing WireFormat.protobuf (fun _ _ ↦ none) fun _ ↦ false)
        [10, 3, 10, 1, 107, 10, 3, 10, 1, 108] =
      some { getKeys := [{ key? := some [107] }, { key? := some [108] }] } := by
  refine (Instruction.parseFromArray_guessing protobuf_lawful.toSound ?_ ?_ (by decide)).trans ?_
  · intro tag input rest _ _ h
    cases h
  · intro input _ h
    cases h
  · decide

/-- **Reading what was written is merging.** What one instruction wrote is parsed as this
instruction, and what two wrote one after the other as the first with the second merged into it. -/
theorem Instruction.parse_serialize (hrt : rt.Lawful totalBytesLimit) {i j : Instruction U}
    (hi : Instruction.WellFormed rt totalBytesLimit i)
    (hilt : Instruction.byteSize rt i < totalBytesLimit) :
    Instruction.parseFromArray rt (Instruction.serialize rt i) = some i ∧
    (Instruction.WellFormed rt totalBytesLimit j →
      Instruction.byteSize rt i + Instruction.byteSize rt j < totalBytesLimit →
      Instruction.parseFromArray rt (Instruction.serialize rt i ++ Instruction.serialize rt j) =
        some (i.mergeFrom j)) := by
  have hc := Instruction.coherent hrt.toSound
  have hreads := Instruction.reads hrt hi hilt
  have hlen := Instruction.length_serialize hrt hi hilt
  constructor
  · rw [parseFromArray, hreads.mergeFromBytes hrt.toSound hc (hlen ▸ hilt),
      Instruction.empty_mergeFrom]
  · intro hj hlt
    have hjlt : Instruction.byteSize rt j < totalBytesLimit := by omega
    have happend := hreads.append (Instruction.reads hrt hj hjlt)
    have hlt' : (Instruction.serialize rt i ++ Instruction.serialize rt j).length <
        totalBytesLimit := by
      rwa [List.length_append, hlen, Instruction.length_serialize hrt hj hjlt]
    rw [parseFromArray, happend.mergeFromBytes hrt.toSound hc hlt', Function.comp_apply,
      Instruction.empty_mergeFrom]

/-- A key to set, with a negative offset, and two fields that no message has, one of them a
group. -/
def setWithUnknown : Instruction WireFormat.UnknownField where
  setKeys := [
    { key? := some [107], val? := some [118, 0, 118], flags? := some 3, offset? := some (-1) }]
  stats? := some { cacheHit? := some { average? := some 7 }, touch? := some true }
  unknownFields := [⟨48, [172, 2]⟩, ⟨59, [8, 5, 19, 10, 1, 107, 20, 60]⟩]

theorem setWithUnknown_wellFormed :
    Instruction.WellFormed WireFormat.protobuf totalBytesLimit setWithUnknown := by
  have hparse : (Instruction.table WireFormat.protobuf).mergeFromBytes WireFormat.protobuf {}
      (Instruction.serialize WireFormat.protobuf setWithUnknown) = some setWithUnknown := by
    decide +kernel
  exact Instruction.wellFormed_of_parse protobuf_lawful (by decide) hparse
    Instruction.wellFormed_empty

theorem Instruction.parse_serialize_setWithUnknown :
    Instruction.parseFromArray WireFormat.protobuf
        (Instruction.serialize WireFormat.protobuf setWithUnknown ++
          Instruction.serialize WireFormat.protobuf setWithUnknown) =
      some (setWithUnknown.mergeFrom setWithUnknown) :=
  (Instruction.parse_serialize protobuf_lawful setWithUnknown_wellFormed (by decide)).2
    setWithUnknown_wellFormed (by decide)

/-- **Writing what was parsed and parsing it again changes nothing**, whatever the bytes were: the
fields may have come in any order and more than once, and some may be unknown. What is written may
be longer than what was read. -/
theorem Instruction.parse_canonical (hrt : rt.Lawful totalBytesLimit) {data : Bytes}
    (hdata : data.length < totalBytesLimit) {i : Instruction U}
    (h : Instruction.parseFromArray rt data = some i)
    (hlt : Instruction.byteSize rt i < totalBytesLimit) :
    Instruction.parseFromArray rt (Instruction.serialize rt i) = some i ∧
      (Instruction.serialize rt i).length = Instruction.byteSize rt i := by
  have hi := Instruction.wellFormed_of_parse hrt hdata h Instruction.wellFormed_empty
  have hlen := Instruction.length_serialize hrt hi hlt
  refine ⟨?_, hlen⟩
  rw [parseFromArray, (Instruction.reads hrt hi hlt).mergeFromBytes hrt.toSound
    (Instruction.coherent hrt.toSound) (hlen ▸ hlt), Instruction.empty_mergeFrom]

/-- An unknown field and a group stand first, a key is given twice, and the embedded message claims
to be longer than the input. -/
theorem Instruction.parse_canonical_twice :
    Instruction.parseFromArray WireFormat.protobuf
        (Instruction.serialize WireFormat.protobuf
          { setKeys := [{ key? := some [108] }]
            unknownFields := [⟨48, [172, 2]⟩, ⟨59, [8, 5, 60]⟩] }) =
      some { setKeys := [{ key? := some [108] }]
             unknownFields := [⟨48, [172, 2]⟩, ⟨59, [8, 5, 60]⟩] } :=
  (Instruction.parse_canonical protobuf_lawful (by decide)
    (show Instruction.parseFromArray WireFormat.protobuf
      [48, 172, 2, 59, 8, 133, 0, 60, 18, 99, 10, 1, 107, 10, 1, 108] = _ by decide +kernel)
    (by decide)).1

end MemcacheRouter.Memdata
