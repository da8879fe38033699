import MemcacheRouter.Cmrclient.Calls
import MemcacheRouter.Wire.Canonical

/-!
# From the client to the router

The generated code as the `Codec` of the router. The rest of the development has numbers where the
messages have words, and leaves out what nobody reads; an instruction whose numbers fit into the
words is the same on both sides of a socket. The router does not look at what `ParseFromArray`
returns, so that a message that is not well formed gives it some instruction, of which nothing is
known here.
-/

open Transition

namespace MemcacheRouter

open TaggedFields

namespace Memdata

variable {U : Type}

/-- A message as it is read through its accessors. -/
def KeyValue.toModel (kv : KeyValue U) : MemcacheRouter.KeyValue where
  key? := kv.key?
  val? := kv.val?
  flags? := kv.flags?
  expireInSeconds? := kv.expireInSeconds?.map UInt64.toNat
  cas? := kv.cas?.map UInt64.toNat
  allowReplace? := kv.allowReplace?
  defaultCounterVal? := kv.defaultCounterVal?.map UInt64.toNat
  offset? := kv.offset?
  counterVal? := kv.counterVal?.map UInt64.toNat
  noPropagate? := kv.noPropagate?
  returnCode? := kv.returnCode?.map Int32.toNatClampNeg
  returnError? := kv.returnError?

def KeyValue.ofModel (kv : MemcacheRouter.KeyValue) : KeyValue U where
  key? := kv.key?
  val? := kv.val?
  flags? := kv.flags?
  expireInSeconds? := kv.expireInSeconds?.map UInt64.ofNat
  cas? := kv.cas?.map UInt64.ofNat
  allowReplace? := kv.allowReplace?
  defaultCounterVal? := kv.defaultCounterVal?.map UInt64.ofNat
  offset? := kv.offset?
  counterVal? := kv.counterVal?.map UInt64.ofNat
  noPropagate? := kv.noPropagate?
  returnCode? := kv.returnCode?.map Int32.ofNat
  returnError? := kv.returnError?

def Server.toModel (s : Server U) : MemcacheRouter.Server := ⟨s.hostname?.getD [], s.port?.getD 0⟩

/-- `add_host` sets both fields. -/
def Server.ofModel (s : MemcacheRouter.Server) : Server U :=
  { hostname? := some s.hostname, port? := some s.port }

def Instruction.toModel (i : Instruction U) : MemcacheRouter.Instruction where
  getKeys := i.getKeys.map KeyValue.toModel
  setKeys := i.setKeys.map KeyValue.toModel
  incrKeys := i.incrKeys.map KeyValue.toModel
  servers := i.servers.map Server.toModel
  hasStats := i.stats?.isSome

def Instruction.ofModel (i : MemcacheRouter.Instruction) : Instruction U where
  getKeys := i.getKeys.map KeyValue.ofModel
  setKeys := i.setKeys.map KeyValue.ofModel
  incrKeys := i.incrKeys.map KeyValue.ofModel
  servers := i.servers.map Server.ofModel
  stats? := if i.hasStats then some {} else none

/-- The codec of the generated code. What is left of a message that cannot be parsed is
`garbled`. -/
def codec (rt : Runtime U) (garbled : Bytes → MemcacheRouter.Instruction) : Codec where
  parse data := ((Instruction.parseFromArray rt data).map Instruction.toModel).getD (garbled data)
  serialize i := Instruction.serialize rt (Instruction.ofModel i)

/-- The numbers of a key fit into the words of the message. -/
structure KeyValue.Fits (kv : MemcacheRouter.KeyValue) : Prop where
  expireInSeconds : ∀ n ∈ kv.expireInSeconds?, n < 2 ^ 64
  cas : ∀ n ∈ kv.cas?, n < 2 ^ 64
  defaultCounterVal : ∀ n ∈ kv.defaultCounterVal?, n < 2 ^ 64
  counterVal : ∀ n ∈ kv.counterVal?, n < 2 ^ 64
  returnCode : ∀ n ∈ kv.returnCode?, n < 2 ^ 31

instance (kv : MemcacheRouter.KeyValue) : Decidable (KeyValue.Fits kv) :=
  decidable_of_iff ((∀ n ∈ kv.expireInSeconds?, n < 2 ^ 64) ∧ (∀ n ∈ kv.cas?, n < 2 ^ 64) ∧
      (∀ n ∈ kv.defaultCounterVal?, n < 2 ^ 64) ∧ (∀ n ∈ kv.counterVal?, n < 2 ^ 64) ∧
      ∀ n ∈ kv.returnCode?, n < 2 ^ 31)
    ⟨fun h ↦ ⟨h.1, h.2.1, h.2.2.1, h.2.2.2.1, h.2.2.2.2⟩, fun h ↦ ⟨h.1, h.2, h.3, h.4, h.5⟩⟩

/-- An instruction that can be sent. -/
structure Instruction.Fits (rt : Runtime U) (i : MemcacheRouter.Instruction) : Prop where
  getKeys : ∀ kv ∈ i.getKeys, KeyValue.Fits kv
  setKeys : ∀ kv ∈ i.setKeys, KeyValue.Fits kv
  incrKeys : ∀ kv ∈ i.incrKeys, KeyValue.Fits kv
  wellFormed : Instruction.WellFormed rt totalBytesLimit (Instruction.ofModel i)
  byteSize_lt : Instruction.byteSize rt (Instruction.ofModel i) < totalBytesLimit

theorem map_toNat_ofNat {o : Option ℕ} (h : ∀ n ∈ o, n < 2 ^ 64) :
    (o.map UInt64.ofNat).map UInt64.toNat = o := by
  rcases o with _ | n
  · rfl
  · rw [Option.map_some, Option.map_some, UInt64.toNat_ofNat_of_lt' (h n rfl)]

theorem map_toNatClampNeg_ofNat {o : Option ℕ} (h : ∀ n ∈ o, n < 2 ^ 31) :
    (o.map Int32.ofNat).map Int32.toNatClampNeg = o := by
  rcases o with _ | n
  · rfl
  · rw [Option.map_some, Option.map_some, Int32.toNatClampNeg_ofNat_of_lt (h n rfl)]

theorem KeyValue.toModel_ofModel {kv : MemcacheRouter.KeyValue} (h : KeyValue.Fits kv) :
    (KeyValue.ofModel kv : KeyValue U).toModel = kv := by
  rw [toModel, ofModel]
  simp only [map_toNat_ofNat h.expireInSeconds, map_toNat_ofNat h.cas,
    map_toNat_ofNat h.defaultCounterVal, map_toNat_ofNat h.counterVal,
    map_toNatClampNeg_ofNat h.returnCode]

theorem map_toModel_ofModel {kvs : List MemcacheRouter.KeyValue}
    (h : ∀ kv ∈ kvs, KeyValue.Fits kv) :
    (kvs.map (KeyValue.ofModel (U := U))).map KeyValue.toModel = kvs := by
  rw [List.map_map]
  exact (List.map_congr_left fun kv hkv ↦ KeyValue.toModel_ofModel (h kv hkv)).trans (List.map_id _)

theorem Instruction.toModel_ofModel {rt : Runtime U} {i : MemcacheRouter.Instruction}
    (h : Instruction.Fits rt i) : (Instruction.ofModel i : Instruction U).toModel = i := by
  have hservers : (i.servers.map (Server.ofModel (U := U))).map Server.toModel = i.servers := by
    rw [List.map_map]
    exact List.map_id _
  have hstats : (if i.hasStats then some ({} : Stats U) else none).isSome = i.hasStats := by
    cases i.hasStats <;> rfl
  rw [toModel, ofModel]
  simp only [map_toModel_ofModel h.getKeys, map_toModel_ofModel h.setKeys,
    map_toModel_ofModel h.incrKeys, hservers, hstats]

/-- The generated code parses what it wrote. -/
theorem parse_codec {rt : Runtime U} (hrt : rt.Lawful totalBytesLimit)
    (garbled : Bytes → MemcacheRouter.Instruction) {i : MemcacheRouter.Instruction}
    (h : Instruction.Fits rt i) :
    (codec rt garbled).parse ((codec rt garbled).serialize i) = i := by
  have hparse : Instruction.parseFromArray rt (Instruction.serialize rt (Instruction.ofModel i)) =
      some (Instruction.ofModel i) := by
    have hlt := h.byteSize_lt
    rw [← Instruction.length_serialize hrt h.wellFormed hlt] at hlt
    rw [Instruction.parseFromArray, (Instruction.reads hrt h.wellFormed
      h.byteSize_lt).mergeFromBytes hrt.toSound (Instruction.coherent hrt.toSound) hlt,
      Instruction.empty_mergeFrom]
  rw [codec]
  simp only [hparse, Option.map_some, Option.getD_some, Instruction.toModel_ofModel h]

end Memdata

namespace Client

/-- **The router receives what the client has sent.** Whatever a client has called, every message
on its sockets whose numbers fit into the words of `memdata.proto` and that is shorter than 64 MiB
is received as the instruction it was built from, with the identity of the sender on `router_` and
without one on `async_`; and if all of them are such messages, the router can dispatch them exactly
if every call asked for something. -/
theorem received_as_sent {U : Type} {rt : Runtime U} (hrt : rt.Lawful Memdata.totalBytesLimit)
    (garbled : Bytes → Instruction) {py : PyModules} {identity : Bytes} (hid : identity ≠ [])
    {calls : List ClientCall} {c : Client} (hrun : Run (StepOf (step py)) {} calls c) :
    (∀ i ∈ c.reqSent, Memdata.Instruction.Fits rt i →
      receiveOnePacket (Memdata.codec rt garbled) true
        (reqMessage (Memdata.codec rt garbled) identity i) = ⟨[identity], i⟩) ∧
    (∀ i ∈ c.asyncSent, Memdata.Instruction.Fits rt i →
      receiveOnePacket (Memdata.codec rt garbled) false
        (asyncMessage (Memdata.codec rt garbled) i) = ⟨[], i⟩) ∧
    ((∀ i ∈ c.reqSent ++ c.asyncSent, Memdata.Instruction.Fits rt i) →
      (c.Dispatchable (Memdata.codec rt garbled) identity ↔
        Run (Guarded (StepOf (step py)) Asks) {} calls c)) := by
  refine ⟨fun i _ hfits ↦ ?_, fun i _ hfits ↦ ?_, fun hfits ↦ ?_⟩
  · rw [receiveOnePacket_reqMessage hid, Memdata.parse_codec hrt garbled hfits]
  · rw [receiveOnePacket_asyncMessage, Memdata.parse_codec hrt garbled hfits]
  · have hcodec : c.RoundTrips (Memdata.codec rt garbled) :=
      fun i hi ↦ Memdata.parse_codec hrt garbled (hfits i hi)
    rw [dispatchable_iff hid hcodec, and_iff_left (plain_of_run hrun).async]
    exact reqSent_iff_of_run hrun

/-- The client after the host was announced and a key was set and read. -/
def afterSetAndGet : Client where
  hostList := { servers := [⟨[97], 11211⟩] }
  reqSent := [{ servers := [⟨[97], 11211⟩] }, { getKeys := [{ key? := some [107] }] }]
  asyncSent := [{ setKeys := [{
    key? := some [107], val? := some [118], flags? := some 0
    expireInSeconds? := some 0, cas? := some 0, allowReplace? := some true }] }]

theorem afterSetAndGet_fits : ∀ i ∈ afterSetAndGet.reqSent ++ afterSetAndGet.asyncSent,
    Memdata.Instruction.Fits WireFormat.protobuf i := by
  have hsent : ∀ i ∈ afterSetAndGet.reqSent ++ afterSetAndGet.asyncSent,
      (Memdata.Instruction.serialize WireFormat.protobuf (.ofModel i)).length <
        Memdata.totalBytesLimit ∧
      (Memdata.Instruction.table WireFormat.protobuf).mergeFromBytes WireFormat.protobuf {}
        (Memdata.Instruction.serialize WireFormat.protobuf (.ofModel i)) = some (.ofModel i) ∧
      Memdata.Instruction.byteSize WireFormat.protobuf (.ofModel i) <
        Memdata.totalBytesLimit := by decide
  have hkeys : ∀ i ∈ afterSetAndGet.reqSent ++ afterSetAndGet.asyncSent,
      (∀ kv ∈ i.getKeys, Memdata.KeyValue.Fits kv) ∧ (∀ kv ∈ i.setKeys, Memdata.KeyValue.Fits kv) ∧
        ∀ kv ∈ i.incrKeys, Memdata.KeyValue.Fits kv := by decide
  intro i hi
  obtain ⟨hget, hset, hincr⟩ := hkeys i hi
  exact ⟨hget, hset, hincr, Memdata.Instruction.wellFormed_of_parse Memdata.protobuf_lawful
    (hsent i hi).1 (hsent i hi).2.1 Memdata.Instruction.wellFormed_empty, (hsent i hi).2.2⟩

/-- Both calls are dispatched, and the two sockets carry what the calls have built. -/
theorem received_as_sent_setAndGet :
    (∀ i ∈ afterSetAndGet.asyncSent,
      receiveOnePacket (Memdata.codec WireFormat.protobuf fun _ ↦ {}) false
        (asyncMessage (Memdata.codec WireFormat.protobuf fun _ ↦ {}) i) = ⟨[], i⟩) ∧
    afterSetAndGet.Dispatchable (Memdata.codec WireFormat.protobuf fun _ ↦ {}) [0, 1] := by
  obtain ⟨c, hrun, hc⟩ := exists_run_of_execChecked (f := id)
    (fun c call ↦ of_decide_eq_true (p := Asks c call))
    (show (execChecked (step ⟨fun _ ↦ none, fun _ ↦ none⟩) (fun c call ↦ decide (c.Asks call)) {}
      setAndGet).map id = some afterSetAndGet from rfl)
  obtain rfl : c = afterSetAndGet := hc
  obtain ⟨-, hasync, hdispatch⟩ := received_as_sent Memdata.protobuf_lawful (fun _ ↦ {})
    (show [(0 : UInt8), 1] ≠ [] by decide) hrun.of_guarded
  exact ⟨fun i hi ↦ hasync i hi (afterSetAndGet_fits i (List.mem_append_right _ hi)),
    (hdispatch afterSetAndGet_fits).mpr hrun⟩

end Client

end MemcacheRouter
