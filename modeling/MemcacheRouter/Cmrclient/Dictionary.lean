import MemcacheRouter.Cmrclient.Results
import MemcacheRouter.Foundations.ExpiringMap
import MemcacheRouter.Router.Sequential

/-!
# The clients see a dictionary

What the client library, the router and memcached are for: any number of Python clients share one
dictionary of Python objects. This is the specification, and it knows nothing of bytes, flags,
packets, batches or replies.

The way from a value to a client that gets it leads through `PrepareValue`, an instruction, the
queue, a worker that merges requests, memcached, and `Restore`. Without a cache and with one worker
the clients see nothing of it. Memcached holds, under every key, something that is restored to the
value that the dictionary has there; and this is kept by whatever a client can do to a value.
-/

open Transition

namespace MemcacheRouter

/-! ## The specification -/

/-- A dictionary of Python objects, whose entries have tokens and expire. -/
abbrev Dictionary := ExpiringMap Bytes PyValue

/-- What a call writes. -/
structure Write where
  key : Bytes
  val : PyValue
  time : ℕ
  cas : ℕ := 0
  replace : Bool := true

/-- The calls that write a value. -/
def ClientCall.write? : ClientCall → Option Write
  | .set key val time => some { key, val, time }
  | .add key val time => some { key, val, time, replace := false }
  | .cas key val token time => some { key, val, time, cas := token }
  | .setInternal key val time token replace => some { key, val, time, cas := token, replace }
  | .resetHosts | .addHost _ _ | .sendHostList | .get _ | .gets _ | .getMulti _ | .incr _ _
  | .decr _ _ => none

/-- The calls that get values, and their keys. -/
def ClientCall.reads? : ClientCall → Option (List Bytes)
  | .get key | .gets key => some [key]
  | .getMulti keys => some keys
  | .resetHosts | .addHost _ _ | .sendHostList | .set _ _ _ | .add _ _ _ | .cas _ _ _ _
  | .setInternal _ _ _ _ _ | .incr _ _ | .decr _ _ => none

/-- What happens: a client with these routing frames calls, or time passes. -/
inductive Occurrence where
  | call (frameIds : List Bytes) (call : ClientCall)
  | tick (seconds : ℕ)

namespace Dictionary

/-- The dictionary after a write. -/
def put (d : Dictionary) (w : Write) : Dictionary :=
  d.store w.key w.val (deadline d.now w.time) w.cas w.replace

/-- What an occurrence does to the dictionary. -/
def after (d : Dictionary) : Occurrence → Dictionary
  | .call _ call => call.write?.elim d d.put
  | .tick n => d.tick n

/-- The calls that get values, each with the dictionary at that moment. -/
def asked (d : Dictionary) : List Occurrence → List (List Bytes × ClientCall × Dictionary)
  | [] => []
  | .call frameIds call :: os =>
    (if call.reads?.isSome then [(frameIds, call, d)] else []) ++
      asked (d.after (.call frameIds call)) os
  | .tick n :: os => asked (d.after (.tick n)) os

/-- The value of a key. -/
def value (d : Dictionary) (k : Bytes) : Option PyValue := (d.find k).map ExpiringMap.Entry.value

/-- The token of a key, and 0 if there is no entry. -/
def token (d : Dictionary) (k : Bytes) : ℕ := ((d.find k).map ExpiringMap.Entry.token).getD 0

/-- The call returns what the dictionary has, when this is the response: for `get` the value, for
`gets` the value and its token, for `get_multi` a `dict` with the values of exactly these keys. -/
def Returns (z : Zlib) (loads : Bytes → Option PyValue) (same : ℕ → ℕ → Prop) (d : Dictionary)
    (response : Instruction) : ClientCall → Prop
  | .get k => ∃ r n, Gives same (d.value k) r ∧
      ∀ fuel, n ≤ fuel → Client.getResult z loads fuel response = .ok r
  | .gets k => ∃ r n, Gives same (d.value k) r ∧
      ∀ fuel, n ≤ fuel → Client.getsResult z loads fuel response = .ok (r, asLong (d.token k))
  | .getMulti ks => ∃ dict n,
      (∀ fuel, n ≤ fuel → Client.getMultiResult z loads fuel response = .ok dict) ∧
        ∀ k, (k ∈ ks → ∃ r, dict k = some r ∧ Gives same (d.value k) r) ∧ (k ∉ ks → dict k = none)
  | _ => False

end Dictionary

/-- An event of the worker stands for this occurrence: the packet carries the one instruction that
the call has sent. -/
def Occurrence.Stands (py : PyModules) : Occurrence → Event → Prop
  | .call frameIds request, .packet p => p.frameIds = frameIds ∧
      (request.write?.isSome ∨ request.reads?.isSome) ∧
      ∃ c, Client.step py {} request = some c ∧ c.reqSent ++ c.asyncSent = [p.instruction]
  | .tick m, .tick n => m = n
  | _, _ => False

/-! ## Memcached as a map -/

/-- An item, with what `Restore` is given of it. -/
def Item.entry (it : Item) : ExpiringMap.Entry (Bytes × UInt32) :=
  ⟨(it.value, it.flags), it.cas, it.exptime⟩

/-- The contents of memcached. -/
def Store.toMap (s : Store) : ExpiringMap Bytes (Bytes × UInt32) where
  entries k := (s.items k).map Item.entry
  now := s.now
  nextToken := s.nextCas

namespace Store

variable (s : Store) (k : Bytes)

theorem find_toMap : s.toMap.find k = (s.lookup k).map Item.entry := by
  rw [ExpiringMap.find, lookup, toMap]
  dsimp only
  rcases s.items k with _ | it
  · rfl
  · rw [Option.map_some, Option.filter_some, Option.filter_some, Item.entry]
    split_ifs <;> rfl

theorem toMap_write (value : Bytes) (flags : UInt32) (exptime : Option ℕ) :
    (s.write k value flags exptime).toMap = s.toMap.assign k (value, flags) exptime := by
  rw [toMap, ExpiringMap.assign, ExpiringMap.mk.injEq]
  refine ⟨funext fun j ↦ ?_, rfl, rfl⟩
  by_cases hj : j = k
  · rw [hj, items_write_self, Function.update_self]
    rfl
  · rw [items_write_of_ne hj, Function.update_of_ne hj]
    rfl

/-- **The three-way branch of `SetKeys` is one conditional write.** -/
theorem toMap_put (kv : KeyValue) : (s.put kv).1.toMap = s.toMap.store kv.key (kv.val, kv.flags)
    (deadline s.now kv.expireInSeconds) kv.cas kv.allowReplace := by
  have hset : (s.set kv.key kv.val kv.expireInSeconds kv.flags).1.toMap =
      s.toMap.assign kv.key (kv.val, kv.flags) (deadline s.now kv.expireInSeconds) :=
    toMap_write _ _ _ _ _
  rw [put, ExpiringMap.store, ExpiringMap.allows, find_toMap]
  by_cases hcas : 0 < kv.cas
  · rw [if_pos hcas, if_pos hcas, cas]
    rcases s.lookup kv.key with _ | it
    · rfl
    · by_cases htoken : it.cas = kv.cas
      · simp [htoken, Item.entry, hset]
      · simp [htoken, Item.entry]
  · rw [if_neg hcas, if_neg hcas, add]
    rcases kv.allowReplace with _ | _
    · rcases s.lookup kv.key with _ | it
      · exact hset
      · rfl
    · exact hset

end Store

/-! ## One call -/

section Calls

variable (py : PyModules) (z : Zlib) (loads : Bytes → Option PyValue) (same : ℕ → ℕ → Prop)

/-- Memcached holds, under every key, what is restored to the value that the dictionary has. -/
def Dictionary.HeldBy (d : Dictionary) (s : Store) : Prop :=
  ExpiringMap.Rel (fun v p ↦ Represents z loads same (some v) p.1 p.2) d s.toMap

/-- An item of `set_keys` carries a write. -/
structure Write.CarriedBy (w : Write) (kv : KeyValue) : Prop where
  key : kv.key = w.key
  val : Represents z loads same (some w.val) kv.val kv.flags
  time : kv.expireInSeconds = w.time
  cas : kv.cas = w.cas
  replace : kv.allowReplace = w.replace
  propagate : kv.noPropagate = false

/-- What is assumed of Python and of zlib where a written value is concerned. -/
def Write.Proper (w : Write) : Prop := w.val.Valid ∧ Inverts py z loads same w.val

variable {py z loads same} {d : Dictionary} {s : Store} {w : Write} {c : Client}
  {request : ClientCall}

/-- The end of `PrepareValue`. -/
theorem exists_writeToKV_of (py : PyModules) (rep : Bytes) (flags : UInt32) (canCompress : Bool)
    {kv kv' : KeyValue} (h : (if canCompress && 3072 < rep.length then do
        let final ← py.compress rep
        return writeToKV final (flags ||| flagCompressed) kv
      else return writeToKV rep flags kv) = some kv') :
    ∃ data flags, kv' = writeToKV data flags kv := by
  split_ifs at h
  · obtain ⟨final, -, h⟩ := Option.bind_eq_some_iff.mp h
    exact ⟨_, _, (Option.some.inj h).symm⟩
  · exact ⟨_, _, (Option.some.inj h).symm⟩

/-- What `PrepareValue` does to a message. -/
theorem exists_writeToKV {v : PyValue} {kv kv' : KeyValue} (h : prepareValue py v kv = some kv') :
    ∃ data flags, kv' = writeToKV data flags kv := by
  rcases v with s | b | n | n | a
  · exact exists_writeToKV_of py s 0 true h
  · exact exists_writeToKV_of py (if b then [49] else [48]) flagBool false h
  · exact exists_writeToKV_of py (pyObjectStr n) flagInteger false h
  · exact exists_writeToKV_of py (pyObjectStr n) flagLong false h
  · obtain ⟨⟨rep, flags, canCompress⟩, -, h⟩ := Option.bind_eq_some_iff.mp h
    exact exists_writeToKV_of py rep flags canCompress h

/-- A call that writes sends an item that carries the write. -/
theorem exists_carriedBy (hw : request.write? = some w) (hproper : w.Proper py z loads same)
    (h : Client.step py {} request = some c) :
    ∃ kv, c.reqSent = [] ∧ c.asyncSent = [{ setKeys := [kv] }] ∧
      w.CarriedBy z loads same kv := by
  have hset : ({} : Client).setInternal py w.key w.val w.time w.cas w.replace = some c := by
    cases request <;> cases hw <;> exact h
  obtain ⟨kv, hkv, hc⟩ := Option.bind_eq_some_iff.mp hset
  obtain rfl := Option.some.inj hc
  have hval := Client.represents_prepareValue hproper.1 hproper.2 hkv
  obtain ⟨data, flags, rfl⟩ := exists_writeToKV hkv
  exact ⟨_, rfl, rfl, rfl, hval, rfl, rfl, rfl, rfl⟩

/-- A call that gets values sends their keys. -/
theorem sent_of_reads {ks : List Bytes} (hks : request.reads? = some ks)
    (h : Client.step py {} request = some c) :
    c.reqSent = [{ getKeys := ks.map fun k ↦ { key? := some k } }] ∧ c.asyncSent = [] := by
  have hget : some (({} : Client).getInternal ks) = some c := by
    cases request <;> cases hks <;> exact h
  obtain rfl := Option.some.inj hget
  exact ⟨rfl, rfl⟩

namespace Dictionary

/-- **A write reaches memcached.** -/
theorem HeldBy.put (h : d.HeldBy z loads same s) {kv : KeyValue}
    (hkv : w.CarriedBy z loads same kv) : (d.put w).HeldBy z loads same (s.put kv).1 := by
  have hnow : s.now = d.now := ExpiringMap.Rel.now h
  rw [HeldBy, Store.toMap_put, Dictionary.put, hkv.key, hkv.time, hkv.cas, hkv.replace, hnow]
  apply ExpiringMap.Rel.store h
  exact hkv.val

/-- **A key in the response of the router** has the value and the token of the dictionary. -/
theorem HeldBy.merged (h : d.HeldBy z loads same s) (lib : Libmemcached) (k : Bytes) :
    Represents z loads same (d.value k)
        (({ key? := some k } : KeyValue).mergeFrom (lib.entryFor s k)).val
        (({ key? := some k } : KeyValue).mergeFrom (lib.entryFor s k)).flags ∧
      (({ key? := some k } : KeyValue).mergeFrom (lib.entryFor s k)).cas = d.token k := by
  have hfind := ExpiringMap.Rel.find h k
  rw [Store.find_toMap] at hfind
  rw [value, token, Libmemcached.entryFor]
  generalize d.find k = o, s.lookup k = o' at hfind
  rcases o' with _ | it
  · cases hfind
    exact ⟨Client.represents_none, rfl⟩
  · cases hfind with
    | some he => exact ⟨he.value, he.token⟩

/-- The key in the response is the one that was asked for. -/
theorem key_merged (lib : Libmemcached) (s : Store) (k : Bytes) :
    (({ key? := some k } : KeyValue).mergeFrom (lib.entryFor s k)).key = k := by
  rw [Libmemcached.entryFor]
  rcases s.lookup k with _ | it <;> rfl

/-- **What the client makes of the response.** -/
theorem HeldBy.returns (h : d.HeldBy z loads same s) (lib : Libmemcached) {ks : List Bytes}
    {response : Instruction} (hks : request.reads? = some ks) (hplain : ∀ k ∈ ks, 0 ∉ k)
    (hresponse : response.getKeys = ks.map fun k ↦
      ({ key? := some k } : KeyValue).mergeFrom (lib.entryFor s k)) :
    d.Returns z loads same response request := by
  cases request with
  | get k =>
    obtain rfl := Option.some.inj hks
    obtain ⟨r, n, hgives, hrestore⟩ := Client.exists_restoreKey (h.merged lib k).1
    refine ⟨r, n, hgives, fun fuel hfuel ↦ ?_⟩
    rw [Client.getResult, hresponse]
    exact hrestore fuel hfuel
  | gets k =>
    obtain rfl := Option.some.inj hks
    obtain ⟨hvalue, htoken⟩ := h.merged lib k
    obtain ⟨r, n, hgives, hrestore⟩ := Client.exists_restoreKey hvalue
    refine ⟨r, n, hgives, fun fuel hfuel ↦ ?_⟩
    rw [Client.getsResult, hresponse]
    exact bind_eq_ok.mpr ⟨r, hrestore fuel hfuel, by rw [htoken]; rfl⟩
  | getMulti ks =>
    obtain rfl := Option.some.inj hks
    have hkeys : response.getKeys.map KeyValue.key = ks := by
      rw [hresponse, List.map_map]
      exact (List.map_congr_left fun k _ ↦ key_merged lib s k).trans (List.map_id ks)
    have hnul : ∀ kv ∈ response.getKeys, 0 ∉ kv.key := by
      intro kv hkv
      exact hplain _ (hkeys ▸ List.mem_map_of_mem hkv)
    have hvalues : ∀ kv ∈ response.getKeys, ∃ v, v = d.value kv.key ∧
        Represents z loads same v kv.val kv.flags := by
      intro kv hkv
      rw [hresponse] at hkv
      obtain ⟨k, -, rfl⟩ := List.mem_map.mp hkv
      rw [key_merged]
      exact ⟨_, rfl, (h.merged lib k).1⟩
    obtain ⟨dict, n, hfold, hdict⟩ :=
      Client.exists_foldlM_putKey (Q := fun k v ↦ v = d.value k) hnul hvalues fun _ ↦ none
    rw [hkeys] at hdict
    refine ⟨dict, n, hfold, fun k ↦ ⟨fun hk ↦ ?_, (hdict k).2⟩⟩
    obtain ⟨r, _, hr, rfl, hgives⟩ := (hdict k).1 hk
    exact ⟨r, hr, hgives⟩
  | resetHosts | addHost _ _ | sendHostList | set _ _ _ | add _ _ _ | cas _ _ _ _
  | setInternal _ _ _ _ _ | incr _ _ | decr _ _ => cases hks

/-- The reply goes back where the request came from, and the call returns what the dictionary
had. -/
def Answers (z : Zlib) (loads : Bytes → Option PyValue) (same : ℕ → ℕ → Prop)
    (asked : List Bytes × ClientCall × Dictionary) (reply : Packet) : Prop :=
  reply.frameIds = asked.1 ∧ asked.2.2.Returns z loads same reply.instruction asked.2.1

/-- A worker without a cache takes a packet with one item to set. -/
theorem processPackets_set (lib : Libmemcached) {st : Stores} {p : Packet} {kv : KeyValue}
    (hst : st.cache = none) (hp : p.instruction = { setKeys := [kv] })
    (hkv : kv.noPropagate = false) :
    processPackets lib st [p] = .ok (⟨none, (st.memc.put kv).1⟩, []) := by
  obtain ⟨cache, memc⟩ := st
  obtain rfl : cache = none := hst
  have htype : p.getType = .ok .set := by rw [Packet.getType, hp]; rfl
  simp only [processPackets, runPackets, htype, hp, setKeys, setKey, Stores.cacheAdd, hkv, bind,
    Except.bind]
  rfl

/-- **One call**, from the dictionary to the reply. -/
theorem HeldBy.call (lib : Libmemcached) {st : Stores} {p : Packet} {frameIds : List Bytes}
    (h : d.HeldBy z loads same st.memc) (hst : st.cache = none) (hp : p.Sendable)
    (hstands : (Occurrence.call frameIds request).Stands py (.packet p))
    (hproper : ∀ w, request.write? = some w → w.Proper py z loads same) :
    ∃ memc replies, processPackets lib st [p] = .ok (⟨none, memc⟩, replies) ∧
      (d.after (.call frameIds request)).HeldBy z loads same memc ∧
      List.Forall₂ (Answers z loads same) (d.asked [.call frameIds request]) replies := by
  obtain ⟨cache, memc⟩ := st
  obtain rfl : cache = none := hst
  obtain ⟨hids, hkind, c, hstep, hsent⟩ := hstands
  -- a packet that a call has sent reads or writes, and does not do both
  rcases hw : request.write? with _ | w
  · rw [hw] at hkind
    obtain ⟨ks, hks⟩ := Option.isSome_iff_exists.mp (hkind.resolve_left (by simp))
    obtain ⟨hreq, hasync⟩ := sent_of_reads hks hstep
    rw [hreq, hasync, List.append_nil, List.singleton_inj] at hsent
    have hget : p.isGet = true := by
      rw [Packet.isGet, decide_eq_true_iff, ← hsent]
      intro hnil
      refine Packet.exists_getType_iff.mp hp.type ?_
      rw [← hsent, Instruction.mk.injEq]
      exact ⟨hnil, rfl, rfl, rfl, rfl⟩
    have hplain : ∀ k ∈ ks, 0 ∉ k := by
      intro k hk
      refine (hp.plain { key? := some k } ?_).1
      rw [← hsent]
      exact List.mem_map_of_mem hk
    have hproc : processPackets lib ⟨none, memc⟩ [p] = .ok (⟨none, memc⟩, [lib.reply memc p]) :=
      processPackets_gets rfl (List.forall_mem_singleton.mpr hget)
        fun q hq ↦ List.mem_singleton.mp hq ▸ hp.plain
    refine ⟨memc, _, hproc, ?_, ?_⟩
    · rw [after, hw]
      exact h
    · have hreturns : d.Returns z loads same (lib.reply memc p).instruction request := by
        refine h.returns lib hks hplain ?_
        rw [Libmemcached.reply, ← hsent]
        exact List.map_map
      rw [asked, hks]
      exact .cons ⟨hids, hreturns⟩ .nil
  · obtain ⟨kv, hreq, hasync, hcarried⟩ := exists_carriedBy hw (hproper w hw) hstep
    rw [hreq, hasync, List.nil_append, List.singleton_inj] at hsent
    have hreads : request.reads? = none := by
      cases request <;> first | rfl | cases hw
    refine ⟨_, _, processPackets_set lib rfl hsent.symm hcarried.propagate, ?_, ?_⟩
    · rw [after, hw]
      exact h.put hcarried
    · rw [asked, hreads]
      exact .nil

/-! ## Whole runs -/

/-- The dictionary at the end. -/
def afterAll (d : Dictionary) (os : List Occurrence) : Dictionary := os.foldl after d

theorem asked_cons (o : Occurrence) (os : List Occurrence) :
    d.asked (o :: os) = d.asked [o] ++ (d.after o).asked os := by
  rcases o with ⟨frameIds, request⟩ | n
  · rw [asked, asked, asked, List.append_nil]
  · rfl

/-- **One packet after the other**: the replies are those of the dictionary. -/
theorem HeldBy.sequential (lib : Libmemcached) {os : List Occurrence} {es : List Event}
    (hstands : List.Forall₂ (Occurrence.Stands py) os es)
    (hsend : ∀ p, .packet p ∈ es → p.Sendable)
    (hproper : ∀ ids request w, .call ids request ∈ os → request.write? = some w →
      w.Proper py z loads same) :
    ∀ {d : Dictionary} {st st' : Stores} {replies : List Packet}, d.HeldBy z loads same st.memc →
      st.cache = none → sequential lib es st = .ok (st', replies) →
        (d.afterAll os).HeldBy z loads same st'.memc ∧
          List.Forall₂ (Answers z loads same) (d.asked os) replies := by
  induction hstands with
  | nil =>
    intro d st st' replies h _ hseq
    cases hseq
    exact ⟨h, .nil⟩
  | @cons o e os es ho _ ih =>
    intro d st st' replies h hst hseq
    have hsend' : ∀ p, .packet p ∈ es → p.Sendable := fun p hp ↦
      hsend p (List.mem_cons_of_mem _ hp)
    have hproper' : ∀ ids request w, .call ids request ∈ os → request.write? = some w →
        w.Proper py z loads same := fun ids request w hmem ↦
      hproper ids request w (List.mem_cons_of_mem _ hmem)
    rw [asked_cons, afterAll, List.foldl_cons]
    rcases o with ⟨frameIds, request⟩ | n
    · rcases e with p | n
      · obtain ⟨memc, r, hproc, hheld, hanswers⟩ := h.call lib hst
          (hsend p List.mem_cons_self) ho fun w ↦ hproper frameIds request w List.mem_cons_self
        rw [MemcacheRouter.sequential, hproc] at hseq
        obtain ⟨_, ⟨⟩, hseq⟩ := bind_eq_ok.mp hseq
        obtain ⟨⟨st₁, rs⟩, hrest, hseq⟩ := bind_eq_ok.mp hseq
        cases hseq
        obtain ⟨hheld', hanswers'⟩ := ih hsend' hproper' hheld rfl hrest
        exact ⟨hheld', List.rel_append hanswers hanswers'⟩
      · cases ho
    · rcases e with p | m
      · cases ho
      · obtain rfl : n = m := ho
        have hst' : ({ st with memc := st.memc.tick n } : Stores).cache = none := hst
        refine ih hsend' hproper' ?_ hst' hseq
        exact ExpiringMap.Rel.tick h n

end Dictionary

end Calls

end MemcacheRouter
