import Mathlib.Algebra.Order.Ring.Int
import Mathlib.Data.List.GetD
import MemcacheRouter.Routerlib.Protocol

/-!
# Reading the responses

The reading loop of `Server::ProcessRequests`. Every turn of its inner loop takes one frame from the
bytes that the last `read` returned, hands it to the `ResponseState` of the command at hand, and
counts down the instructions of that command. Both loops keep nothing of a chunk when they go on to
the next: every chunk is parsed from its beginning.

So the responses are handed out correctly, to whatever commands they belong, exactly if every chunk
ends where a frame ends. A chunk that ends inside a header makes `substr` throw, and one that ends
inside a body hands out part of a frame and takes the next chunk for a new one.
-/

namespace MemcacheRouter.Routerlib

/-- `kBufferLen`. -/
def kBufferLen : ℕ := 512

/-- The bytes that `append(str, start, len)` takes: a negative length is converted to a huge one. -/
def subBytes (str : Bytes) (start : ℕ) (len : ℤ) : Bytes :=
  if len < 0 then str.drop start else (str.drop start).take len.toNat

/-- `class ResponseState`. `Reset`, which nobody calls, is left out. -/
structure ResponseState where
  response : Bytes := []
  /-- An `atomic_int`, which counts fewer than `2 ^ 31` commands. -/
  numLeft : ℤ := 0
  deriving DecidableEq, Repr

namespace ResponseState

/-- `ResponseState::IncrementPending`. -/
def incrementPending (s : ResponseState) : ResponseState := { s with numLeft := s.numLeft + 1 }

/-- `ResponseState::DecrementPending`. -/
def decrementPending (s : ResponseState) : ResponseState := { s with numLeft := s.numLeft - 1 }

/-- `ResponseState::AddResponse`, with the bytes that are appended. -/
def addResponse (s : ResponseState) (bytes : Bytes) : ResponseState :=
  { s with response := s.response ++ bytes }

end ResponseState

/-- The `ResponseState`s, by address. -/
abbrev States := ℕ → ResponseState

/-! ## One turn -/

/-- The variables of the reading loop, and the counters of the node that it counts down. -/
structure Cursor where
  /-- They are `int`s, below `2 ^ 31`, and so is the index of the command. -/
  numInstructions : List ℤ
  stateIdx : ℕ := 0
  response : Bytes := []
  pos : ℤ := 0
  header : ProtocolHeader := {}

/-- What one turn has read: the `ResponseState` that it is for, the bytes, the position after them
and the header. -/
structure Delivery where
  target : ℕ
  bytes : Bytes
  endPos : ℤ
  header : ProtocolHeader

/-- The extras are looked at, and the data are printed. -/
def checkExtras (response : Bytes) (pos : ℕ) (header : ProtocolHeader) : Except Crash Unit :=
  if 0 < header.extraLength ∧ header.extraLength ≠ 4 then .error .checkFailed
  else if 0 < header.extraLength ∧ response.length < pos + headerSize then .error .outOfRange
  else if response.length < pos + headerSize + header.extraLength.toNat then .error .outOfRange
  else .ok ()

namespace Cursor

/-- `pos < response.size()`, where a negative position is converted to a huge one. -/
def more (c : Cursor) : Bool := 0 ≤ c.pos && c.pos < c.response.length

/-- The first half of a turn, up to the call of `AddResponse`. -/
def deliver (c : Cursor) (states : List ℕ) : Except Crash Delivery := do
  let (endPos, header) ← parseHeader c.response c.pos.toNat c.header
  match states[c.stateIdx]? with
  | none => .error .badIndex
  | some target =>
    return ⟨target, subBytes c.response c.pos.toNat (endPos - c.pos), endPos, header⟩

/-- The second half of a turn: whether the command is complete, and the variables after it. -/
def count (c : Cursor) (d : Delivery) : Except Crash (Bool × Cursor) := do
  checkExtras c.response c.pos.toNat d.header
  match c.numInstructions[c.stateIdx]? with
  | none => .error .badIndex
  | some k =>
    return (k - 1 = 0, { c with
      numInstructions := c.numInstructions.set c.stateIdx (k - 1)
      stateIdx := if k - 1 = 0 then c.stateIdx + 1 else c.stateIdx
      pos := d.endPos
      header := d.header })

end Cursor

/-- A worker in its reading loop, and the `ResponseState`s. -/
structure Reader where
  states : List ℕ
  cursor : Cursor
  heap : States

namespace Reader

/-- One turn of the inner loop. -/
def turn (r : Reader) : Except Crash Reader := do
  let d ← r.cursor.deliver r.states
  let (completes, cursor) ← r.cursor.count d
  let s := (r.heap d.target).addResponse d.bytes
  return { r with
    cursor := cursor
    heap := Function.update r.heap d.target (if completes then s.decrementPending else s) }

/-- The inner loop, for at most `fuel` tests of its condition. -/
def drain : ℕ → Reader → Except Crash Reader
  | 0, _ => .error .unfinished
  | fuel + 1, r => if r.cursor.more then r.turn >>= drain fuel else .ok r

/-- `read` returned a chunk. The header is not initialised. -/
def read (r : Reader) (chunk : Bytes) (header : ProtocolHeader) : Reader :=
  { r with cursor := { r.cursor with response := chunk, pos := 0, header := header } }

/-- The reading loop, on the chunks that successive `read`s return, with what is on the stack before
each of them: what is left of the chunks when it ends. It does not end when the chunks do. -/
def readLoop (stack : ℕ → ProtocolHeader) (fuel : ℕ) :
    Reader → List Bytes → Except Crash (Reader × List Bytes)
  | _, [] => .error .unfinished
  | r, chunk :: chunks => do
    let r ← drain fuel (r.read chunk (stack chunks.length))
    if r.states.length ≤ r.cursor.stateIdx then return (r, chunks)
    else readLoop stack fuel r chunks

end Reader

/-! ## A whole frame -/

/-- A well-formed response: its header gives its length, and the extras, if there are any, are four
bytes of the body. -/
structure ResponseFrame (f : Bytes) : Prop where
  size : frameSize responseMagic f = some f.length
  extras : (ProtocolHeader.ofBytes f).extraLength = 0 ∨ (ProtocolHeader.ofBytes f).extraLength = 4
  fits : (ProtocolHeader.ofBytes f).extraLength.toNat
    ≤ (ProtocolHeader.ofBytes f).totalBodyLength.toNat

instance (f : Bytes) : Decidable (ResponseFrame f) :=
  decidable_of_iff (frameSize responseMagic f = some f.length ∧
    ((ProtocolHeader.ofBytes f).extraLength = 0 ∨ (ProtocolHeader.ofBytes f).extraLength = 4) ∧
    (ProtocolHeader.ofBytes f).extraLength.toNat ≤ (ProtocolHeader.ofBytes f).totalBodyLength.toNat)
    ⟨fun h ↦ ⟨h.1, h.2.1, h.2.2⟩, fun h ↦ ⟨h.size, h.extras, h.fits⟩⟩

theorem ResponseFrame.ne_nil {f : Bytes} (hf : ResponseFrame f) : f ≠ [] :=
  (delimits_of_frameSize hf.size).ne_nil

section Frame

variable {response f rest : Bytes} {pos : ℕ} {header : ProtocolHeader}

/-- The length of a chunk that has a frame at a position. -/
theorem length_of_drop (hf : ResponseFrame f) (h : response.drop pos = f ++ rest) :
    response.length = pos + f.length + rest.length := by
  have hlen := congrArg List.length h
  have hpos := List.length_pos_iff.mpr hf.ne_nil
  rw [List.length_drop, List.length_append] at hlen
  omega

/-- `ParseHeader` on a whole frame. -/
theorem parseHeader_frame (hf : ResponseFrame f) (h : response.drop pos = f ++ rest)
    (hlen : response.length ≤ kBufferLen) :
    parseHeader response pos header = .ok ((pos + f.length : ℕ), ProtocolHeader.ofBytes f) := by
  obtain ⟨hsize, hmagic, htotal⟩ := frameSize_eq_some_iff.mp hf.size
  have hresponse := length_of_drop hf h
  rw [kBufferLen] at hlen
  have hheader : ProtocolHeader.ofBytes (f ++ rest) = ProtocolHeader.ofBytes f :=
    ProtocolHeader.ofBytes_append f rest hsize
  rw [parseHeader, if_neg (by omega)]
  simp only [h, hheader, hmagic, if_true]
  rw [add_assoc, ← htotal, toInt_eq (by omega)]

theorem checkExtras_frame (hf : ResponseFrame f) (h : response.drop pos = f ++ rest) :
    checkExtras response pos (ProtocolHeader.ofBytes f) = .ok () := by
  obtain ⟨hsize, -, htotal⟩ := frameSize_eq_some_iff.mp hf.size
  have hresponse := length_of_drop hf h
  have hfits := hf.fits
  have hextras : ¬(0 < (ProtocolHeader.ofBytes f).extraLength ∧
      (ProtocolHeader.ofBytes f).extraLength ≠ 4) := by
    rcases hf.extras with h | h <;> simp [h]
  rw [checkExtras, if_neg hextras, if_neg (by omega), if_neg (by omega)]

end Frame

namespace Cursor

variable {c : Cursor} {f rest : Bytes}

/-- There is a frame at the position of the cursor, in a chunk that fits the buffer. -/
structure At (c : Cursor) (f rest : Bytes) : Prop where
  frame : ResponseFrame f
  nonneg : 0 ≤ c.pos
  drop : c.response.drop c.pos.toNat = f ++ rest
  length : c.response.length ≤ kBufferLen

theorem At.more (h : c.At f rest) : c.more = true := by
  have hlen := length_of_drop h.frame h.drop
  have hpos := List.length_pos_iff.mpr h.frame.ne_nil
  have hnonneg := h.nonneg
  rw [Cursor.more, Bool.and_eq_true, decide_eq_true_iff, decide_eq_true_iff]
  omega

/-- **The first half of a turn at a whole frame.** -/
theorem At.deliver (h : c.At f rest) {states : List ℕ} {s : ℕ}
    (hs : states[c.stateIdx]? = some s) :
    c.deliver states = .ok ⟨s, f, c.pos + f.length, ProtocolHeader.ofBytes f⟩ := by
  have hpos : ((c.pos.toNat : ℕ) : ℤ) = c.pos := Int.toNat_of_nonneg h.nonneg
  have hbytes : subBytes c.response c.pos.toNat (c.pos + f.length - c.pos) = f := by
    rw [add_sub_cancel_left, subBytes, if_neg (by omega), h.drop, Int.toNat_natCast, List.take_left]
  rw [Cursor.deliver, parseHeader_frame h.frame h.drop h.length]
  simp only [bind, Except.bind, hs, Nat.cast_add, hpos, hbytes]
  rfl

/-- **The second half of a turn at a whole frame.** -/
theorem At.count (h : c.At f rest) {s : ℕ} {k : ℤ}
    (hk : c.numInstructions[c.stateIdx]? = some k) :
    c.count ⟨s, f, c.pos + f.length, ProtocolHeader.ofBytes f⟩ = .ok (k - 1 = 0, { c with
      numInstructions := c.numInstructions.set c.stateIdx (k - 1)
      stateIdx := if k - 1 = 0 then c.stateIdx + 1 else c.stateIdx
      pos := c.pos + f.length
      header := ProtocolHeader.ofBytes f }) := by
  rw [Cursor.count, checkExtras_frame h.frame h.drop]
  simp only [bind, Except.bind, hk]
  rfl

/-- The instructions that are still to be answered, for each command that is left: the address of
its `ResponseState` and their number. -/
structure Owes (c : Cursor) (states : List ℕ) (counts : List (ℕ × ℕ)) : Prop where
  states : states.drop c.stateIdx = counts.map Prod.fst
  counts : c.numInstructions.drop c.stateIdx = counts.map fun x ↦ (x.2 : ℤ)

variable {states : List ℕ} {counts : List (ℕ × ℕ)} {s k : ℕ}

theorem Owes.head (h : c.Owes states ((s, k) :: counts)) :
    states[c.stateIdx]? = some s ∧ c.numInstructions[c.stateIdx]? = some (k : ℤ) := by
  have hstates := congrArg (fun l : List ℕ ↦ l[0]?) h.states
  have hcounts := congrArg (fun l : List ℤ ↦ l[0]?) h.counts
  simp only [List.getElem?_drop, Nat.add_zero] at hstates hcounts
  exact ⟨hstates, hcounts⟩

/-- **One instruction is counted down**, and the command is left behind with its last one. -/
theorem Owes.count (h : c.Owes states ((s, k + 1) :: counts)) (hat : c.At f rest) :
    ∃ c', c.count ⟨s, f, c.pos + f.length, ProtocolHeader.ofBytes f⟩ = .ok (k = 0, c') ∧
      c'.Owes states (if k = 0 then counts else (s, k) :: counts) ∧
      c'.stateIdx = (if k = 0 then c.stateIdx + 1 else c.stateIdx) ∧
      c'.pos = c.pos + f.length ∧ c'.response = c.response := by
  have hk : ((k + 1 : ℕ) : ℤ) - 1 = k := by omega
  have hzero : (k : ℤ) = 0 ↔ k = 0 := by omega
  have hcount := hat.count (s := s) h.head.2
  simp only [hk, hzero] at hcount
  refine ⟨_, hcount, ?_, rfl, rfl, rfl⟩
  split_ifs with hlast
  · refine ⟨?_, ?_⟩
    · exact List.tail_drop.symm.trans (congrArg List.tail h.states)
    · refine (List.drop_set_of_lt (Nat.lt_succ_self _)).trans ?_
      exact List.tail_drop.symm.trans (congrArg List.tail h.counts)
  · refine ⟨h.states, List.drop_set.trans ?_⟩
    rw [if_neg (lt_irrefl _), h.counts, Nat.sub_self]
    rfl

/-- What the first half of a turn can do. -/
theorem deliver_eq_ok {states : List ℕ} {d : Delivery} (h : c.deliver states = .ok d) :
    parseHeader c.response c.pos.toNat c.header = .ok (d.endPos, d.header) ∧
      states[c.stateIdx]? = some d.target ∧
      d.bytes = subBytes c.response c.pos.toNat (d.endPos - c.pos) := by
  obtain ⟨⟨endPos, header⟩, hparse, h⟩ := bind_eq_ok.mp h
  dsimp only at h
  split at h
  · cases h
  · next s hs =>
    cases h
    exact ⟨hparse, hs, rfl⟩

/-- What the second half of a turn can do. -/
theorem count_eq_ok {d : Delivery} {completes : Bool} {c' : Cursor}
    (h : c.count d = .ok (completes, c')) :
    ∃ k, c.numInstructions[c.stateIdx]? = some k ∧ completes = decide (k - 1 = 0) ∧
      c' = { c with
        numInstructions := c.numInstructions.set c.stateIdx (k - 1)
        stateIdx := if k - 1 = 0 then c.stateIdx + 1 else c.stateIdx
        pos := d.endPos
        header := d.header } := by
  obtain ⟨-, -, h⟩ := bind_eq_ok.mp h
  split at h
  · cases h
  · next k hk =>
    cases h
    exact ⟨k, hk, rfl, rfl⟩

theorem subBytes_isPrefix (str : Bytes) (start : ℕ) (len : ℤ) :
    subBytes str start len <+: str.drop start := by
  rw [subBytes]
  split_ifs
  · exact List.prefix_rfl
  · exact List.take_prefix _ _

/-- A turn that hands out a whole frame has stopped where the frame ends. -/
theorem at_of_deliver {states : List ℕ} {d : Delivery} (h : c.deliver states = .ok d)
    (hf : ResponseFrame d.bytes) (hpos : 0 ≤ c.pos) (hlen : c.response.length ≤ kBufferLen) :
    d.endPos = c.pos + d.bytes.length ∧
      c.response.drop c.pos.toNat = d.bytes ++ c.response.drop d.endPos.toNat := by
  obtain ⟨hparse, -, hbytes⟩ := deliver_eq_ok h
  obtain ⟨rest, hrest⟩ : d.bytes <+: c.response.drop c.pos.toNat :=
    hbytes ▸ subBytes_isPrefix _ _ _
  rw [parseHeader_frame hf hrest.symm hlen, Except.ok.injEq, Prod.mk.injEq] at hparse
  have hend : d.endPos = c.pos + d.bytes.length := by omega
  refine ⟨hend, ?_⟩
  rw [hend, Int.toNat_add hpos (by omega), Int.toNat_natCast, ← List.drop_drop, ← hrest,
    List.drop_left]

end Cursor

/-! ## Handing out -/

/-- The `ResponseState`s after some commands, each with its frames, were answered: the frames are
appended to the state of the command, and its counter is decremented once. -/
def handOut (work : List (ℕ × List Bytes)) (heap : States) : States :=
  work.foldl (fun heap w ↦
    Function.update heap w.1 ((heap w.1).addResponse w.2.flatten).decrementPending) heap

namespace Reader

variable {r r' : Reader} {work : List (ℕ × List Bytes)} {stack : ℕ → ProtocolHeader}

/-- The commands that are still to be answered, with the frames that are still to come. -/
structure Owes (r : Reader) (work : List (ℕ × List Bytes)) : Prop where
  cursor : r.cursor.Owes r.states (work.map fun w ↦ (w.1, w.2.length))
  ne_nil : ∀ w ∈ work, w.2 ≠ []

/-- **A turn at a whole frame** answers one instruction of the command at hand. -/
theorem Owes.turn {s : ℕ} {f rest : Bytes} {fs : List Bytes} (h : r.Owes ((s, f :: fs) :: work))
    (hat : r.cursor.At f rest) :
    ∃ r' work', r.turn = .ok r' ∧ r'.Owes work' ∧
      work'.flatMap Prod.snd = fs ++ work.flatMap Prod.snd ∧
      handOut work' r'.heap = handOut ((s, f :: fs) :: work) r.heap ∧
      r'.cursor.pos = r.cursor.pos + f.length ∧ r'.cursor.response = r.cursor.response := by
  have howes := h.cursor
  rw [List.map_cons, List.length_cons] at howes
  obtain ⟨c', hcount, howes', -, hpos, hresponse⟩ := howes.count hat
  have hturn : r.turn = .ok { r with
      cursor := c'
      heap := Function.update r.heap s (if fs.length = 0
        then ((r.heap s).addResponse f).decrementPending else (r.heap s).addResponse f) } := by
    simp only [Reader.turn, hat.deliver howes.head.1, hcount, bind, Except.bind,
      decide_eq_true_eq]
    rfl
  have hrest : ∀ w ∈ work, w.2 ≠ [] := fun w hw ↦ h.ne_nil w (List.mem_cons_of_mem _ hw)
  rcases fs with _ | ⟨g, gs⟩
  · -- the last instruction of its command
    exact ⟨_, work, hturn, ⟨howes', hrest⟩, rfl, by simp [handOut], hpos, hresponse⟩
  · refine ⟨_, (s, g :: gs) :: work, hturn, ⟨howes', ?_⟩, rfl, ?_, hpos, hresponse⟩
    · exact List.forall_mem_cons.mpr ⟨List.cons_ne_nil _ _, hrest⟩
    · simp [handOut, ResponseState.addResponse]

/-- **The inner loop on a chunk of whole frames** answers as many instructions as it has frames. -/
theorem Owes.drain {gs : List Bytes} : ∀ {r : Reader} {work : List (ℕ × List Bytes)}
    {later : List Bytes}, r.Owes work → work.flatMap Prod.snd = gs ++ later →
    (∀ g ∈ gs, ResponseFrame g) → 0 ≤ r.cursor.pos →
    r.cursor.response.drop r.cursor.pos.toNat = gs.flatten →
    r.cursor.response.length ≤ kBufferLen → ∀ fuel, gs.length < fuel →
    ∃ r' work', r.drain fuel = .ok r' ∧ r'.Owes work' ∧ work'.flatMap Prod.snd = later ∧
      handOut work' r'.heap = handOut work r.heap := by
  induction gs with
  | nil =>
    intro r work later h hwork _ hpos hdrop _ fuel hfuel
    obtain ⟨fuel, rfl⟩ := Nat.exists_eq_add_one.mpr hfuel
    refine ⟨r, work, if_neg ?_, h, hwork, rfl⟩
    rw [List.flatten_nil, List.drop_eq_nil_iff] at hdrop
    rw [Cursor.more, Bool.and_eq_true, decide_eq_true_iff, decide_eq_true_iff]
    omega
  | cons g gs ih =>
    intro r work later h hwork hgs hpos hdrop hlen fuel hfuel
    obtain ⟨fuel, rfl⟩ := Nat.exists_eq_add_one.mpr (Nat.zero_lt_of_lt hfuel)
    have hat : r.cursor.At g gs.flatten := ⟨hgs g List.mem_cons_self, hpos, hdrop, hlen⟩
    obtain ⟨⟨s, fs⟩, work, rfl⟩ : ∃ w work', work = w :: work' := by
      rcases work with _ | ⟨w, work⟩
      · cases hwork
      · exact ⟨w, work, rfl⟩
    rcases fs with _ | ⟨f, fs⟩
    · exact absurd rfl (h.ne_nil _ List.mem_cons_self)
    rw [List.flatMap_cons, List.cons_append, List.cons_append, List.cons.injEq] at hwork
    obtain ⟨rfl, hwork⟩ := hwork
    obtain ⟨r₁, work₁, hturn, h₁, hwork₁, hheap₁, hpos₁, hresponse₁⟩ := h.turn hat
    -- the turn has moved `pos` behind the first frame
    have hdrop₁ : r₁.cursor.response.drop r₁.cursor.pos.toNat = gs.flatten := by
      rw [hpos₁, hresponse₁, Int.toNat_add hpos (by omega), Int.toNat_natCast, ← List.drop_drop,
        hat.drop, List.drop_left]
    obtain ⟨r', work', hdrain, h', hwork', hheap'⟩ := ih h₁ (hwork₁.trans hwork)
      (fun g' hg' ↦ hgs g' (List.mem_cons_of_mem _ hg')) (by omega) hdrop₁
      (hresponse₁ ▸ hlen) fuel (Nat.lt_of_succ_lt_succ hfuel)
    refine ⟨r', work', ?_, h', hwork', hheap'.trans hheap₁⟩
    rw [Reader.drain, if_pos hat.more]
    exact bind_eq_ok.mpr ⟨r₁, hturn, hdrain⟩

/-- Commands that are owed nothing are no commands. -/
theorem Owes.eq_nil (h : r.Owes work) (hwork : work.flatMap Prod.snd = []) : work = [] := by
  rcases work with _ | ⟨w, work⟩
  · rfl
  · rw [List.flatMap_cons, List.append_eq_nil_iff] at hwork
    exact absurd hwork.1 (h.ne_nil w List.mem_cons_self)

/-- The reading loop ends when every command is answered. -/
theorem Owes.length_le_iff (h : r.Owes work) :
    r.states.length ≤ r.cursor.stateIdx ↔ work = [] := by
  rw [← List.drop_eq_nil_iff, h.cursor.states, List.map_map, List.map_eq_nil_iff]

/-- **The reading loop on chunks of whole frames.** -/
theorem Owes.readLoop {fuel : ℕ} {parts : List (List Bytes)} :
    ∀ {r : Reader} {work : List (ℕ × List Bytes)}, r.Owes work → work ≠ [] →
      work.flatMap Prod.snd = parts.flatten → (∀ f ∈ parts.flatten, ResponseFrame f) →
      (∀ p ∈ parts, p ≠ [] ∧ p.flatten.length ≤ kBufferLen) → parts.flatten.length < fuel →
      ∃ r', readLoop stack fuel r (parts.map List.flatten) = .ok (r', []) ∧
        r'.heap = handOut work r.heap := by
  induction parts with
  | nil =>
    intro r work h hne hwork _ _ _
    exact absurd (h.eq_nil hwork) hne
  | cons p parts ih =>
    intro r work h _ hwork hframes hparts hfuel
    rw [List.flatten_cons] at hwork hframes hfuel
    rw [List.length_append] at hfuel
    obtain ⟨hp, hlen⟩ := hparts p List.mem_cons_self
    have hread : (r.read p.flatten (stack (parts.map List.flatten).length)).Owes work :=
      ⟨⟨h.cursor.states, h.cursor.counts⟩, h.ne_nil⟩
    obtain ⟨r₁, work₁, hdrain, h₁, hwork₁, hheap₁⟩ := hread.drain hwork
      (fun g hg ↦ hframes g (List.mem_append_left _ hg)) le_rfl rfl hlen fuel (by omega)
    by_cases hnil : work₁ = []
    · -- every part has a frame, so no chunk is left
      have hlast : parts = [] := by
        rcases parts with _ | ⟨q, parts⟩
        · rfl
        · obtain ⟨hq, -⟩ := hparts q (List.mem_cons_of_mem _ List.mem_cons_self)
          rw [hnil, List.flatMap_nil, List.flatten_cons, eq_comm, List.append_eq_nil_iff] at hwork₁
          exact absurd hwork₁.1 hq
      subst hnil hlast
      refine ⟨r₁, bind_eq_ok.mpr ⟨r₁, hdrain, ?_⟩, hheap₁⟩
      rw [if_pos (h₁.length_le_iff.mpr rfl)]
      rfl
    · obtain ⟨r', hloop, hheap'⟩ := ih h₁ hnil hwork₁
        (fun f hf ↦ hframes f (List.mem_append_right _ hf))
        (fun q hq ↦ hparts q (List.mem_cons_of_mem _ hq)) (by omega)
      refine ⟨r', bind_eq_ok.mpr ⟨r₁, hdrain, ?_⟩, hheap'.trans hheap₁⟩
      rw [if_neg fun hle ↦ hnil (h₁.length_le_iff.mp hle)]
      exact hloop

/-! ## One command for every frame -/

/-- A reader of `n` commands of one instruction each, with a `ResponseState` of its own for every
one of them, that has handed out `xs` so far. -/
structure Alone (n : ℕ) (r : Reader) (xs : List Bytes) : Prop where
  states : r.states = List.range n
  stateIdx : r.cursor.stateIdx = xs.length
  le : xs.length ≤ n
  counts : ∀ i, xs.length ≤ i → i < n → r.cursor.numInstructions[i]? = some 1
  response : ∀ i, (r.heap i).response = xs.getD i []

variable {n : ℕ} {xs : List Bytes}

/-- **What a turn can do there.** -/
theorem Alone.turn (h : Alone n r xs) (hturn : r.turn = .ok r') :
    ∃ d, r.cursor.deliver r.states = .ok d ∧ Alone n r' (xs ++ [d.bytes]) ∧
      r'.cursor.pos = d.endPos ∧ r'.cursor.response = r.cursor.response := by
  obtain ⟨d, hd, hturn⟩ := bind_eq_ok.mp hturn
  obtain ⟨⟨completes, cursor⟩, hcount, hturn⟩ := bind_eq_ok.mp hturn
  cases hturn
  obtain ⟨-, htarget, -⟩ := Cursor.deliver_eq_ok hd
  obtain ⟨k, hk, rfl, rfl⟩ := Cursor.count_eq_ok hcount
  rw [h.states, h.stateIdx, List.getElem?_eq_some_iff] at htarget
  obtain ⟨hlt, htarget⟩ := htarget
  rw [List.length_range] at hlt
  rw [List.getElem_range] at htarget
  rw [h.stateIdx, h.counts _ le_rfl hlt, Option.some.injEq] at hk
  -- one instruction was left, so this frame completes it
  subst hk
  refine ⟨d, hd, ⟨h.states, ?_, ?_, ?_, ?_⟩, rfl, rfl⟩
  · simp [h.stateIdx]
  · rw [List.length_append]
    exact hlt
  · intro i hi hin
    rw [List.length_append, List.length_singleton] at hi
    refine (List.getElem?_set_ne ?_).trans (h.counts i (by omega) hin)
    rw [h.stateIdx]
    omega
  · intro i
    show (Function.update r.heap d.target _ i).response = _
    rw [← htarget, List.getD_eq_getElem?_getD]
    by_cases hi : i = xs.length
    · rw [hi, Function.update_self, List.getElem?_concat_length]
      simp [ResponseState.decrementPending, ResponseState.addResponse, h.response]
    · rw [Function.update_of_ne hi, h.response, List.getD_eq_getElem?_getD]
      rcases Nat.lt_or_gt_of_ne hi with hlt' | hgt
      · rw [List.getElem?_append_left hlt']
      · rw [List.getElem?_eq_none (by omega), List.getElem?_eq_none (by simp; omega)]

/-- The inner loop there: if all it hands out is whole frames, the chunk was made of them. -/
theorem Alone.drain : ∀ {fuel : ℕ} {r : Reader} {xs : List Bytes}, Alone n r xs →
    r.drain fuel = .ok r' → ∃ ys, Alone n r' (xs ++ ys) ∧
      (0 ≤ r.cursor.pos → r.cursor.response.length ≤ kBufferLen → (∀ y ∈ ys, ResponseFrame y) →
        r.cursor.response.drop r.cursor.pos.toNat = ys.flatten) := by
  intro fuel
  induction fuel with
  | zero =>
    intro r xs _ hdrain
    cases hdrain
  | succ fuel ih =>
    intro r xs h hdrain
    rw [Reader.drain] at hdrain
    split_ifs at hdrain with hmore
    · obtain ⟨r₁, hturn, hdrain⟩ := bind_eq_ok.mp hdrain
      obtain ⟨d, hd, h₁, hpos₁, hresponse₁⟩ := h.turn hturn
      obtain ⟨ys, hys, hframes⟩ := ih h₁ hdrain
      refine ⟨d.bytes :: ys, by rwa [List.append_assoc] at hys, fun hpos hlen hall ↦ ?_⟩
      obtain ⟨hend, hdrop⟩ := Cursor.at_of_deliver hd (hall _ List.mem_cons_self) hpos hlen
      have hrest := hframes (by omega) (hresponse₁ ▸ hlen) fun y hy ↦
        hall y (List.mem_cons_of_mem _ hy)
      rw [hresponse₁, hpos₁] at hrest
      rw [hdrop, hrest, List.flatten_cons]
    · cases hdrain
      refine ⟨[], by rwa [List.append_nil], fun hpos _ _ ↦ ?_⟩
      rw [Cursor.more, Bool.and_eq_true, decide_eq_true_iff, decide_eq_true_iff] at hmore
      exact List.drop_eq_nil_of_le (by omega)

/-- The reading loop there. -/
theorem Alone.readLoop {fuel : ℕ} {chunks : List Bytes} : ∀ {r : Reader} {xs : List Bytes},
    Alone n r xs → readLoop stack fuel r chunks = .ok (r', []) →
    (∀ c ∈ chunks, c.length ≤ kBufferLen) → ∃ parts : List (List Bytes),
      Alone n r' (xs ++ parts.flatten) ∧
      ((∀ f ∈ parts.flatten, ResponseFrame f) → chunks = parts.map List.flatten) := by
  induction chunks with
  | nil =>
    intro r xs _ hloop
    cases hloop
  | cons chunk chunks ih =>
    intro r xs h hloop hlen
    obtain ⟨r₁, hdrain, hloop⟩ := bind_eq_ok.mp hloop
    have hread : Alone n (r.read chunk (stack chunks.length)) xs :=
      ⟨h.states, h.stateIdx, h.le, h.counts, h.response⟩
    obtain ⟨ys, hys, hframes⟩ := hread.drain hdrain
    have hchunk := hframes le_rfl (hlen chunk List.mem_cons_self)
    split_ifs at hloop with hend
    · cases hloop
      refine ⟨[ys], by simpa using hys, fun hall ↦ ?_⟩
      rw [List.map_singleton, ← hchunk fun y hy ↦ hall y (by simpa using hy)]
      rfl
    · obtain ⟨parts, hparts, hrest⟩ := ih hys hloop fun c hc ↦ hlen c (List.mem_cons_of_mem _ hc)
      refine ⟨ys :: parts, by rwa [List.append_assoc] at hparts, fun hall ↦ ?_⟩
      rw [List.flatten_cons] at hall
      rw [List.map_cons, ← hchunk fun y hy ↦ hall y (List.mem_append_left _ hy),
        ← hrest fun f hf ↦ hall f (List.mem_append_right _ hf)]
      rfl

/-- One command for every frame, from an address on. -/
def units (k : ℕ) : List Bytes → List (ℕ × List Bytes)
  | [] => []
  | f :: fs => (k, [f]) :: units (k + 1) fs

theorem flatMap_units (fs : List Bytes) : ∀ k, (units k fs).flatMap Prod.snd = fs := by
  induction fs with
  | nil => exact fun _ ↦ rfl
  | cons f fs ih =>
    intro k
    rw [units, List.flatMap_cons, ih]
    rfl

theorem ne_nil_of_mem_units {w : ℕ × List Bytes} {fs : List Bytes} : ∀ {k}, w ∈ units k fs →
    w.2 ≠ [] := by
  induction fs with
  | nil =>
    intro k h
    cases h
  | cons f fs ih =>
    intro k h
    rcases List.mem_cons.mp h with rfl | h
    · exact List.cons_ne_nil _ _
    · exact ih h

/-- Every `ResponseState` has got its frame. -/
theorem response_handOut_units (fs : List Bytes) : ∀ (k : ℕ) (heap : States) (i : ℕ),
    (handOut (units k fs) heap i).response
      = (heap i).response ++ if k ≤ i then fs.getD (i - k) [] else [] := by
  induction fs with
  | nil => simp [units, handOut]
  | cons f fs ih =>
    intro k heap i
    refine (ih (k + 1) _ i).trans ?_
    dsimp only
    rcases Nat.lt_trichotomy i k with hlt | rfl | hgt
    · rw [Function.update_of_ne (by omega), if_neg (by omega), if_neg (by omega)]
    · simp [ResponseState.decrementPending, ResponseState.addResponse]
    · obtain ⟨j, rfl⟩ := Nat.exists_eq_add_of_lt hgt
      rw [Function.update_of_ne (by omega), if_pos (by omega), if_pos (by omega),
        show k + j + 1 - (k + 1) = j by omega, show k + j + 1 - k = j + 1 by omega,
        List.getD_cons_succ]

theorem map_units (fs : List Bytes) : ∀ k,
    (units k fs).map Prod.fst = List.range' k fs.length ∧
      (units k fs).map (fun w ↦ (w.2.length : ℤ)) = List.replicate fs.length 1 := by
  induction fs with
  | nil => exact fun _ ↦ ⟨rfl, rfl⟩
  | cons f fs ih =>
    intro k
    rw [units, List.map_cons, List.map_cons, (ih (k + 1)).1, (ih (k + 1)).2]
    exact ⟨rfl, rfl⟩

/-- The reading loop before the first `read`, for a node with the given commands. -/
def start (work : List (ℕ × List Bytes)) (heap : States) : Reader where
  states := work.map Prod.fst
  cursor := { numInstructions := work.map fun w ↦ (w.2.length : ℤ) }
  heap := heap

theorem alone_start (frames : List Bytes) :
    Alone frames.length (start (units 0 frames) fun _ ↦ {}) [] where
  states := (map_units frames 0).1.trans List.range_eq_range'.symm
  stateIdx := rfl
  le := Nat.zero_le _
  counts i _ hi := by
    rw [start, (map_units frames 0).2, List.getElem?_replicate, if_pos hi]
  response _ := rfl

end Reader

/-! ## When the responses are handed out correctly -/

/-- The reading loop hands out the frames correctly, for every node that they answer: a node has at
least one command, and every command has at least one instruction. The loop ends with the last
chunk, every command's frames have gone to its `ResponseState`, and `DecrementPending` was called
once for each of them. -/
def Demultiplexes (stack : ℕ → ProtocolHeader) (frames chunks : List Bytes) : Prop :=
  ∀ (work : List (ℕ × List Bytes)) (heap : States), work ≠ [] → (∀ w ∈ work, w.2 ≠ []) →
    work.flatMap Prod.snd = frames →
    ∃ fuel r, Reader.readLoop stack fuel (Reader.start work heap) chunks = .ok (r, []) ∧
      r.heap = handOut work heap

theorem eq_of_getD {xs ys : List Bytes} (hle : xs.length ≤ ys.length) (hne : ∀ y ∈ ys, y ≠ [])
    (h : ∀ i, xs.getD i [] = ys.getD i []) : xs = ys := by
  have hlen : xs.length = ys.length := by
    by_contra hlt
    have hi : xs.length < ys.length := by omega
    have hlast := h xs.length
    rw [List.getD_eq_default _ _ le_rfl, List.getD_eq_getElem _ _ hi] at hlast
    exact hne _ (List.getElem_mem hi) hlast.symm
  refine List.ext_getElem hlen fun i hi hi' ↦ ?_
  have hget := h i
  rwa [List.getD_eq_getElem _ _ hi, List.getD_eq_getElem _ _ hi'] at hget

/-- **The responses are handed out correctly if and only if every chunk is made of whole frames.**
In particular no frame may be longer than the buffer. -/
theorem demultiplexes_iff (stack : ℕ → ProtocolHeader) (frames chunks : List Bytes)
    (hframes : ∀ f ∈ frames, ResponseFrame f)
    (hchunks : ∀ c ∈ chunks, c ≠ [] ∧ c.length ≤ kBufferLen)
    (hcut : chunks.flatten = frames.flatten) :
    Demultiplexes stack frames chunks ↔
      ∃ parts : List (List Bytes), parts.flatten = frames ∧ parts.map List.flatten = chunks := by
  constructor
  · intro h
    rcases eq_or_ne frames [] with rfl | hne
    · refine ⟨[], rfl, ?_⟩
      rcases chunks with _ | ⟨c, chunks⟩
      · rfl
      · rw [List.flatten_cons, List.flatten_nil, List.append_eq_nil_iff] at hcut
        exact absurd hcut.1 (hchunks c List.mem_cons_self).1
    · -- ask with a command of its own for every frame
      have hunits : Reader.units 0 frames ≠ [] := by
        intro hnil
        have hflat := Reader.flatMap_units frames 0
        rw [hnil] at hflat
        exact hne hflat.symm
      obtain ⟨fuel, r, hloop, hheap⟩ := h (Reader.units 0 frames) (fun _ ↦ {}) hunits
        (fun w hw ↦ Reader.ne_nil_of_mem_units hw) (Reader.flatMap_units frames 0)
      obtain ⟨parts, hparts, hrest⟩ :=
        (Reader.alone_start frames).readLoop hloop fun c hc ↦ (hchunks c hc).2
      rw [List.nil_append] at hparts
      have hflat : parts.flatten = frames := by
        refine eq_of_getD hparts.le (fun f hf ↦ (hframes f hf).ne_nil) fun i ↦ ?_
        rw [← hparts.response i, hheap, Reader.response_handOut_units]
        simp
      exact ⟨parts, hflat, (hrest (hflat ▸ hframes)).symm⟩
  · rintro ⟨parts, rfl, rfl⟩ work heap hne hitems hwork
    have howes : (Reader.start work heap).Owes work := by
      refine ⟨⟨?_, ?_⟩, hitems⟩
      · rw [List.map_map]
        rfl
      · rw [List.map_map]
        rfl
    have hparts : ∀ p ∈ parts, p ≠ [] ∧ p.flatten.length ≤ kBufferLen := by
      intro p hp
      obtain ⟨hp, hlen⟩ := hchunks _ (List.mem_map_of_mem hp)
      refine ⟨?_, hlen⟩
      rintro rfl
      exact hp rfl
    obtain ⟨r, hloop, hheap⟩ := howes.readLoop hne hwork hframes hparts (Nat.lt_succ_self _)
    exact ⟨_, r, hloop, hheap⟩

/-- The response to a GET that has found two bytes: flags of four bytes, and the value. -/
def getResponse : Bytes :=
  [0x81, 0, 0, 0, 4, 0, 0, 0, 0, 0, 0, 6, 0, 0, 0, 0, 0, 0, 0, 0, 0, 0, 0, 1, 0, 0, 0, 0, 111, 107]

theorem responseFrame_getResponse : ResponseFrame getResponse := by decide

/-- Two responses that arrive in one chunk are handed out correctly. -/
theorem demultiplexes_iff_together :
    Demultiplexes (fun _ ↦ {}) [getResponse, getResponse] [getResponse ++ getResponse] := by
  refine (demultiplexes_iff (fun _ ↦ {}) [getResponse, getResponse] [getResponse ++ getResponse]
    ?_ ?_ rfl).mpr ⟨[[getResponse, getResponse]], rfl, rfl⟩
  · intro f hf
    obtain rfl : f = getResponse := by simpa using hf
    exact responseFrame_getResponse
  · intro c hc
    obtain rfl := List.mem_singleton.mp hc
    decide

/-- A response that arrives in two chunks, the first of which ends inside the header: `substr`
throws. -/
theorem response_cut_in_header : ResponseFrame getResponse ∧
    (∀ c ∈ [getResponse.take 10, getResponse.drop 10], c ≠ [] ∧ c.length ≤ kBufferLen) ∧
    [getResponse.take 10, getResponse.drop 10].flatten = [getResponse].flatten ∧
    ¬Demultiplexes (fun _ ↦ {}) [getResponse] [getResponse.take 10, getResponse.drop 10] := by
  refine ⟨responseFrame_getResponse, by decide, rfl, fun h ↦ ?_⟩
  obtain ⟨fuel, r, hloop, -⟩ := h [(0, [getResponse])] (fun _ ↦ {}) (by simp) (by simp) rfl
  obtain ⟨r₁, hdrain, -⟩ := bind_eq_ok.mp hloop
  rcases fuel with _ | fuel
  · cases hdrain
  · obtain ⟨r₂, hturn, -⟩ := bind_eq_ok.mp hdrain
    cases hturn

end MemcacheRouter.Routerlib
