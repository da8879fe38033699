import Mathlib.Data.List.TakeWhile

/-!
# Messages

The protocol buffers of `memdata.proto` and the `Packet` the router wraps them in. An optional
field that is not set reads as its default but is skipped by `MergeFrom`, so the two are kept
apart: the fields are `Option`s and the accessors fill in the default.

A `std::string` is a list of bytes, NUL included. Everything that goes through a `const char*` is
cut at the first NUL, and this is where `cStr` enters.
-/

namespace MemcacheRouter

/-- The contents of a `std::string`. -/
abbrev Bytes := List UInt8

/-- Membership in lists of keys is decided through this instance. -/
instance : LawfulBEq Bytes := inferInstance

/-- What a callee that takes a C string sees of `s.c_str()`. -/
def cStr (s : Bytes) : Bytes := s.takeWhile (· != 0)

theorem cStr_eq_self_iff {s : Bytes} : cStr s = s ↔ 0 ∉ s := by
  rw [cStr, List.takeWhile_eq_self_iff]
  constructor
  · intro h h0
    simpa using h 0 h0
  · intro h x hx
    simp only [bne_iff_ne, ne_eq]
    rintro rfl
    exact h hx

/-- A NUL ends the C string, and what follows it is cut off. -/
theorem exists_eq_cStr_append {s : Bytes} (h : 0 ∈ s) : ∃ rest, s = cStr s ++ 0 :: rest := by
  induction s with
  | nil => cases h
  | cons x s ih =>
    by_cases hx : x = 0
    · subst hx
      exact ⟨s, rfl⟩
    · obtain ⟨rest, hrest⟩ := ih ((List.mem_cons.mp h).resolve_left fun h0 ↦ hx h0.symm)
      have hkeep : cStr (x :: s) = x :: cStr s :=
        List.takeWhile_cons_of_pos (p := (· != 0)) (bne_iff_ne.mpr hx)
      exact ⟨rest, by rw [hkeep, List.cons_append, ← hrest]⟩

/-- How an execution of the program can stop being defined. -/
inductive Fault where
  /-- A `CHECK` failed and the process aborted. -/
  | checkFailed
  /-- A list iterator to an erased node was used. -/
  | erasedNode
  /-- A repeated field was read past its end. -/
  | outOfRange
  deriving DecidableEq, Repr

/-- A computation that succeeds has succeeded step by step. -/
theorem bind_eq_ok {ε α β : Type} {x : Except ε α} {f : α → Except ε β} {b : β} :
    (x >>= f) = .ok b ↔ ∃ a, x = .ok a ∧ f a = .ok b := by
  cases x <;> simp [bind, Except.bind]

/-- A computation that fails has failed in one of its steps. -/
theorem bind_eq_error {ε α β : Type} {x : Except ε α} {f : α → Except ε β} {e : ε} :
    (x >>= f) = .error e ↔ x = .error e ∨ ∃ a, x = .ok a ∧ f a = .error e := by
  cases x <;> simp [bind, Except.bind]

/-- The `KeyValue` message. The cas token is a natural: it is only stored, copied and compared, and
memcached draws it from a counter. -/
structure KeyValue where
  key? : Option Bytes := none
  val? : Option Bytes := none
  flags? : Option UInt32 := none
  expireInSeconds? : Option ℕ := none
  cas? : Option ℕ := none
  allowReplace? : Option Bool := none
  defaultCounterVal? : Option ℕ := none
  offset? : Option Int32 := none
  counterVal? : Option ℕ := none
  noPropagate? : Option Bool := none
  returnCode? : Option ℕ := none
  returnError? : Option Bytes := none
  deriving DecidableEq, Repr

namespace KeyValue

variable (kv other : KeyValue)

def key : Bytes := kv.key?.getD []
def val : Bytes := kv.val?.getD []
def flags : UInt32 := kv.flags?.getD 0
def expireInSeconds : ℕ := kv.expireInSeconds?.getD 0
def cas : ℕ := kv.cas?.getD 0
def allowReplace : Bool := kv.allowReplace?.getD true
def offset : Int32 := kv.offset?.getD 0
def noPropagate : Bool := kv.noPropagate?.getD false
def counterVal : ℕ := kv.counterVal?.getD 0
def returnCode : ℕ := kv.returnCode?.getD 0

/-- `MergeFrom`: the fields set in `other` win. -/
def mergeFrom : KeyValue where
  key? := other.key? <|> kv.key?
  val? := other.val? <|> kv.val?
  flags? := other.flags? <|> kv.flags?
  expireInSeconds? := other.expireInSeconds? <|> kv.expireInSeconds?
  cas? := other.cas? <|> kv.cas?
  allowReplace? := other.allowReplace? <|> kv.allowReplace?
  defaultCounterVal? := other.defaultCounterVal? <|> kv.defaultCounterVal?
  offset? := other.offset? <|> kv.offset?
  counterVal? := other.counterVal? <|> kv.counterVal?
  noPropagate? := other.noPropagate? <|> kv.noPropagate?
  returnCode? := other.returnCode? <|> kv.returnCode?
  returnError? := other.returnError? <|> kv.returnError?

end KeyValue

/-- The `Server` message, with its two fields read through their accessors. -/
structure Server where
  hostname : Bytes
  port : Int32
  deriving DecidableEq, Repr

/-- The `Instruction` message. Of `stats` only its presence is read. -/
structure Instruction where
  getKeys : List KeyValue := []
  setKeys : List KeyValue := []
  incrKeys : List KeyValue := []
  servers : List Server := []
  hasStats : Bool := false
  deriving DecidableEq, Repr

/-- A request inside the router: the routing frames it came with and what it asks for. -/
structure Packet where
  frameIds : List Bytes := []
  instruction : Instruction := {}
  deriving DecidableEq, Repr

/-- `Packet::Type` without `UNKNOWN`, which `GetType` never returns. -/
inductive PacketType where
  | get | set | increment | serverList | stats
  deriving DecidableEq, Repr

namespace Packet

/-- `Packet::GetType`. An instruction that asks for nothing aborts the process. -/
def getType (p : Packet) : Except Fault PacketType :=
  if p.instruction.getKeys ≠ [] then .ok .get
  else if p.instruction.setKeys ≠ [] then .ok .set
  else if p.instruction.incrKeys ≠ [] then .ok .increment
  else if p.instruction.servers ≠ [] then .ok .serverList
  else if p.instruction.hasStats then .ok .stats
  else .error .checkFailed

/-- The process aborts on the empty instruction only. -/
theorem exists_getType_iff {p : Packet} : (∃ type, p.getType = .ok type) ↔ p.instruction ≠ {} := by
  rw [getType]
  constructor
  · rintro ⟨type, htype⟩ hempty
    rw [hempty] at htype
    cases htype
  · intro hne
    split_ifs with hget hset hincr hservers hstats
    · exact ⟨_, rfl⟩
    · exact ⟨_, rfl⟩
    · exact ⟨_, rfl⟩
    · exact ⟨_, rfl⟩
    · exact ⟨_, rfl⟩
    · refine absurd ?_ hne
      rw [not_not] at hget hset hincr hservers
      rw [Bool.not_eq_true] at hstats
      rcases p with ⟨frameIds, ⟨getKeys, setKeys, incrKeys, servers, hasStats⟩⟩
      obtain rfl : getKeys = [] := hget
      obtain rfl : setKeys = [] := hset
      obtain rfl : incrKeys = [] := hincr
      obtain rfl : servers = [] := hservers
      obtain rfl : hasStats = false := hstats
      rfl

/-- `Packet::IsGet`. -/
def isGet (p : Packet) : Bool := p.instruction.getKeys ≠ []

/-- `GetType() == Packet::SET`. -/
def isSet (p : Packet) : Bool := p.instruction.getKeys = [] && p.instruction.setKeys ≠ []

theorem isSet_iff {p : Packet} : p.isSet = true ↔ p.getType = .ok .set := by
  rw [isSet, getType]
  by_cases hget : p.instruction.getKeys = []
  · by_cases hset : p.instruction.setKeys = []
    · simp only [hget, hset]
      split_ifs <;> simp_all
    · simp [hget, hset]
  · simp [hget]

end Packet

end MemcacheRouter
