import Mathlib.Data.Nat.Digits.Lemmas
import Mathlib.Logic.Function.Basic
import MemcacheRouter.Wire.Message

/-!
# Memcached

The server side, which is not part of the repository: memcached as its documentation describes it
and as libmemcached presents it to `MemClient`. The store is a map from keys to items with a clock
and a counter for cas tokens. Every successful write takes the next token, failed operations change
nothing, and an item is absent once its expiry time has come.

The client speaks the text protocol, so the `_with_initial` operations are not available.
-/

namespace MemcacheRouter

/-- The values of `memcached_return_t` that occur. -/
inductive ReturnCode where
  | success | protocolError | clientError | dataExists | notStored | notFound | badKeyProvided
  deriving DecidableEq, Repr

/-- The enumeration of `libmemcached/memcached_constants.h`. -/
def ReturnCode.toNat : ReturnCode → ℕ
  | success => 0
  | protocolError => 8
  | clientError => 9
  | dataExists => 12
  | notStored => 14
  | notFound => 16
  | badKeyProvided => 33

/-- A stored item. An item without an expiry time never expires. -/
structure Item where
  value : Bytes
  flags : UInt32
  cas : ℕ
  exptime : Option ℕ := none
  deriving DecidableEq, Repr

/-- A memcached server. -/
structure Store where
  items : Bytes → Option Item := fun _ ↦ none
  now : ℕ := 0
  nextCas : ℕ := 1

/-- The expiry time a request asks for: never, so many seconds from now up to thirty days, or else
a point in time. The cast to `time_t` makes the upper half of the range negative, and a negative
expiry time is one that has passed. -/
def deadline (now expire : ℕ) : Option ℕ :=
  if expire = 0 then none
  else if expire ≤ 60 * 60 * 24 * 30 then some (now + expire)
  else if expire < 2 ^ 63 then some expire
  else some 0

/-! ## Counters -/

/-- The decimal representation of a counter. -/
def decimal (n : ℕ) : Bytes :=
  if n = 0 then [48] else (Nat.digits 10 n).reverse.map fun d ↦ UInt8.ofNat (48 + d)

/-- Read a decimal representation of a 64-bit unsigned integer. -/
def parseDecimal (v : Bytes) : Option ℕ :=
  if v ≠ [] ∧ v.all (fun c ↦ 48 ≤ c && c ≤ 57) ∧
      v.foldl (fun n c ↦ 10 * n + (c.toNat - 48)) 0 < 2 ^ 64 then
    some (v.foldl (fun n c ↦ 10 * n + (c.toNat - 48)) 0)
  else none

/-- What a fold over the digits computes from their values. -/
theorem foldr_digits {f : UInt8 → ℕ} (hf : ∀ d < 10, f (UInt8.ofNat (48 + d)) = d) :
    ∀ ds : List ℕ, (∀ d ∈ ds, d < 10) →
      ds.foldr (fun d m ↦ 10 * m + f (UInt8.ofNat (48 + d))) 0 = Nat.ofDigits 10 ds := by
  intro ds
  induction ds with
  | nil => exact fun _ ↦ rfl
  | cons d ds ih =>
    intro hds
    obtain ⟨hd, hds⟩ := List.forall_mem_cons.mp hds
    rw [List.foldr_cons, ih hds, hf d hd, Nat.ofDigits_cons, Nat.add_comm]

/-- **A decimal representation is read back**, with any function that gives the digits their
values. -/
theorem foldl_decimal {f : UInt8 → ℕ} (hf : ∀ d < 10, f (UInt8.ofNat (48 + d)) = d)
    (n : ℕ) : (decimal n).foldl (fun m c ↦ 10 * m + f c) 0 = n := by
  rw [decimal]
  split_ifs with hzero
  · rw [hzero, List.foldl_cons, List.foldl_nil, Nat.mul_zero, Nat.zero_add]
    exact hf 0 (by decide)
  · rw [List.foldl_map, List.foldl_reverse, foldr_digits hf, Nat.ofDigits_digits]
    exact fun d hd ↦ Nat.digits_lt_base (by decide) hd

theorem decimal_injective : Function.Injective decimal := by
  have hf : ∀ d < 10, (UInt8.ofNat (48 + d)).toNat - 48 = d := by decide
  intro m n h
  rw [← foldl_decimal (f := fun c ↦ c.toNat - 48) hf m, h]
  exact foldl_decimal (f := fun c ↦ c.toNat - 48) hf n

/-- There are only digits. -/
theorem mem_decimal {n : ℕ} {c : UInt8} (h : c ∈ decimal n) : 48 ≤ c ∧ c ≤ 57 := by
  have hdigit : ∀ d < 10, 48 ≤ UInt8.ofNat (48 + d) ∧ UInt8.ofNat (48 + d) ≤ 57 := by decide
  rw [decimal] at h
  split_ifs at h
  · obtain rfl := List.mem_singleton.mp h
    decide
  · obtain ⟨d, hd, rfl⟩ := List.mem_map.mp h
    exact hdigit d (Nat.digits_lt_base (by decide) (List.mem_reverse.mp hd))

/-- The first digit. -/
theorem exists_decimal_eq_cons {n : ℕ} (hn : n ≠ 0) : ∃ c cs, decimal n = c :: cs ∧ c ≠ 48 := by
  have hne : Nat.digits 10 n ≠ [] := Nat.digits_ne_nil_iff_ne_zero.mpr hn
  have hdigit : ∀ d < 10, d ≠ 0 → UInt8.ofNat (48 + d) ≠ 48 := by decide
  have hlast := hdigit ((Nat.digits 10 n).getLast hne)
    (Nat.digits_lt_base (by decide) (List.getLast_mem hne)) (Nat.getLast_digit_ne_zero 10 hn)
  refine ⟨_, (Nat.digits 10 n).dropLast.reverse.map fun d ↦ UInt8.ofNat (48 + d), ?_, hlast⟩
  rw [decimal, if_neg hn]
  conv_lhs => rw [← List.dropLast_concat_getLast hne]
  rw [List.reverse_append, List.reverse_singleton, List.singleton_append, List.map_cons]

theorem exists_decimal_cons (n : ℕ) : ∃ c cs, decimal n = c :: cs ∧ 48 ≤ c ∧ c ≤ 57 := by
  rcases hn : decimal n with _ | ⟨c, cs⟩
  · rcases eq_or_ne n 0 with rfl | hne
    · cases hn
    · obtain ⟨c, cs, hcons, -⟩ := exists_decimal_eq_cons hne
      rw [hn] at hcons
      cases hcons
  · exact ⟨c, cs, rfl, mem_decimal (hn ▸ List.mem_cons_self)⟩

theorem decimal_ne_nil (n : ℕ) : decimal n ≠ [] := by
  obtain ⟨c, cs, hcons, -⟩ := exists_decimal_cons n
  rw [hcons]
  exact List.cons_ne_nil c cs

/-- **A counter is read back.** -/
theorem parseDecimal_decimal {n : ℕ} (hn : n < 2 ^ 64) : parseDecimal (decimal n) = some n := by
  have hvalue : (decimal n).foldl (fun m c ↦ 10 * m + (c.toNat - 48)) 0 = n :=
    foldl_decimal (f := fun c ↦ c.toNat - 48) (by decide) n
  have hdigits : (decimal n).all (fun c ↦ 48 ≤ c && c ≤ 57) = true := by
    rw [List.all_eq_true]
    intro c hc
    simpa using mem_decimal hc
  rw [parseDecimal, hvalue, if_pos ⟨decimal_ne_nil n, hdigits, hn⟩]

theorem parseDecimal_lt {v : Bytes} {n : ℕ} (h : parseDecimal v = some n) : n < 2 ^ 64 := by
  rw [parseDecimal] at h
  split_ifs at h with hv
  obtain rfl := Option.some.inj h
  exact hv.2.2

namespace Store

/-- What a request for `k` finds. -/
def lookup (s : Store) (k : Bytes) : Option Item :=
  (s.items k).filter fun it ↦ it.exptime.all (s.now < ·)

/-- The value and flags a request for `k` finds. -/
def held (s : Store) (k : Bytes) : Option (Bytes × UInt32) :=
  (s.lookup k).map fun it ↦ (it.value, it.flags)

/-- The counter at `k`, if what a request for `k` finds is one. -/
def counter (s : Store) (k : Bytes) : Option ℕ := (s.held k).bind fun p ↦ parseDecimal p.1

/-- A successful write. -/
def write (s : Store) (k : Bytes) (value : Bytes) (flags : UInt32) (exptime : Option ℕ) : Store :=
  { s with
    items := Function.update s.items k (some ⟨value, flags, s.nextCas, exptime⟩)
    nextCas := s.nextCas + 1 }

/-- `memcached_set`. -/
def set (s : Store) (k value : Bytes) (expire : ℕ) (flags : UInt32) : Store × ReturnCode :=
  (s.write k value flags (deadline s.now expire), .success)

/-- `memcached_add`. -/
def add (s : Store) (k value : Bytes) (expire : ℕ) (flags : UInt32) : Store × ReturnCode :=
  match s.lookup k with
  | some _ => (s, .notStored)
  | none => s.set k value expire flags

/-- `memcached_cas`. -/
def cas (s : Store) (k value : Bytes) (expire : ℕ) (flags : UInt32) (token : ℕ) :
    Store × ReturnCode :=
  match s.lookup k with
  | some it => if it.cas = token then s.set k value expire flags else (s, .dataExists)
  | none => (s, .notFound)

/-- What `memcached_increment` and `memcached_decrement` share: an item keeps its flags and its
expiry time, and the new counter is returned if there is one. -/
def updateCounter (s : Store) (k : Bytes) (f : ℕ → ℕ) : Store × ReturnCode × Option ℕ :=
  match s.lookup k with
  | none => (s, .notFound, none)
  | some it =>
    match parseDecimal it.value with
    | none => (s, .clientError, none)
    | some c => (s.write k (decimal (f c)) it.flags it.exptime, .success, some (f c))

/-- `memcached_increment`: counters wrap at 64 bits. -/
def increment (s : Store) (k : Bytes) (offset : ℕ) : Store × ReturnCode × Option ℕ :=
  s.updateCounter k fun c ↦ (c + offset) % 2 ^ 64

/-- `memcached_decrement`: counters stop at zero. -/
def decrement (s : Store) (k : Bytes) (offset : ℕ) : Store × ReturnCode × Option ℕ :=
  s.updateCounter k fun c ↦ c - offset

/-- `memcached_increment_with_initial` and `memcached_decrement_with_initial`, which the text
protocol does not have. -/
def withInitial (s : Store) : Store × ReturnCode × Option ℕ := (s, .protocolError, none)

/-- The passage of time. -/
def tick (s : Store) (n : ℕ) : Store := { s with now := s.now + n }

variable {s : Store} {k j value : Bytes} {flags : UInt32} {exptime : Option ℕ}

@[simp] theorem now_write : (s.write k value flags exptime).now = s.now := rfl

theorem items_write_of_ne (h : j ≠ k) : (s.write k value flags exptime).items j = s.items j :=
  Function.update_of_ne h _ _

theorem items_write_self :
    (s.write k value flags exptime).items k = some ⟨value, flags, s.nextCas, exptime⟩ :=
  Function.update_self _ _ _

theorem lookup_write_of_ne (h : j ≠ k) :
    (s.write k value flags exptime).lookup j = s.lookup j := by
  rw [lookup, lookup, items_write_of_ne h, now_write]

theorem held_write_of_ne (h : j ≠ k) : (s.write k value flags exptime).held j = s.held j := by
  rw [held, held, lookup_write_of_ne h]

/-- What was written is found, unless it had expired when it came. -/
theorem held_write_self (h : ∀ t ∈ exptime, s.now < t) :
    (s.write k value flags exptime).held k = some (value, flags) := by
  have hlive : exptime.all (s.now < ·) = true := by
    cases exptime with
    | none => rfl
    | some t => simpa using h
  rw [held, lookup, items_write_self, now_write]
  simp only [Option.filter_some, hlive, if_true, Option.map_some]

theorem lookup_eq_some_iff {it : Item} : s.lookup k = some it ↔
    s.items k = some it ∧ ∀ t ∈ it.exptime, s.now < t := by
  rw [lookup, Option.filter_eq_some_iff]
  refine and_congr_right fun _ ↦ ?_
  cases it.exptime <;> simp

theorem held_eq_some_iff {p : Bytes × UInt32} : s.held k = some p ↔
    ∃ it, s.lookup k = some it ∧ it.value = p.1 ∧ it.flags = p.2 := by
  rw [held, Option.map_eq_some_iff]
  refine exists_congr fun it ↦ and_congr_right fun _ ↦ ?_
  rw [Prod.ext_iff]

/-! ## What the operations can do -/

/-- The store after a write of some kind at `k`, or unchanged. -/
def WritesAt (s : Store) (k : Bytes) (s' : Store) : Prop :=
  s' = s ∨ ∃ value flags exptime, s' = s.write k value flags exptime

theorem WritesAt.held_of_ne {s' : Store} (h : s.WritesAt k s') (hj : j ≠ k) :
    s'.held j = s.held j := by
  rcases h with rfl | ⟨value, flags, exptime, rfl⟩
  · rfl
  · exact held_write_of_ne hj

theorem WritesAt.counter_of_ne {s' : Store} (h : s.WritesAt k s') (hj : j ≠ k) :
    s'.counter j = s.counter j := by
  rw [counter, counter, h.held_of_ne hj]

/-- A conditional write either stores what it carries or changes nothing. -/
theorem cas_cases (s : Store) (k value : Bytes) (expire : ℕ) (flags : UInt32) (token : ℕ) :
    (s.cas k value expire flags token = s.set k value expire flags ∧
        ∃ it, s.lookup k = some it ∧ it.cas = token) ∨
      ((s.cas k value expire flags token).1 = s ∧
        (s.cas k value expire flags token).2 ≠ .success ∧
        ∀ it, s.lookup k = some it → it.cas ≠ token) := by
  rw [cas]
  cases h : s.lookup k with
  | none => exact .inr ⟨rfl, by simp, by simp⟩
  | some it =>
    by_cases htok : it.cas = token
    · exact .inl ⟨by simp [htok], it, rfl, htok⟩
    · refine .inr ⟨by simp [htok], by simp [htok], ?_⟩
      intro it' hit'
      obtain rfl := Option.some.inj hit'
      exact htok

theorem writesAt_updateCounter (s : Store) (k : Bytes) (f : ℕ → ℕ) :
    s.WritesAt k (s.updateCounter k f).1 := by
  rw [updateCounter]
  cases s.lookup k with
  | none => exact .inl rfl
  | some it =>
    dsimp only
    cases parseDecimal it.value with
    | none => exact .inl rfl
    | some c => exact .inr ⟨_, _, _, rfl⟩

theorem counter_lt {c : ℕ} (h : s.counter k = some c) : c < 2 ^ 64 := by
  obtain ⟨p, -, hp⟩ := Option.bind_eq_some_iff.mp h
  exact parseDecimal_lt hp

/-- **What an update does to a counter that exists.** -/
theorem updateCounter_of_counter {f : ℕ → ℕ} {c : ℕ} (h : s.counter k = some c)
    (hf : f c < 2 ^ 64) : ∃ s', s.updateCounter k f = (s', .success, some (f c)) ∧
      s'.counter k = some (f c) := by
  obtain ⟨p, hheld, hparse⟩ := Option.bind_eq_some_iff.mp h
  obtain ⟨it, hlookup, hvalue, -⟩ := held_eq_some_iff.mp hheld
  refine ⟨s.write k (decimal (f c)) it.flags it.exptime, ?_, ?_⟩
  · rw [updateCounter, hlookup]
    dsimp only
    rw [hvalue, hparse]
  · rw [counter, held_write_self (lookup_eq_some_iff.mp hlookup).2, Option.bind_some,
      parseDecimal_decimal hf]

end Store

end MemcacheRouter
