import MemcacheRouter.Cmrclient.Calls
import MemcacheRouter.Cmrclient.Inflate

/-!
# Values

`Client::Restore`, which makes a Python object of the bytes and the flags that `PrepareValue` has
made of one. `PrepareValue` goes by the type of the object. `Restore` goes by the flags: what was
compressed is decompressed first, whatever it is, and an empty result of the decompression counts as
nothing having been compressed.

The two agree for every object but the empty string, for which `Restore` returns `None`. A number is
written in decimal, and a decimal numeral that is not zero does not begin with a zero, so it is read
back in base 10 although `Restore` leaves the base to the numeral.
-/

namespace MemcacheRouter

open Routerlib (toInt)

/-! ## Numerals -/

/-- `isspace`. -/
def isSpace (c : UInt8) : Bool := c = 32 || 9 ≤ c && c ≤ 13

/-- The value of a digit, in any base. -/
def digitValue (c : UInt8) : ℕ :=
  if 48 ≤ c ∧ c ≤ 57 then c.toNat - 48
  else if 65 ≤ c ∧ c ≤ 90 then c.toNat - 55
  else if 97 ≤ c ∧ c ≤ 122 then c.toNat - 87
  else 37

/-- The sign of a numeral, and what follows it. -/
def numeralSign : Bytes → ℤ × Bytes
  | [] => (1, [])
  | c :: s => if c = 45 then (-1, s) else if c = 43 then (1, s) else (1, c :: s)

/-- The base of a numeral, and its digits. A zero in front means base 8, unless a letter tells
another one. -/
def numeralBase : Bytes → ℕ × Bytes
  | [] => (10, [])
  | [c] => (if c = 48 then 8 else 10, [c])
  | c :: x :: s =>
    if c ≠ 48 then (10, c :: x :: s)
    else if x = 120 ∨ x = 88 then (16, s)
    else if x = 111 ∨ x = 79 then (8, s)
    else if x = 98 ∨ x = 66 then (2, s)
    else (8, c :: x :: s)

/-- The number that a C string begins with, and what follows it. -/
def scanNumeral (s : Bytes) : Option (ℤ × Bytes) :=
  let (sign, s) := numeralSign (s.dropWhile isSpace)
  let (base, s) := numeralBase (s.dropWhile isSpace)
  let digits := s.takeWhile (digitValue · < base)
  if digits = [] then none
  else some (sign * digits.foldl (fun m c ↦ base * m + digitValue c) 0,
    s.dropWhile (digitValue · < base))

/-- A C `long`. -/
def FitsLong (n : ℤ) : Prop := -2 ^ 63 ≤ n ∧ n < 2 ^ 63

instance (n : ℤ) : Decidable (FitsLong n) := inferInstanceAs (Decidable (_ ∧ _))

/-- `PyInt_FromString` for base 0. A number that is too large becomes a long integer. -/
def pyIntFromString (s : Bytes) : Option PyValue := do
  let (n, rest) ← scanNumeral (cStr s)
  if rest.dropWhile isSpace ≠ [] then none
  else if FitsLong n then some (.int n)
  else some (.long n)

/-- The suffix of a long integer is skipped. -/
def skipSuffix : Bytes → Bytes
  | [] => []
  | c :: s => if c = 76 ∨ c = 108 then s else c :: s

/-- `PyLong_FromString` for base 0. -/
def pyLongFromString (s : Bytes) : Option PyValue := do
  let (n, rest) ← scanNumeral (cStr s)
  if (skipSuffix rest).dropWhile isSpace ≠ [] then none else some (.long n)

/-- `PyInt_AsLong`. -/
def pyIntAsLong : PyValue → ℤ
  | .int n => n
  | .long n => if FitsLong n then n else -1
  | .bool b => if b then 1 else 0
  | .str _ | .other _ => -1

/-! ## Restoring -/

/-- What `Restore` returns: `Py_None`, an object, or a null pointer, with an exception set. -/
inductive Restored where
  | none
  | value (v : PyValue)
  | exception
  deriving DecidableEq, Repr

/-- What a Python call returns. -/
def Restored.ofCall : Option PyValue → Restored
  | some v => .value v
  | .none => .exception

/-- How `Restore` can fail to return. -/
inductive RestoreError where
  | decompress (e : DecompressError)
  /-- `Py_DECREF` of a null pointer. -/
  | nullPointer
  deriving DecidableEq, Repr

/-- The argument that `Py_BuildValue` makes of a buffer and its size for `s#`: the size is taken for
an `int`, and a negative one means that the buffer is a C string. -/
def sharpArg (s : Bytes) : Bytes :=
  if toInt s.length < 0 then cStr s else s.take (toInt s.length).toNat

namespace Client

/-- `Client::Restore` after the decompression. -/
def restoreFrom (loads : Bytes → Option PyValue) (data decomp : Bytes) (flags : UInt32) :
    Except RestoreError Restored :=
  if flags &&& flagBool ≠ 0 then
    if data = [] then .ok (.value (.bool false))
    else match pyIntFromString data with
      | none => .error .nullPointer
      | some v => .ok (.value (.bool (pyIntAsLong v ≠ 0)))
  else if flags &&& flagInteger ≠ 0 then
    if data = [] then .ok (.value (.int 0)) else .ok (.ofCall (pyIntFromString data))
  else if flags &&& flagLong ≠ 0 then
    if data = [] then .ok (.value (.int 0)) else .ok (.ofCall (pyLongFromString data))
  else if flags &&& flagPickle ≠ 0 then
    .ok (.ofCall (loads (sharpArg (if decomp = [] then data else decomp))))
  else if decomp = [] ∧ data ≠ [] then .ok (.value (.str data))
  else if decomp ≠ [] then .ok (.value (.str decomp))
  else .ok .none

/-- `Client::Restore`, for so many calls of `inflate`. -/
def restore (z : Zlib) (loads : Bytes → Option PyValue) (fuel : ℕ) (data : Bytes)
    (flags : UInt32) : Except RestoreError Restored :=
  if flags &&& flagCompressed ≠ 0 then
    match decompressInternal z data fuel with
    | .error e => .error (.decompress e)
    | .ok (false, _) => .ok .none
    | .ok (true, decomp) => restoreFrom loads data decomp flags
  else restoreFrom loads data [] flags

end Client

/-! ## Numerals are read back -/

theorem digitValue_lt {c : UInt8} (h : 48 ≤ c ∧ c ≤ 57) : digitValue c < 10 := by
  have hle : c.toNat ≤ 57 := UInt8.le_iff_toNat_le.mp h.2
  rw [digitValue, if_pos h]
  omega

theorem isSpace_digit {c : UInt8} (h : 48 ≤ c ∧ c ≤ 57) : isSpace c = false := by
  have hle : 48 ≤ c.toNat := UInt8.le_iff_toNat_le.mp h.1
  rw [isSpace, Bool.or_eq_false_iff, Bool.and_eq_false_iff]
  constructor
  · rw [decide_eq_false_iff_not]
    rintro rfl
    exact absurd h.1 (by decide)
  · right
    rw [decide_eq_false_iff_not, UInt8.le_iff_toNat_le]
    exact fun h13 ↦ absurd (hle.trans h13) (by decide)

theorem dropWhile_isSpace_decimal (n : ℕ) : (decimal n).dropWhile isSpace = decimal n := by
  obtain ⟨c, cs, hcons, hdigit⟩ := exists_decimal_cons n
  rw [hcons, List.dropWhile_cons_of_neg]
  simp [isSpace_digit hdigit]

theorem numeralSign_decimal (n : ℕ) : numeralSign (decimal n) = (1, decimal n) := by
  obtain ⟨c, cs, hcons, hdigit⟩ := exists_decimal_cons n
  rw [hcons, numeralSign, if_neg, if_neg]
  · rintro rfl
    exact absurd hdigit.1 (by decide)
  · rintro rfl
    exact absurd hdigit.1 (by decide)

/-- The base is 10, and it is 8 for zero. -/
theorem numeralBase_decimal (n : ℕ) : ∃ base, numeralBase (decimal n) = (base, decimal n) ∧
    (∀ c ∈ decimal n, digitValue c < base) ∧
      (decimal n).foldl (fun m c ↦ base * m + digitValue c) 0 = n := by
  rcases eq_or_ne n 0 with rfl | hne
  · refine ⟨8, rfl, fun c hc ↦ ?_, rfl⟩
    obtain rfl : c = 48 := List.mem_singleton.mp hc
    decide
  · refine ⟨10, ?_, fun c hc ↦ digitValue_lt (mem_decimal hc), foldl_decimal (by decide) n⟩
    obtain ⟨c, cs, hcons, hc⟩ := exists_decimal_eq_cons hne
    rw [hcons]
    rcases cs with _ | ⟨x, s⟩
    · rw [numeralBase, if_neg hc]
    · rw [numeralBase, if_pos hc]

theorem pyObjectStr_ne_nil (n : ℤ) : pyObjectStr n ≠ [] :=
  List.append_ne_nil_of_right_ne_nil _ (decimal_ne_nil n.natAbs)

/-- **A number that was written in decimal is read back.** -/
theorem scanNumeral_pyObjectStr (n : ℤ) : scanNumeral (cStr (pyObjectStr n)) = some (n, []) := by
  -- the digits have no NUL, so the C string is all of them
  have hcStr : cStr (pyObjectStr n) = pyObjectStr n := by
    rw [cStr_eq_self_iff, pyObjectStr]
    intro hmem
    rcases List.mem_append.mp hmem with hsign | hdigits
    · split_ifs at hsign <;> simp at hsign
    · exact absurd (mem_decimal hdigits).1 (by decide)
  have hsign : numeralSign ((pyObjectStr n).dropWhile isSpace) =
      (if n < 0 then -1 else 1, decimal n.natAbs) := by
    rw [pyObjectStr]
    split_ifs
    · rfl
    · rw [List.nil_append, dropWhile_isSpace_decimal, numeralSign_decimal]
  obtain ⟨base, hbase, hdigits, hvalue⟩ := numeralBase_decimal n.natAbs
  have htake : (decimal n.natAbs).takeWhile (digitValue · < base) = decimal n.natAbs :=
    List.takeWhile_eq_self_iff.mpr fun c hc ↦ decide_eq_true (hdigits c hc)
  have hdrop : (decimal n.natAbs).dropWhile (digitValue · < base) = [] :=
    List.dropWhile_eq_nil_iff.mpr fun c hc ↦ decide_eq_true (hdigits c hc)
  rw [scanNumeral, hcStr, hsign]
  dsimp only
  rw [dropWhile_isSpace_decimal, hbase]
  dsimp only
  rw [htake, hdrop, if_neg (decimal_ne_nil _), hvalue]
  split_ifs
  · congr
    omega
  · congr
    omega

theorem pyIntFromString_pyObjectStr {n : ℤ} (h : FitsLong n) :
    pyIntFromString (pyObjectStr n) = some (.int n) := by
  rw [pyIntFromString, scanNumeral_pyObjectStr]
  exact if_pos h

theorem pyLongFromString_pyObjectStr (n : ℤ) :
    pyLongFromString (pyObjectStr n) = some (.long n) := by
  rw [pyLongFromString, scanNumeral_pyObjectStr]
  rfl

/-! ## The round trip -/

/-- A Python object that `PrepareValue` and `Restore` are meant for: strings are not empty, and an
`int` is a C `long`. -/
def PyValue.Proper : PyValue → Prop
  | .str s => s ≠ []
  | .int n => FitsLong n
  | .bool _ | .long _ | .other _ => True

/-- Two objects of the same kind that are equal, where other objects are compared with `same`. -/
def PyValue.Same (same : ℕ → ℕ → Prop) : PyValue → PyValue → Prop
  | .other a, .other b => same a b
  | v, w => v = w

/-- What is assumed of `cPickle` and zlib where the value is concerned: what was pickled is
unpickled to an equal object, and what was compressed is decompressed. -/
structure Inverts (py : PyModules) (z : Zlib) (loads : Bytes → Option PyValue)
    (same : ℕ → ℕ → Prop) (v : PyValue) : Prop where
  loads : ∀ a s, v = .other a → py.dumps a = some s →
    s ≠ [] ∧ ∃ b, loads s = some (.other b) ∧ same a b
  decompress : ∀ s c, (v = .str s ∨ ∃ a, v = .other a ∧ py.dumps a = some s) → 3072 < s.length →
    py.compress s = some c → Client.DecompressReturns z c (.ok (true, s))

theorem sharpArg_eq {s : Bytes} (h : s.length < 2 ^ 31) : sharpArg s = s := by
  rw [sharpArg, Routerlib.toInt_eq h, if_neg (by omega), Int.toNat_natCast, List.take_length]

namespace Client

variable {py : PyModules} {z : Zlib} {loads : Bytes → Option PyValue} {same : ℕ → ℕ → Prop}
  {v : PyValue} {kv kv' : KeyValue} {data s : Bytes} {flags : UInt32}

/-- What `Restore` comes to, given enough calls of `inflate`. -/
def Restores (z : Zlib) (loads : Bytes → Option PyValue) (data : Bytes) (flags : UInt32)
    (v : PyValue) : Prop :=
  ∃ n, ∀ fuel, n ≤ fuel → restore z loads fuel data flags = .ok (.value v)

/-- What was not compressed is taken as it is. -/
theorem restores_of_plain (hflags : flags &&& flagCompressed = 0)
    (h : restoreFrom loads data [] flags = .ok (.value v)) : Restores z loads data flags v := by
  refine ⟨0, fun fuel _ ↦ ?_⟩
  rw [restore, if_neg (not_not.mpr hflags), h]

/-- What is never compressed is restored. -/
theorem restores_writeToKV (hflags : flags &&& flagCompressed = 0)
    (h : restoreFrom loads s [] flags = .ok (.value v)) :
    Restores z loads (writeToKV s flags kv).val (writeToKV s flags kv).flags v :=
  restores_of_plain hflags h

/-- What was compressed is decompressed. -/
theorem restores_of_compressed (hflags : flags &&& flagCompressed ≠ 0)
    (hdecompress : DecompressReturns z data (.ok (true, s)))
    (h : restoreFrom loads data s flags = .ok (.value v)) : Restores z loads data flags v := by
  obtain ⟨n, hn⟩ := hdecompress
  refine ⟨n, fun fuel hfuel ↦ ?_⟩
  rw [restore, if_pos hflags, hn fuel hfuel]
  exact h

/-- A string is restored from the decompressed bytes, if there are any. -/
theorem restoreFrom_str {decomp : Bytes} (hbool : flags &&& flagBool = 0)
    (hinteger : flags &&& flagInteger = 0) (hlong : flags &&& flagLong = 0)
    (hpickle : flags &&& flagPickle = 0) (hs : s ≠ [])
    (hdecomp : decomp = [] ∧ data = s ∨ decomp = s) :
    restoreFrom loads data decomp flags = .ok (.value (.str s)) := by
  rw [restoreFrom, if_neg (not_not.mpr hbool), if_neg (not_not.mpr hinteger),
    if_neg (not_not.mpr hlong), if_neg (not_not.mpr hpickle)]
  rcases hdecomp with ⟨rfl, rfl⟩ | rfl
  · exact if_pos ⟨rfl, hs⟩
  · rw [if_neg fun hnil ↦ hs hnil.1, if_pos hs]

/-- A pickle is restored from the decompressed bytes, if there are any. -/
theorem restoreFrom_pickle {decomp : Bytes} (hbool : flags &&& flagBool = 0)
    (hinteger : flags &&& flagInteger = 0) (hlong : flags &&& flagLong = 0)
    (hpickle : flags &&& flagPickle ≠ 0) (hs : s ≠ []) (hlen : s.length < 2 ^ 31)
    (hloads : loads s = some v) (hdecomp : decomp = [] ∧ data = s ∨ decomp = s) :
    restoreFrom loads data decomp flags = .ok (.value v) := by
  rw [restoreFrom, if_neg (not_not.mpr hbool), if_neg (not_not.mpr hinteger),
    if_neg (not_not.mpr hlong), if_pos hpickle]
  have hbuffer : (if decomp = [] then data else decomp) = s := by
    rcases hdecomp with ⟨rfl, rfl⟩ | rfl
    · exact if_pos rfl
    · exact if_neg hs
  rw [hbuffer, sharpArg_eq hlen, hloads]
  rfl

/-- **What can be compressed is restored**, whether it was compressed or not. -/
theorem restores_compressible (s : Bytes) (flags : UInt32) (hplain : flags &&& flagCompressed = 0)
    (hflag : (flags ||| flagCompressed) &&& flagCompressed ≠ 0)
    (hdecompress : ∀ c, 3072 < s.length → py.compress s = some c →
      DecompressReturns z c (.ok (true, s)))
    (hdata : s.length < 2 ^ 31 → restoreFrom loads s [] flags = .ok (.value v))
    (hdecomp : ∀ c, s.length < 2 ^ 31 → s ≠ [] →
      restoreFrom loads c s (flags ||| flagCompressed) = .ok (.value v))
    (h : (if true && 3072 < s.length then do
        let final ← py.compress s
        return writeToKV final (flags ||| flagCompressed) kv
      else return writeToKV s flags kv) = some kv') : Restores z loads kv'.val kv'.flags v := by
  rw [Bool.true_and] at h
  split_ifs at h with hlong
  · rw [decide_eq_true_iff] at hlong
    obtain ⟨c, hc, h⟩ := Option.bind_eq_some_iff.mp h
    obtain rfl := Option.some.inj h
    have hreturns := hdecompress c hlong hc
    apply restores_of_compressed hflag hreturns
    apply hdecomp c (length_lt_of_decompressReturns hreturns)
    rintro rfl
    exact absurd hlong (by decide)
  · rw [decide_eq_true_iff] at hlong
    obtain rfl := Option.some.inj h
    exact restores_of_plain hplain (hdata (by omega))

theorem restores_str (hs : s ≠ []) (hinv : Inverts py z loads same (.str s))
    (h : prepareValue py (.str s) kv = some kv') :
    Restores z loads kv'.val kv'.flags (.str s) := by
  refine restores_compressible s 0 rfl (by decide)
    (fun c ↦ hinv.decompress s c (Or.inl rfl)) (fun _ ↦ ?_) (fun c _ _ ↦ ?_) h
  · exact restoreFrom_str (by decide) (by decide) (by decide) (by decide) hs (Or.inl ⟨rfl, rfl⟩)
  · exact restoreFrom_str (by decide) (by decide) (by decide) (by decide) hs (Or.inr rfl)

theorem restores_bool {b : Bool} (h : prepareValue py (.bool b) kv = some kv') :
    Restores z loads kv'.val kv'.flags (.bool b) := by
  obtain rfl := Option.some.inj h
  apply restores_writeToKV (by decide)
  cases b <;> rfl

theorem restores_int {n : ℤ} (hn : FitsLong n) (h : prepareValue py (.int n) kv = some kv') :
    Restores z loads kv'.val kv'.flags (.int n) := by
  obtain rfl := Option.some.inj h
  apply restores_writeToKV (by decide)
  rw [restoreFrom, if_neg (by decide), if_pos (by decide), if_neg (pyObjectStr_ne_nil n),
    pyIntFromString_pyObjectStr hn]
  rfl

theorem restores_long {n : ℤ} (h : prepareValue py (.long n) kv = some kv') :
    Restores z loads kv'.val kv'.flags (.long n) := by
  obtain rfl := Option.some.inj h
  apply restores_writeToKV (by decide)
  rw [restoreFrom, if_neg (by decide), if_neg (by decide), if_pos (by decide),
    if_neg (pyObjectStr_ne_nil n), pyLongFromString_pyObjectStr n]
  rfl

theorem exists_restores_other {a : ℕ} (hinv : Inverts py z loads same (.other a))
    (h : prepareValue py (.other a) kv = some kv') :
    ∃ b, same a b ∧ Restores z loads kv'.val kv'.flags (.other b) := by
  obtain ⟨⟨rep, flags, canCompress⟩, hrep, h⟩ := Option.bind_eq_some_iff.mp h
  obtain ⟨s, hs, hrep⟩ := Option.map_eq_some_iff.mp hrep
  rw [Prod.mk.injEq, Prod.mk.injEq] at hrep
  obtain ⟨rfl, rfl, rfl⟩ := hrep
  obtain ⟨hne, b, hloads, hsame⟩ := hinv.loads a s rfl hs
  refine ⟨b, hsame, restores_compressible s flagPickle rfl (by decide)
    (fun c ↦ hinv.decompress s c (Or.inr ⟨a, rfl, hs⟩)) (fun hlen ↦ ?_) (fun c hlen _ ↦ ?_) h⟩
  · exact restoreFrom_pickle (by decide) (by decide) (by decide) (by decide) hne hlen hloads
      (Or.inl ⟨rfl, rfl⟩)
  · exact restoreFrom_pickle (by decide) (by decide) (by decide) (by decide) hne hlen hloads
      (Or.inr rfl)

/-- **Values round-trip.** Whatever `PrepareValue` stores for an object, `Restore` makes an equal
object of the same kind from it. -/
theorem restore_prepareValue (py : PyModules) (z : Zlib) (loads : Bytes → Option PyValue)
    (same : ℕ → ℕ → Prop) (v : PyValue) (kv kv' : KeyValue) (hv : v.Proper)
    (hinv : Inverts py z loads same v) (h : prepareValue py v kv = some kv') :
    ∃ v', v.Same same v' ∧ Restores z loads kv'.val kv'.flags v' := by
  cases v with
  | str s => exact ⟨.str s, rfl, restores_str hv hinv h⟩
  | bool b => exact ⟨.bool b, rfl, restores_bool h⟩
  | int n => exact ⟨.int n, rfl, restores_int hv h⟩
  | long n => exact ⟨.long n, rfl, restores_long h⟩
  | other a =>
    obtain ⟨b, hsame, hrestores⟩ := exists_restores_other hinv h
    exact ⟨.other b, hsame, hrestores⟩

/-- 4000 times the letter `a`. -/
def longString : Bytes := List.replicate 4000 97

/-- What `zlib.compress` makes of it. -/
def compressedLongString : Bytes :=
  [120, 156, 237, 193, 49, 1, 0, 0, 0, 194, 160, 172, 235, 95, 194, 24, 62, 64, 1, 0, 0, 0, 111, 3,
    141, 138, 235, 236]

/-- The functions of Python where `longString` is concerned. -/
def pyLongString : PyModules where
  dumps _ := none
  compress s := if s = longString then some compressedLongString else none

/-- A string that is compressed is restored. -/
theorem restore_prepareValue_longString :
    Restores (zlibOfTable [(compressedLongString, longString)]) (fun _ ↦ none) compressedLongString
      flagCompressed (.str longString) := by
  have hlen : longString.length = 4000 := List.length_replicate
  have hne : longString ≠ [] := List.ne_nil_of_length_pos (hlen.symm ▸ by decide)
  have hprepare : prepareValue pyLongString (.str longString) {} =
      some (writeToKV compressedLongString (0 ||| flagCompressed) {}) := by
    simp [prepareValue, pyLongString, hlen]
  have hinv : Inverts pyLongString (zlibOfTable [(compressedLongString, longString)])
      (fun _ ↦ none) (· = ·) (.str longString) := by
    refine ⟨fun a s hv _ ↦ (by cases hv), fun s c hs _ hc ↦ ?_⟩
    rcases hs with hs | ⟨a, hv, -⟩
    · obtain rfl := PyValue.str.inj hs
      have hcompress : pyLongString.compress longString = some compressedLongString := by
        simp [pyLongString]
      obtain rfl := Option.some.inj (hcompress.symm.trans hc)
      exact decompressReturns_zlibOfTable List.lookup_cons_self (hlen.trans_le (by decide)) hne
    · cases hv
  obtain ⟨v', hsame, hrestores⟩ := restore_prepareValue pyLongString
    (zlibOfTable [(compressedLongString, longString)]) (fun _ ↦ none) (· = ·) (.str longString) {} _
    hne hinv hprepare
  obtain rfl : PyValue.str longString = v' := hsame
  exact hrestores

end Client

end MemcacheRouter
