import MemcacheRouter.Cmrclient.Values

/-!
# What the calls return

What `Client::get`, `gets` and `get_multi` make of the response of the router. `get` and `gets`
restore the first key of the response. `get_multi` restores every key, and puts it into a `dict`
under what `c_str` shows of it.

A value that is not there comes as an empty string without flags, for which `Restore` returns
`None`. It does the same for an empty string that is there, so a client cannot tell the two apart.
-/

namespace MemcacheRouter

/-- How a call can fail to return. -/
inductive CallError where
  | restore (e : RestoreError)
  | checkFailed
  /-- A null pointer is put into a `dict`. -/
  | nullPointer
  deriving DecidableEq, Repr

/-- A `uint64_t` that `Py_BuildValue` takes for a `long`. -/
def asLong (n : ℕ) : ℤ :=
  if n % 2 ^ 64 < 2 ^ 63 then (n % 2 ^ 64 : ℕ) else (n % 2 ^ 64 : ℕ) - 2 ^ 64

/-- A `dict` with strings for its keys. -/
abbrev PyDict := Bytes → Option Restored

namespace Client

section Results

variable (z : Zlib) (loads : Bytes → Option PyValue) (fuel : ℕ)

/-- `Restore` of the value and the flags of a key. -/
def restoreKey (kv : KeyValue) : Except CallError Restored :=
  (restore z loads fuel kv.val kv.flags).mapError .restore

/-- What `Client::get` returns. -/
def getResult (response : Instruction) : Except CallError Restored :=
  match response.getKeys with
  | [] => .error .checkFailed
  | kv :: _ => restoreKey z loads fuel kv

/-- What `Client::gets` returns. -/
def getsResult (response : Instruction) : Except CallError (Restored × ℤ) :=
  match response.getKeys with
  | [] => .error .checkFailed
  | kv :: _ => do
    let val ← restoreKey z loads fuel kv
    return (val, asLong kv.cas)

/-- One turn of the loop of `get_multi`. -/
def putKey (dict : PyDict) (kv : KeyValue) : Except CallError PyDict := do
  match ← restoreKey z loads fuel kv with
  | .exception => .error .nullPointer
  | val => return Function.update dict (cStr kv.key) (some val)

/-- What `Client::get_multi` returns. -/
def getMultiResult (response : Instruction) : Except CallError PyDict :=
  response.getKeys.foldlM (putKey z loads fuel) fun _ ↦ none

end Results

end Client

/-! ## Values and what is returned of them -/

/-- What a client is given for a value, or for none: an equal object of the same kind, and `None`
for the empty string. -/
inductive Gives (same : ℕ → ℕ → Prop) : Option PyValue → Restored → Prop
  | absent : Gives same none .none
  | empty : Gives same (some (.str [])) .none
  | value {v v' : PyValue} (hv : v ≠ .str []) (h : v.Same same v') : Gives same (some v) (.value v')

theorem Gives.ne_exception {same : ℕ → ℕ → Prop} {v : Option PyValue} {r : Restored}
    (h : Gives same v r) : r ≠ .exception := by
  cases h <;> simp

/-- Bytes and flags from which `Restore` makes what stands for a value, given enough calls of
`inflate`. -/
def Represents (z : Zlib) (loads : Bytes → Option PyValue) (same : ℕ → ℕ → Prop)
    (v : Option PyValue) (data : Bytes) (flags : UInt32) : Prop :=
  ∃ r n, Gives same v r ∧ ∀ fuel, n ≤ fuel → Client.restore z loads fuel data flags = .ok r

/-- An object that Python can have: an `int` is a C `long`. -/
def PyValue.Valid : PyValue → Prop
  | .int n => FitsLong n
  | .str _ | .bool _ | .long _ | .other _ => True

namespace Client

variable {py : PyModules} {z : Zlib} {loads : Bytes → Option PyValue} {same : ℕ → ℕ → Prop}
  {v : PyValue} {kv kv' : KeyValue} {data : Bytes} {flags : UInt32}

/-- Nothing is restored from nothing. -/
theorem restore_nil (fuel : ℕ) : restore z loads fuel [] 0 = .ok .none := rfl

theorem represents_none : Represents z loads same none [] 0 :=
  ⟨.none, 0, .absent, fun fuel _ ↦ restore_nil fuel⟩

theorem Restores.represents {v' : PyValue} (h : Restores z loads data flags v')
    (hv : v ≠ .str []) (hsame : v.Same same v') : Represents z loads same (some v) data flags := by
  obtain ⟨n, hn⟩ := h
  exact ⟨.value v', n, .value hv hsame, hn⟩

/-- **Whatever `PrepareValue` stores, `Restore` makes of it what stands for the value.** -/
theorem represents_prepareValue (hv : v.Valid) (hinv : Inverts py z loads same v)
    (h : prepareValue py v kv = some kv') :
    Represents z loads same (some v) kv'.val kv'.flags := by
  by_cases hempty : v = .str []
  · subst hempty
    obtain rfl := Option.some.inj h
    exact ⟨.none, 0, .empty, fun fuel _ ↦ restore_nil fuel⟩
  · cases v with
    | str s => exact (restores_str (by simpa using hempty) hinv h).represents hempty rfl
    | bool b => exact (restores_bool h).represents hempty rfl
    | int n => exact (restores_int hv h).represents hempty rfl
    | long n => exact (restores_long h).represents hempty rfl
    | other a =>
      obtain ⟨b, hsame, hrestores⟩ := exists_restores_other hinv h
      exact hrestores.represents hempty hsame

/-! ## What is returned of a response -/

theorem exists_restoreKey {v : Option PyValue}
    (h : Represents z loads same v kv.val kv.flags) :
    ∃ r n, Gives same v r ∧ ∀ fuel, n ≤ fuel → restoreKey z loads fuel kv = .ok r := by
  obtain ⟨r, n, hgives, hn⟩ := h
  refine ⟨r, n, hgives, fun fuel hfuel ↦ ?_⟩
  rw [Client.restoreKey, hn fuel hfuel]
  rfl

/-- **The loop of `get_multi`.** The keys of the response get what stands for their values, and
nothing else is put into the `dict`. -/
theorem exists_foldlM_putKey {Q : Bytes → Option PyValue → Prop} {kvs : List KeyValue}
    (hplain : ∀ kv ∈ kvs, 0 ∉ kv.key)
    (h : ∀ kv ∈ kvs, ∃ v, Q kv.key v ∧ Represents z loads same v kv.val kv.flags)
    (dict₀ : PyDict) :
    ∃ dict n, (∀ fuel, n ≤ fuel → kvs.foldlM (putKey z loads fuel) dict₀ = .ok dict) ∧
      ∀ k, (k ∈ kvs.map KeyValue.key → ∃ r v, dict k = some r ∧ Q k v ∧ Gives same v r) ∧
        (k ∉ kvs.map KeyValue.key → dict k = dict₀ k) := by
  induction kvs generalizing dict₀ with
  | nil =>
    exact ⟨dict₀, 0, fun _ _ ↦ rfl, fun k ↦ ⟨fun hk ↦ absurd hk List.not_mem_nil, fun _ ↦ rfl⟩⟩
  | cons kv kvs ih =>
    obtain ⟨v, hv, hrepresents⟩ := h kv List.mem_cons_self
    obtain ⟨r, n₁, hgives, hrestore⟩ := exists_restoreKey hrepresents
    have hkey : cStr kv.key = kv.key := cStr_eq_self_iff.mpr (hplain kv List.mem_cons_self)
    obtain ⟨dict, n₂, hfold, hdict⟩ := ih (fun kv' hkv' ↦ hplain kv' (List.mem_cons_of_mem _ hkv'))
      (fun kv' hkv' ↦ h kv' (List.mem_cons_of_mem _ hkv')) (Function.update dict₀ kv.key (some r))
    have hput : ∀ fuel, n₁ ≤ fuel →
        putKey z loads fuel dict₀ kv = .ok (Function.update dict₀ kv.key (some r)) := by
      intro fuel hfuel
      rw [putKey, hrestore fuel hfuel, hkey]
      rcases r with _ | v | _
      · rfl
      · rfl
      · exact absurd rfl hgives.ne_exception
    refine ⟨dict, max n₁ n₂, fun fuel hfuel ↦ ?_, fun k ↦ ?_⟩
    · rw [List.foldlM_cons, hput fuel ((le_max_left _ _).trans hfuel)]
      exact hfold fuel ((le_max_right _ _).trans hfuel)
    · rw [List.map_cons, List.mem_cons]
      by_cases hk : k ∈ kvs.map KeyValue.key
      · exact ⟨fun _ ↦ (hdict k).1 hk, fun hnot ↦ absurd (Or.inr hk) hnot⟩
      · -- the key comes last here, or not at all
        have hlast := (hdict k).2 hk
        refine ⟨fun hor ↦ ?_, fun hnot ↦ ?_⟩
        · obtain rfl := hor.resolve_right hk
          exact ⟨r, v, hlast.trans (Function.update_self _ _ _), hv, hgives⟩
        · exact hlast.trans (Function.update_of_ne (fun heq ↦ hnot (Or.inl heq)) _ _)

end Client

end MemcacheRouter
