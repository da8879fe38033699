import Mathlib.Data.List.Range
import MemcacheRouter.Routerlib.Protocol

/-!
# Sending a request

The loop of `Server::ProcessRequests` that sends the request of a node, in at most `kNumTries`
tries. Every try hands the whole request to `send`, and only a try that accepts all of it ends the
loop. A try that accepts less leaves that much with the peer, and the next one starts again at the
first byte.

So the peer has received the request once exactly if no try before the last one accepted anything.
-/

namespace MemcacheRouter.Routerlib

/-- `kNumTries`. -/
def kNumTries : ℕ := 3

/-- The loop over the tries: `bytes`, and what the peer has received so far. -/
structure Sending where
  bytes : ℤ := 0
  received : Bytes := []
  deriving DecidableEq, Repr

/-- What `send` may return for so many bytes: `-1`, or how many of them it accepted. -/
def SendResult (size : ℕ) (result : ℤ) : Prop := result = -1 ∨ 0 ≤ result ∧ result ≤ size

instance (size : ℕ) (result : ℤ) : Decidable (SendResult size result) :=
  inferInstanceAs (Decidable (_ ∨ _))

namespace Sending

/-- `send` is called with the whole request. -/
def send (s : Sending) (request : Bytes) (result : ℤ) : Sending where
  bytes := result
  received := s.received ++ request.take result.toNat

/-- The tries from the `i`-th on, of which so many are left. `-1` is not the size of a string. -/
def sendFrom (request : Bytes) (results : ℕ → ℤ) : (left i : ℕ) → Sending → Sending
  | 0, _, s => s
  | left + 1, i, s =>
    let s := s.send request (results i)
    if s.bytes = request.length then s else sendFrom request results left (i + 1) s

end Sending

/-- The request is sent. The result is what the peer has received. -/
def sendRequest (request : Bytes) (results : ℕ → ℤ) : Except Crash Bytes :=
  let s := Sending.sendFrom request results kNumTries 0 {}
  if s.bytes = request.length then .ok s.received else .error .checkFailed

/-- The try that ends the loop: the first one that accepts the whole request. -/
structure EndsLoop (request : Bytes) (results : ℕ → ℤ) (i : ℕ) : Prop where
  lt : i < kNumTries
  accepts : results i = request.length
  first : ∀ j < i, results j ≠ request.length

/-! ## What the peer receives -/

section

variable {request : Bytes} {results : ℕ → ℤ}

/-- What the tries from the `i`-th to the one before the `m`-th leave with the peer. -/
def leftovers (request : Bytes) (results : ℕ → ℤ) (i m : ℕ) : Bytes :=
  (List.range' i (m - i)).flatMap fun j ↦ request.take (results j).toNat

theorem leftovers_self (i : ℕ) : leftovers request results i i = [] := by
  rw [leftovers, Nat.sub_self, List.range'_zero, List.flatMap_nil]

theorem leftovers_of_lt {i m : ℕ} (h : i < m) :
    leftovers request results i m =
      request.take (results i).toNat ++ leftovers request results (i + 1) m := by
  rw [leftovers, leftovers, show m - i = m - (i + 1) + 1 by omega, List.range'_succ,
    List.flatMap_cons]

theorem leftovers_eq_nil_iff (h : ∀ i < kNumTries, SendResult request.length (results i)) {m : ℕ}
    (hm : m < kNumTries) : leftovers request results 0 m = [] ↔ ∀ j < m, results j ≤ 0 := by
  rw [leftovers, List.flatMap_eq_nil_iff]
  constructor
  · intro hnil j hj
    have htake := hnil j (by rw [List.mem_range'_1]; omega)
    rcases List.take_eq_nil_iff.mp htake with hzero | hrequest
    · omega
    · rcases h j (by omega) with hfail | ⟨-, hle⟩
      · omega
      · rwa [hrequest, List.length_nil] at hle
  · intro hle j hj
    rw [List.mem_range'_1] at hj
    rw [Int.toNat_of_nonpos (hle j (by omega)), List.take_zero]

/-- The loop up to the try that accepts the whole request. -/
theorem Sending.sendFrom_of_accepts {m : ℕ} (haccepts : results m = request.length) :
    ∀ (left i : ℕ) (s : Sending), i ≤ m → m < i + left →
      (∀ j < m, i ≤ j → results j ≠ request.length) →
      Sending.sendFrom request results left i s =
        ⟨request.length, s.received ++ leftovers request results i m ++ request⟩ := by
  intro left
  induction left with
  | zero =>
    intro i s hi hm
    omega
  | succ left ih =>
    intro i s hi hm hfirst
    rw [Sending.sendFrom]
    rcases Nat.eq_or_lt_of_le hi with rfl | hlt
    · simp [Sending.send, haccepts, leftovers_self]
    · have hne : (s.send request (results i)).bytes ≠ request.length := hfirst i hlt le_rfl
      rw [if_neg hne, ih (i + 1) _ (by omega) (by omega) fun j hj hij ↦ hfirst j hj (by omega),
        leftovers_of_lt hlt]
      simp [Sending.send]

/-- If no try accepts the whole request then neither did the last one. -/
theorem Sending.bytes_sendFrom_ne : ∀ (left i : ℕ) (s : Sending),
    (0 < left ∨ s.bytes ≠ request.length) → (∀ j < i + left, results j ≠ request.length) →
      (Sending.sendFrom request results left i s).bytes ≠ request.length := by
  intro left
  induction left with
  | zero =>
    intro i s hs _
    exact hs.resolve_left (lt_irrefl 0)
  | succ left ih =>
    intro i s _ hnone
    have hne : (s.send request (results i)).bytes ≠ request.length := hnone i (by omega)
    rw [Sending.sendFrom, if_neg hne]
    exact ih (i + 1) _ (Or.inr hne) fun j hj ↦ hnone j (by omega)

/-- What the peer has received when the loop ends with a try. -/
theorem EndsLoop.sendRequest_eq {m : ℕ} (h : EndsLoop request results m) :
    sendRequest request results = .ok (leftovers request results 0 m ++ request) := by
  have hlt := h.lt
  rw [sendRequest, Sending.sendFrom_of_accepts h.accepts kNumTries 0 {} (Nat.zero_le m) (by omega)
    fun j hj _ ↦ h.first j hj]
  exact if_pos rfl

/-- The `CHECK` passes exactly if some try accepts the whole request. -/
theorem exists_endsLoop_of_sendRequest {received : Bytes}
    (h : sendRequest request results = .ok received) : ∃ m, EndsLoop request results m := by
  by_contra hnone
  have hne : ∀ j < kNumTries, results j ≠ request.length := by
    intro j hj
    induction j using Nat.strong_induction_on with
    | _ j ih =>
      intro haccepts
      exact hnone ⟨j, hj, haccepts, fun k hk ↦ ih k hk (hk.trans hj)⟩
  have hbytes : (Sending.sendFrom request results kNumTries 0 {}).bytes ≠ request.length :=
    Sending.bytes_sendFrom_ne kNumTries 0 {} (Or.inl (by decide)) fun j hj ↦ hne j (by omega)
  rw [sendRequest, if_neg hbytes] at h
  cases h

end

/-! ## Whether it is the request -/

/-- **A request is sent once exactly if no try before the last one accepted part of it.** -/
theorem sent_once_iff (request : Bytes) (results : ℕ → ℤ)
    (h : ∀ i < kNumTries, SendResult request.length (results i)) :
    (∀ received, sendRequest request results = .ok received → received = request) ↔
      ∀ i, EndsLoop request results i → ∀ j < i, results j ≤ 0 := by
  constructor
  · intro honce i hi
    have hreceived := honce _ hi.sendRequest_eq
    rw [List.append_left_eq_self] at hreceived
    exact (leftovers_eq_nil_iff h hi.lt).mp hreceived
  · intro hnone received hsend
    obtain ⟨i, hi⟩ := exists_endsLoop_of_sendRequest hsend
    rw [hi.sendRequest_eq, (leftovers_eq_nil_iff h hi.lt).mpr (hnone i hi), List.nil_append,
      Except.ok.injEq] at hsend
    exact hsend.symm

/-- The first try fails, the second one accepts everything. -/
theorem sent_once_iff_afterFailure :
    (∀ received, sendRequest [1, 2, 3] (fun i ↦ if i = 0 then -1 else 3) = .ok received →
        received = [1, 2, 3]) ↔
      ∀ i, EndsLoop [1, 2, 3] (fun i ↦ if i = 0 then -1 else 3) i →
        ∀ j < i, (if j = 0 then -1 else 3 : ℤ) ≤ 0 :=
  sent_once_iff [1, 2, 3] (fun i ↦ if i = 0 then -1 else 3) (by decide)

/-- **A try accepts two bytes of three and the next one accepts three.** The peer receives the first
two bytes twice. -/
theorem sent_twice :
    ∃ (request received : Bytes) (results : ℕ → ℤ),
      (∀ i < kNumTries, SendResult request.length (results i)) ∧
        sendRequest request results = .ok received ∧ received ≠ request :=
  ⟨[1, 2, 3], [1, 2, 1, 2, 3], fun i ↦ if i = 0 then 2 else 3, by decide, by decide, by decide⟩

end MemcacheRouter.Routerlib
