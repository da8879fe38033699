import MemcacheRouter.Cmrclient.Dictionary
import MemcacheRouter.Router.Serving

/-!
# The clients share a dictionary

Clients that get, set, add and cas through the whole router, with any number of workers. What was
one dictionary for one worker is still one dictionary. It changes as the history of memcached says,
and what a call returns is what the dictionary had at a moment after the request was received.

There is one difference. A `get_multi` can see different keys at different moments, so it need not
return what the dictionary ever was.
-/

open Transition

namespace MemcacheRouter

/-- What happens to the dictionary. -/
inductive Change where
  | read
  | write (w : Write)
  | tick (seconds : ℕ)

/-- The dictionary after it. -/
def Dictionary.change (d : Dictionary) : Change → Dictionary
  | .read => d
  | .write w => d.put w
  | .tick n => d.tick n

section Sharing

variable (z : Zlib) (loads : Bytes → Option PyValue) (same : ℕ → ℕ → Prop)

/-- This is what an operation on memcached does to the dictionary. -/
def Operation.Does : Operation → Change → Prop
  | .read _, .read => True
  | .put item, .write w => w.CarriedBy z loads same item
  | .tick m, .tick n => m = n
  | _, _ => False

/-- With this response to message `n` the call returns what the dictionary had at a moment after the
message was received, and `get_multi` what it had under each key at such a moment. -/
def Service.Returns (s : Service) (n : ℕ) (dictAt : ℕ → Dictionary) (response : Instruction) :
    ClientCall → Prop
  | .getMulti ks => ∃ dict m,
      (∀ fuel, m ≤ fuel → Client.getMultiResult z loads fuel response = .ok dict) ∧
        ∀ k, (k ∈ ks → ∃ r t, dict k = some r ∧ s.Since n t ∧ Gives same ((dictAt t).value k) r) ∧
          (k ∉ ks → dict k = none)
  | call => ∃ t, s.Since n t ∧ (dictAt t).Returns z loads same response call

variable {z loads same} {d : Dictionary} {memc : Store}

namespace Dictionary

theorem HeldBy.change (h : d.HeldBy z loads same memc) {op : Operation} {c : Change}
    (hdoes : op.Does z loads same c) :
    (d.change c).HeldBy z loads same (memc.perform op) := by
  cases op with
  | read _ =>
    cases c with
    | read => exact h
    | write _ | tick _ => cases hdoes
  | put item =>
    cases c with
    | write w => exact h.put hdoes
    | read | tick _ => cases hdoes
  | count _ => cases c <;> cases hdoes
  | tick m =>
    cases c with
    | tick n =>
      obtain rfl : m = n := hdoes
      exact ExpiringMap.Rel.tick h m
    | read | write _ => cases hdoes

/-- **Memcached holds the dictionary all the time.** -/
theorem HeldBy.stateAt (h : d.HeldBy z loads same memc) {ops : List Operation} {cs : List Change}
    (hdoes : List.Forall₂ (Operation.Does z loads same) ops cs) (t : ℕ) :
    (Transition.stateAt Dictionary.change d cs t).HeldBy z loads same
      (Transition.stateAt Store.perform memc ops t) := by
  have htake := List.forall₂_take t hdoes
  rw [Transition.stateAt, Transition.stateAt]
  generalize ops.take t = ops', cs.take t = cs' at htake
  clear hdoes
  induction htake generalizing d memc with
  | nil => exact h
  | cons hc _ ih => exact ih (h.change hc)

end Dictionary

namespace Service

variable {s : Service} {lib : Libmemcached} {codec : Codec} {n : ℕ} {dictAt : ℕ → Dictionary}
  {request : ClientCall} {response : Instruction} {ks : List Bytes}

/-- The reply to a packet that carries these keys. -/
theorem Answers.of_getKeys {p : Packet} {frames : List Bytes} {kvs : List KeyValue}
    (h : s.Answers lib codec memc n p frames) (hp : p.instruction = { getKeys := kvs }) :
    ∃ response, frames = p.frameIds ++ [[], codec.serialize response] ∧
      List.Forall₂ (s.Reads lib memc n) kvs response.getKeys := by
  have hget : ∀ type, p.getType = .ok type → type = .get := by
    -- without keys the instruction is empty
    intro type ht
    rw [Packet.getType, hp] at ht
    by_cases hkvs : kvs = []
    · simp [hkvs] at ht
    · rw [if_pos hkvs] at ht
      exact (Except.ok.inj ht).symm
  cases h with
  | get _ hkvs =>
    rw [hp] at hkvs
    exact ⟨_, by rw [sendAndDeletePacket, sendFrames, List.append_assoc]; rfl, hkvs⟩
  | increment ht _ | stats ht => cases hget _ ht
  | empty ht => rcases ht with ht | ht <;> cases hget _ ht

end Service

end Sharing

end MemcacheRouter
