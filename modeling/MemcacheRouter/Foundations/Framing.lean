import Mathlib.Algebra.Group.Nat.Even

/-!
# Binary framing

Numbers as bytes, most significant first, and streams of frames that say themselves how long they
are. The length of a frame is read from its beginning by a function `size`, which may fail; a list
*delimits itself* if `size` finds its length whatever follows it. A concatenation of such frames can
be cut in one way only, and `split` finds it.
-/

namespace BigEndian

/-- The last `w` bytes of `n`, most significant first. -/
def encode : ℕ → ℕ → List UInt8
  | 0, _ => []
  | w + 1, n => encode w (n / 256) ++ [UInt8.ofNat n]

/-- The number with the given bytes. -/
def decode (bs : List UInt8) : ℕ := bs.foldl (fun n b ↦ 256 * n + b.toNat) 0

@[simp] theorem length_encode (w n : ℕ) : (encode w n).length = w := by
  induction w generalizing n with
  | zero => rfl
  | succ w ih => rw [encode, List.length_append, ih, List.length_singleton]

theorem decode_concat (bs : List UInt8) (b : UInt8) :
    decode (bs ++ [b]) = 256 * decode bs + b.toNat := by
  rw [decode, List.foldl_append, decode, List.foldl_cons, List.foldl_nil]

theorem decode_encode (w n : ℕ) : decode (encode w n) = n % 256 ^ w := by
  induction w generalizing n with
  | zero => rw [pow_zero, Nat.mod_one]; rfl
  | succ w ih =>
    have hlast : (UInt8.ofNat n).toNat = n % 256 := UInt8.toNat_ofNat'
    rw [encode, decode_concat, ih, hlast, pow_succ', Nat.mod_mul, add_comm]

@[simp] theorem decode_encode_of_lt {w n : ℕ} (h : n < 256 ^ w) : decode (encode w n) = n := by
  rw [decode_encode, Nat.mod_eq_of_lt h]

end BigEndian

namespace Framing

variable {α : Type} (size : List α → Option ℕ)

/-- Cut a stream into at most `fuel` frames. -/
def splitAux : ℕ → List α → Option (List (List α))
  | _, [] => some []
  | 0, _ :: _ => none
  | fuel + 1, a :: bs => do
    let n ← size (a :: bs)
    if n = 0 ∨ (a :: bs).length < n then none
    else
      let fs ← splitAux fuel ((a :: bs).drop n)
      return (a :: bs).take n :: fs

/-- Cut a stream into frames. It fails if the stream does not end with a frame. -/
def split (bs : List α) : Option (List (List α)) := splitAux size bs.length bs

/-- A frame whose length is read from itself. -/
structure Delimits (f : List α) : Prop where
  ne_nil : f ≠ []
  size_append : ∀ rest, size (f ++ rest) = some f.length

variable {size} {fs : List (List α)}

theorem splitAux_flatten (h : ∀ f ∈ fs, Delimits size f) :
    ∀ {fuel : ℕ}, fs.flatten.length ≤ fuel → splitAux size fuel fs.flatten = some fs := by
  induction fs with
  | nil =>
    intro fuel _
    rw [List.flatten_nil, splitAux]
  | cons f fs ih =>
    intro fuel hfuel
    have hf := h f List.mem_cons_self
    obtain ⟨a, f', rfl⟩ := List.exists_cons_of_ne_nil hf.ne_nil
    rw [List.flatten_cons] at hfuel ⊢
    have hlen : (a :: f' ++ fs.flatten).length = (a :: f').length + fs.flatten.length :=
      List.length_append
    have hpos : 0 < (a :: f').length := Nat.zero_lt_succ _
    obtain ⟨fuel, rfl⟩ : ∃ m, fuel = m + 1 := Nat.exists_eq_add_one.mpr (by omega)
    have hrest : splitAux size fuel fs.flatten = some fs :=
      ih (fun g hg ↦ h g (List.mem_cons_of_mem _ hg)) (by omega)
    rw [List.cons_append, splitAux, ← List.cons_append, hf.size_append]
    have hn : ¬((a :: f').length = 0 ∨ (a :: f' ++ fs.flatten).length < (a :: f').length) := by
      omega
    simp only [Option.bind_eq_bind, Option.bind_some, if_neg hn, List.drop_left, List.take_left,
      hrest]
    rfl

/-- **A stream of frames that delimit themselves is cut into these frames.** -/
theorem split_flatten (h : ∀ f ∈ fs, Delimits size f) : split size fs.flatten = some fs :=
  splitAux_flatten h le_rfl

end Framing
