import Mathlib.Tactic.Ring
import Mathlib.Tactic.Linarith

/-!
# Rounding naturals to a fixed number of significant bits

Binary floating point keeps the leading bits of a number and rounds the rest to nearest, ties to
the even mantissa. On naturals this is exact integer arithmetic, and scaling by a power of two
commutes with it, so a product with a constant that is itself a scaled natural can be rounded
without leaving `ℕ`.
-/

namespace Rounding

/-- The multiple of `2 ^ e` nearest to `x`, the even one on a tie. -/
def roundHalfEven (e x : ℕ) : ℕ :=
  if 2 ^ e < 2 * (x % 2 ^ e) ∨ (2 * (x % 2 ^ e) = 2 ^ e ∧ x / 2 ^ e % 2 = 1) then
    (x / 2 ^ e + 1) * 2 ^ e
  else x / 2 ^ e * 2 ^ e

/-- `x` rounded to `p` significant bits. -/
def toPrecision (p x : ℕ) : ℕ := roundHalfEven (x.log2 + 1 - p) x

theorem roundHalfEven_le (e x : ℕ) : roundHalfEven e x ≤ 2 * x := by
  have hx : x / 2 ^ e * 2 ^ e + x % 2 ^ e = x := Nat.div_add_mod' x (2 ^ e)
  rw [roundHalfEven]
  split
  · next h =>
    have hr : 2 ^ e ≤ 2 * (x % 2 ^ e) := by omega
    rw [add_mul, one_mul]
    omega
  · omega

theorem toPrecision_le (p x : ℕ) : toPrecision p x ≤ 2 * x := roundHalfEven_le _ x

end Rounding
