import Mathlib.Algebra.Order.Ring.Int
import Mathlib.Tactic.NormNum

/-!
64-bit words as natural numbers. What the code computes on them is the exact
result modulo 2^64.
-/
namespace OsC.Word

/-- A 64-bit result: the exact value modulo 2^64. -/
def wrap (exact : ℤ) : ℕ := (exact % 2 ^ 64).toNat

theorem wrap_lt (exact : ℤ) : wrap exact < 2 ^ 64 := by
  unfold wrap
  omega

/-- A value that fits in 64 bits is its own result. -/
theorem wrap_eq {exact : ℤ} {n : ℕ} (same : exact = n) (fits : n < 2 ^ 64) : wrap exact = n := by
  unfold wrap
  omega

end OsC.Word
