import Mathlib.Algebra.Order.Ring.Int
import Mathlib.Tactic.NormNum

/-!
The words of an x86-64 page table: a present bit, a page-size bit, the number
of a frame in bits 12 to 51 and attributes in the other bits.
-/
namespace OsC.Entry

def present (e : ℕ) : Bool := e.testBit 0
def huge (e : ℕ) : Bool := e.testBit 7

/-- The number of the frame that an entry names. -/
def address (e : ℕ) : ℕ := e / 4096 % 2 ^ 40

/-- The bits of an entry outside its address. -/
def attributes (e : ℕ) : ℕ := e - address e * 4096

/-- The next table that an entry points to, if it is present and maps no page itself. -/
def next (e : ℕ) : Option ℕ := if present e && !huge e then some (address e) else none

/-- The bits of the address. -/
def addressMask : ℕ := 0x000ffffffffff000

theorem next_eq_some {e t : ℕ} : next e = some t ↔ present e = true ∧ huge e = false ∧ address e = t := by
  unfold next
  cases present e <;> cases huge e <;> simp

theorem next_zero : next 0 = none := rfl

/-- An entry that is not huge points to a table exactly when it is present. -/
theorem next_of_present {e : ℕ} (isPresent : present e = true) (notHuge : huge e = false) :
    next e = some (address e) := next_eq_some.mpr ⟨isPresent, notHuge, rfl⟩

theorem next_of_absent {e : ℕ} (absent : present e = false) : next e = none := by
  simp [next, absent]

theorem address_le (e : ℕ) : address e * 4096 ≤ e :=
  le_trans (Nat.mul_le_mul_right 4096 (Nat.mod_le _ _)) (Nat.div_mul_le_self e 4096)

/-- The address and the attributes make up the entry. -/
theorem entry_eq {e e' : ℕ} (same : address e = address e') (alike : attributes e = attributes e') : e = e' := by
  have left := address_le e
  have right := address_le e'
  unfold attributes at alike
  rw [same] at alike left
  omega

/-- Masking with one bit tests it. -/
theorem and_bit (e i : ℕ) : e &&& 2 ^ i ≠ 0 ↔ e.testBit i = true := by
  constructor
  · intro nonzero
    by_contra clear
    refine nonzero (Nat.eq_of_testBit_eq fun j => ?_)
    by_cases same : i = j
    · subst same
      simpa using clear
    · simp [same]
  · intro set zero
    have bit := congrArg (Nat.testBit · i) zero
    simp [set] at bit

/-- Masking selects the address. -/
theorem and_addressMask (e : ℕ) : e &&& addressMask = address e * 4096 := by
  refine Nat.eq_of_testBit_eq fun i => ?_
  have mask : addressMask = (2 ^ 40 - 1) * 2 ^ 12 := by decide
  have shifted : address e * 4096 = (e / 2 ^ 12 % 2 ^ 40) * 2 ^ 12 := rfl
  rw [Nat.testBit_and, mask, shifted, Nat.testBit_mul_two_pow, Nat.testBit_mul_two_pow, Nat.testBit_two_pow_sub_one,
    Nat.testBit_mod_two_pow, Nat.testBit_div_two_pow]
  by_cases low : 12 ≤ i
  · simp [low, Bool.and_comm]
  · simp [low]

theorem address_mul {f : ℕ} (fits : f < 2 ^ 40) : address (f * 4096) = f := by
  unfold address
  omega

/-- A word without address bits is a high and a low part. -/
theorem split_attributes {flags : ℕ} (clear : flags &&& addressMask = 0) :
    flags = 2 ^ 52 * (flags / 2 ^ 52) + flags % 4096 := by
  rw [and_addressMask] at clear
  unfold address at clear
  omega

/-- A frame and attributes without address bits are combined by addition. -/
theorem or_attributes {f flags : ℕ} (fits : f < 2 ^ 40) (clear : flags &&& addressMask = 0) :
    f * 4096 ||| flags = f * 4096 + flags := by
  have low : flags % 4096 < 2 ^ 12 := Nat.mod_lt _ (by decide)
  have parts := split_attributes clear
  have middle : f * 4096 + flags % 4096 = f * 4096 ||| flags % 4096 := by
    rw [Nat.mul_comm f]
    exact Nat.two_pow_add_eq_or_of_lt low f
  have whole : 2 ^ 52 * (flags / 2 ^ 52) + (f * 4096 + flags % 4096) =
      2 ^ 52 * (flags / 2 ^ 52) ||| (f * 4096 + flags % 4096) :=
    Nat.two_pow_add_eq_or_of_lt (by omega) _
  calc f * 4096 ||| flags
      = f * 4096 ||| (2 ^ 52 * (flags / 2 ^ 52) ||| flags % 4096) := by
        rw [← Nat.two_pow_add_eq_or_of_lt (by omega), ← parts]
    _ = 2 ^ 52 * (flags / 2 ^ 52) ||| (f * 4096 ||| flags % 4096) := by
        rw [← Nat.or_assoc, ← Nat.or_assoc, Nat.or_comm (f * 4096)]
    _ = 2 ^ 52 * (flags / 2 ^ 52) + (f * 4096 + flags % 4096) := by rw [← middle, ← whole]
    _ = f * 4096 + flags := by omega

section
variable {f flags : ℕ} (fits : f < 2 ^ 40) (clear : flags &&& addressMask = 0)
include fits clear

theorem address_or : address (f * 4096 ||| flags) = f := by
  have parts := split_attributes clear
  rw [or_attributes fits clear, address]
  omega

theorem attributes_or : attributes (f * 4096 ||| flags) = flags := by
  rw [attributes, address_or fits clear, or_attributes fits clear]
  omega

end

/-- The low bits of an entry are those of its attributes. -/
theorem testBit_or_low (f flags : ℕ) {i : ℕ} (low : i < 12) : (f * 4096 ||| flags).testBit i = flags.testBit i := by
  rw [Nat.testBit_or, show f * 4096 = f * 2 ^ 12 from rfl, Nat.testBit_mul_two_pow]
  simp [Nat.not_le.mpr low]

theorem present_or (f flags : ℕ) : present (f * 4096 ||| flags) = present flags := testBit_or_low f flags (by decide)

theorem huge_or (f flags : ℕ) : huge (f * 4096 ||| flags) = huge flags := testBit_or_low f flags (by decide)

end OsC.Entry
