import Mathlib.Tactic.Ring
import Mathlib.Data.Nat.Notation

/-!
Byte-addressed memory and little-endian words in it: what a word reads after
another word was written, and what a write leaves unchanged.
-/
namespace OsC.Bytes

abbrev Memory := ℕ → UInt8

/-- Memory with one byte replaced. -/
def set (m : Memory) (a : ℕ) (v : UInt8) : Memory := fun b => if b = a then v else m b

/-- The little-endian number in the `n` bytes from `a`. -/
def read (m : Memory) (a : ℕ) : ℕ → ℕ
  | 0 => 0
  | n + 1 => (m a).toNat + 256 * read m (a + 1) n

/-- Memory with the `n` low bytes of `w` stored little-endian from `a`. -/
def write (m : Memory) (a : ℕ) : ℕ → ℕ → Memory
  | 0, _ => m
  | n + 1, w => write (set m a (UInt8.ofNat w)) (a + 1) n (w / 256)

@[simp] theorem set_same (m : Memory) (a : ℕ) (v : UInt8) : set m a v a = v := by simp [set]

theorem set_other (m : Memory) {a b : ℕ} (v : UInt8) (other : b ≠ a) : set m a v b = m b := by simp [set, other]

theorem read_congr {m m' : Memory} (n a : ℕ) (same : ∀ b, a ≤ b → b < a + n → m' b = m b) :
    read m' a n = read m a n := by
  induction n generalizing a with
  | zero => rfl
  | succ n ih =>
    have tail := ih (a + 1) (fun b low high => same b (by omega) (by omega))
    simp only [read, tail, same a (le_refl a) (by omega)]

theorem write_outside (m : Memory) (n a w : ℕ) {b : ℕ} (outside : b < a ∨ a + n ≤ b) : write m a n w b = m b := by
  induction n generalizing m a w with
  | zero => rfl
  | succ n ih =>
    rw [write, ih _ _ _ (by omega)]
    exact set_other m _ (by omega)

theorem div_lt_pow {n w : ℕ} (fits : w < 256 ^ (n + 1)) : w / 256 < 256 ^ n := by
  rw [pow_succ] at fits
  exact Nat.div_lt_of_lt_mul (by rw [Nat.mul_comm]; exact fits)

theorem read_write (m : Memory) (n a w : ℕ) (fits : w < 256 ^ n) : read (write m a n w) a n = w := by
  induction n generalizing m a w with
  | zero => simp [read]; omega
  | succ n ih =>
    have rest := div_lt_pow fits
    have low : write (set m a (UInt8.ofNat w)) (a + 1) n (w / 256) a = UInt8.ofNat w := by
      rw [write_outside _ _ _ _ (.inl (by omega)), set_same]
    simp only [write, read, low, ih _ (a + 1) _ rest, UInt8.toNat_ofNat']
    omega

theorem read_write_apart (m : Memory) {n a k b : ℕ} (w : ℕ) (apart : b + k ≤ a ∨ a + n ≤ b) :
    read (write m a n w) b k = read m b k :=
  read_congr k b (fun _ low high => write_outside m n a w (by omega))

theorem read_lt (m : Memory) (n a : ℕ) : read m a n < 256 ^ n := by
  induction n generalizing a with
  | zero => simp [read]
  | succ n ih =>
    have low := (m a).toNat_lt
    have high := ih (a + 1)
    rw [read, pow_succ]
    omega

theorem read_add (m : Memory) (n k a : ℕ) : read m a (n + k) = read m a n + 256 ^ n * read m (a + n) k := by
  induction n generalizing a with
  | zero => simp [read]
  | succ n ih =>
    rw [Nat.succ_add, read, read, ih, Nat.add_right_comm a 1 n, ← Nat.add_assoc a n 1, pow_succ]
    ring

theorem read_zero {m : Memory} (n a : ℕ) (zero : ∀ b, a ≤ b → b < a + n → m b = 0) : read m a n = 0 := by
  induction n generalizing a with
  | zero => rfl
  | succ n ih =>
    rw [read, ih (a + 1) fun b low high => zero b (by omega) (by omega), zero a (le_refl a) (by omega)]
    rfl

/-- The bytes of a number in order. -/
theorem read_of_bytes {m : Memory} (n a w : ℕ) (bytes : ∀ j < n, m (a + j) = UInt8.ofNat (w / 256 ^ j)) (fits : w < 256 ^ n) :
    read m a n = w := by
  induction n generalizing a w with
  | zero => simp [read]; omega
  | succ n ih =>
    have rest := div_lt_pow fits
    have first : m a = UInt8.ofNat w := by simpa using bytes 0 (by omega)
    have tail := ih (a + 1) (w / 256) (fun j less => by
      rw [Nat.add_assoc, Nat.add_comm 1, bytes (j + 1) (by omega), pow_succ, Nat.mul_comm, Nat.div_div_eq_div_mul]) rest
    rw [read, tail, first, UInt8.toNat_ofNat']
    omega

/-- Writing what is there changes nothing. -/
theorem write_read (m : Memory) (n a : ℕ) : write m a n (read m a n) = m := by
  induction n generalizing a with
  | zero => rfl
  | succ n ih =>
    have low := (m a).toNat_lt
    have first : UInt8.ofNat (read m a (n + 1)) = m a := by
      refine UInt8.toNat_inj.mp ?_
      rw [UInt8.toNat_ofNat', read]
      omega
    have rest : read m a (n + 1) / 256 = read m (a + 1) n := by
      rw [read]
      omega
    have kept : set m a (m a) = m := by
      funext b
      unfold set
      split
      · next here => rw [here]
      · rfl
    rw [write, first, rest, kept, ih]

/-! ### The bytes of a word -/

def byte (w k : ℕ) : UInt8 := UInt8.ofNat (w / 256 ^ k)

/-- The word with a byte replaced. -/
def set_byte (w k : ℕ) (v : UInt8) : ℕ := w / 256 ^ (k + 1) * 256 ^ (k + 1) + (v.toNat * 256 ^ k + w % 256 ^ k)

theorem set_byte_low_lt (w k : ℕ) (v : UInt8) : v.toNat * 256 ^ k + w % 256 ^ k < 256 ^ (k + 1) := by
  have low : w % 256 ^ k < 256 ^ k := Nat.mod_lt w (Nat.pow_pos (by decide))
  have top : v.toNat + 1 ≤ 256 := v.toNat_lt
  calc v.toNat * 256 ^ k + w % 256 ^ k
      < (v.toNat + 1) * 256 ^ k := by rw [Nat.add_mul, Nat.one_mul]; omega
    _ ≤ 256 * 256 ^ k := Nat.mul_le_mul_right _ top
    _ = 256 ^ (k + 1) := (pow_succ' 256 k).symm

theorem byte_set_byte (w k : ℕ) (v : UInt8) : byte (set_byte w k v) k = v := by
  have low : w % 256 ^ k < 256 ^ k := Nat.mod_lt w (Nat.pow_pos (by decide))
  have sum : set_byte w k v = 256 ^ k * (256 * (w / 256 ^ (k + 1)) + v.toNat) + w % 256 ^ k := by
    rw [set_byte, pow_succ]
    ring
  refine UInt8.toNat_inj.mp ?_
  rw [byte, UInt8.toNat_ofNat', sum, Nat.mul_add_div (Nat.pow_pos (by decide)), Nat.div_eq_of_lt low]
  have := v.toNat_lt
  omega

theorem byte_set_byte_other (w : ℕ) {k j : ℕ} (v : UInt8) (other : j ≠ k) : byte (set_byte w k v) j = byte w j := by
  rcases Nat.lt_or_gt_of_ne other with below | above
  · -- The bytes below are those of the rest at 256 ^ k.
    have rest : set_byte w k v % 256 ^ k = w % 256 ^ k := by
      have sum : set_byte w k v = w % 256 ^ k + 256 ^ k * (w / 256 ^ (k + 1) * 256 + v.toNat) := by
        rw [set_byte, pow_succ]
        ring
      rw [sum, Nat.add_mul_mod_self_left, Nat.mod_mod]
    have digit : ∀ n : ℕ, n / 256 ^ j % 256 = n % 256 ^ k % 256 ^ (j + 1) / 256 ^ j := by
      intro n
      rw [Nat.mod_mod_of_dvd n (Nat.pow_dvd_pow 256 below), pow_succ, Nat.mod_mul_right_div_self]
    refine UInt8.toNat_inj.mp ?_
    rw [byte, byte, UInt8.toNat_ofNat', UInt8.toNat_ofNat', digit, digit, rest]
  · obtain ⟨d, rfl⟩ : ∃ d, j = k + 1 + d := ⟨j - (k + 1), by omega⟩
    have high : set_byte w k v / 256 ^ (k + 1) = w / 256 ^ (k + 1) := by
      rw [set_byte, Nat.mul_comm, Nat.mul_add_div (Nat.pow_pos (by decide)), Nat.div_eq_of_lt (set_byte_low_lt w k v), Nat.add_zero]
    rw [byte, byte, pow_add, ← Nat.div_div_eq_div_mul, ← Nat.div_div_eq_div_mul, high]

end OsC.Bytes
