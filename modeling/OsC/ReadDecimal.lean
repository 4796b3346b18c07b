import OsC.Specifications

/-!
`read_decimal`, the reader of widths and precisions. It gives the first digit
the least weight, and its power of ten overflows behind the tenth digit, so that
it reads a number exactly if its digits are a palindrome of at most nine
(`read_decimal_iff`).
-/
namespace OsC.ReadDecimal
open OsC.Loop OsC.Vga OsC.Printf OsC.PrintfLoop OsC.Conversions OsC.Specifications

/-- The longest run of digits from a position on. -/
def digits_from (str : List UInt8) (i : ℕ) : List UInt8 := (str.drop i).takeWhile is_digit

/-- The number that they spell, most significant first. -/
def number (text : List UInt8) : ℕ := text.foldl (fun n c => 10 * n + (c.toNat - (code '0').toNat)) 0

/-- A result of type `int`, where there is one. -/
def exact_int (exact : ℤ) : Option ℤ := if int exact = exact then some exact else none

/-- The loop of `read_decimal` with operations that have no result where they overflow. -/
def exact_digits (str : List UInt8) (start : ℕ) : ℕ → ℕ → ℤ → ℤ → Option (ℤ × ℕ)
  | 0, _, _, _ => none
  | fuel + 1, i, d, power =>
    let c := str.getD (start + i) 0
    if is_digit c then do
      let product ← exact_int (power * (c.toNat - (code '0').toNat))
      let d ← exact_int (d + product)
      let power ← exact_int (power * 10)
      let _ ← exact_int (i + 1 : ℕ)
      exact_digits str start fuel (i + 1) d power
    else some (d, i)

def exact_decimal (str : List UInt8) (start pos : ℕ) : Option (ℤ × ℕ) := exact_digits str start (str.length + 1) pos 0 1

/-- From `str[start + pos]` on the digits are read as the number that they spell, up to the position behind them, and
    nothing overflows. -/
structure Reads (str : List UInt8) (start pos : ℕ) (s : Console) : Prop where
  reads : read_decimal str start pos s =
    .ok (number (digits_from str (start + pos)), pos + (digits_from str (start + pos)).length) s
  exact : (exact_decimal str start pos).isSome

section
variable {str tail : List UInt8} {start i k n fuel : ℕ} {d x y power : ℤ} {r : ℤ × ℕ} {digits : List (Fin 10)}

/-! ### Exact operations -/

theorem exact_int_of_fits (low : -2 ^ 31 ≤ x) (high : x < 2 ^ 31) : exact_int x = some x :=
  if_pos (Int.bmod_eq_of_le (by omega) (by omega))

theorem of_exact_int (result : exact_int x = some y) : y = x ∧ int x = x ∧ x < 2 ^ 31 := by
  by_cases fits : int x = x
  · rw [exact_int, if_pos fits] at result
    have below : int x < 2 ^ 31 := Int.bmod_lt (by decide)
    exact ⟨(Option.some.inj result).symm, fits, by omega⟩
  · rw [exact_int, if_neg fits] at result
    cases result

/-- A turn at a digit has the results of its four operations. -/
theorem exact_turn (isDigit : is_digit (str.getD (start + i) 0) = true) :
    exact_digits str start (fuel + 1) i d power = some r ↔ ∃ product sum next index,
      exact_int (power * ((str.getD (start + i) 0).toNat - (code '0').toNat)) = some product ∧
        exact_int (d + product) = some sum ∧ exact_int (power * 10) = some next ∧
        exact_int (i + 1 : ℕ) = some index ∧ exact_digits str start fuel (i + 1) sum next = some r := by
  rw [exact_digits, if_pos isDigit]
  constructor
  · intro ran
    obtain ⟨product, isProduct, ran⟩ := Option.bind_eq_some_iff.mp ran
    obtain ⟨sum, isSum, ran⟩ := Option.bind_eq_some_iff.mp ran
    obtain ⟨next, isNext, ran⟩ := Option.bind_eq_some_iff.mp ran
    obtain ⟨index, isIndex, ran⟩ := Option.bind_eq_some_iff.mp ran
    exact ⟨product, sum, next, index, isProduct, isSum, isNext, isIndex, ran⟩
  · rintro ⟨product, sum, next, index, isProduct, isSum, isNext, isIndex, ran⟩
    refine Option.bind_eq_some_iff.mpr ⟨product, isProduct, Option.bind_eq_some_iff.mpr ⟨sum, isSum, ?_⟩⟩
    exact Option.bind_eq_some_iff.mpr ⟨next, isNext, Option.bind_eq_some_iff.mpr ⟨index, isIndex, ran⟩⟩

theorem getD_behind (behind : str.length ≤ i) : str.getD i 0 = 0 := by
  rw [List.getD_eq_getElem?_getD, List.getElem?_eq_none behind]
  rfl

theorem char_getD (inside : i ≤ str.length) (s : Console) : Printf.char str i s = .ok (str.getD i 0) s := by
  by_cases less : i < str.length
  · rw [Printf.char, if_pos less]
    rfl
  · have last : i = str.length := by omega
    rw [Printf.char, if_neg less, if_pos last, getD_behind (by omega)]
    rfl

theorem digit_inside (isDigit : is_digit (str.getD i 0) = true) : i < str.length := by
  by_contra outside
  rw [getD_behind (by omega)] at isDigit
  exact absurd isDigit (by decide)

/-- Where nothing overflows, `read_decimal` computes the exact results. -/
theorem read_digits_exact (inside : start + i ≤ str.length) (ran : exact_digits str start fuel i d power = some r)
    (s : Console) : read_digits str start fuel i d power s = .ok r s := by
  induction fuel generalizing i d power with
  | zero => cases ran
  | succ fuel ih =>
    rw [read_digits, bind_ok (char_getD inside s)]
    by_cases isDigit : is_digit (str.getD (start + i) 0) = true
    · obtain ⟨product, sum, next, _, isProduct, isSum, isNext, -, rest⟩ := (exact_turn isDigit).mp ran
      obtain ⟨rfl, product, -⟩ := of_exact_int isProduct
      obtain ⟨rfl, sum, -⟩ := of_exact_int isSum
      obtain ⟨rfl, next, -⟩ := of_exact_int isNext
      have more := digit_inside isDigit
      rw [if_pos isDigit, product, sum, next]
      exact ih (by omega) rest
    · rw [exact_digits, if_neg isDigit] at ran
      cases ran
      rw [if_neg isDigit]
      rfl

/-! ### Runs of digits -/

theorem digit_byte (x : Fin 10) : (digit x).toNat - (code '0').toNat = x.val := by
  revert x
  decide

theorem digit_injective : Function.Injective digit := by
  intro x y
  revert x y
  decide

theorem digits_from_eq (begins : Begins str i (digits.map digit ++ tail)) (stops : is_digit (tail.headD 0) = false) :
    digits_from str i = digits.map digit := by
  have all : ∀ c ∈ digits.map digit, is_digit c = true := by
    intro c member
    obtain ⟨x, -, rfl⟩ := List.mem_map.mp member
    exact (digit_value x).1
  have none : tail.takeWhile is_digit = [] := by
    cases tail with
    | nil => rfl
    | cons c tail => exact List.takeWhile_cons_of_neg (by simpa using stops)
  rw [digits_from, begins.drop, List.takeWhile_append_of_pos all, none, List.append_nil]

theorem number_digits (digits : List (Fin 10)) : number (digits.map digit) = decimal digits := by
  simp only [number, decimal, List.foldl_map, digit_byte]

theorem palindrome_digits : (digits.map digit).reverse = digits.map digit ↔ digits.reverse = digits := by
  rw [← List.map_reverse]
  exact (List.map_injective_iff.mpr digit_injective).eq_iff

theorem getD_begins {text : List UInt8} (begins : Begins str i text) : str.getD i 0 = text.headD 0 := by
  rw [← begins.drop, List.headD_eq_head?_getD, List.head?_drop, List.getD_eq_getElem?_getD]

/-- Up to nine digits nothing overflows. -/
theorem exact_digits_run (begins : Begins str (start + i) (digits.map digit ++ tail)) (stops : is_digit (tail.headD 0) = false)
    (enough : digits.length < fuel) (short : k + digits.length ≤ 9) (fits : i + digits.length < 2 ^ 31) (below : n < 10 ^ k) :
    exact_digits str start fuel i (n : ℕ) (10 ^ k : ℕ) = some (((n + 10 ^ k * reversed digits : ℕ) : ℤ), i + digits.length) := by
  induction digits generalizing i fuel k n with
  | nil =>
    cases fuel with
    | zero => cases enough
    | succ fuel =>
      have here : str.getD (start + i) 0 = tail.headD 0 := getD_begins begins
      rw [exact_digits, here, stops, if_neg Bool.false_ne_true]
      simp [reversed]
  | cons x digits ih =>
    cases fuel with
    | zero => cases enough
    | succ fuel =>
      simp only [List.length_cons] at enough short fits ⊢
      have here : str.getD (start + i) 0 = digit x := getD_begins begins
      obtain ⟨isDigit, value⟩ := digit_value x
      have next : Begins str (start + (i + 1)) (digits.map digit ++ tail) := begins.next
      have least : 10 ^ k ≤ 10 ^ 8 := Nat.pow_le_pow_right (by decide) (by omega)
      have small := x.isLt
      have power : 10 ^ (k + 1) = 10 ^ k * 10 := Nat.pow_succ 10 k
      have product : 10 ^ k * x.val ≤ 10 ^ k * 9 := Nat.mul_le_mul_left _ (by omega)
      have whole : n + 10 ^ k * reversed (x :: digits) = n + 10 ^ k * x.val + 10 ^ (k + 1) * reversed digits := by
        simp only [reversed, List.map_cons, Nat.ofDigits_cons]
        ring
      have rest : exact_digits str start fuel (i + 1) (n + 10 ^ k * x.val : ℕ) (10 ^ (k + 1) : ℕ) =
          some (((n + 10 ^ k * x.val + 10 ^ (k + 1) * reversed digits : ℕ) : ℤ), i + 1 + digits.length) :=
        ih next (by omega) (by omega) (by omega) (by omega)
      have isProduct : exact_int ((10 ^ k : ℕ) * (x.val : ℤ)) = some ((10 ^ k : ℕ) * (x.val : ℤ)) :=
        exact_int_of_fits (by omega) (by omega)
      have isSum : exact_int ((n : ℤ) + (10 ^ k : ℕ) * (x.val : ℤ)) = some ((n + 10 ^ k * x.val : ℕ) : ℤ) := by
        rw [exact_int_of_fits (by omega) (by omega), Nat.cast_add, Nat.cast_mul]
      have isPower : exact_int ((10 ^ k : ℕ) * 10) = some ((10 ^ (k + 1) : ℕ) : ℤ) := by
        rw [exact_int_of_fits (by omega) (by omega), power, Nat.cast_mul, Nat.cast_ofNat]
      have isIndex : exact_int ((i + 1 : ℕ) : ℤ) = some ((i + 1 : ℕ) : ℤ) := exact_int_of_fits (by omega) (by omega)
      have behind : i + (digits.length + 1) = i + 1 + digits.length := by omega
      rw [whole, behind]
      refine (exact_turn (by rw [here, isDigit])).mpr ⟨_, _, _, _, ?_, isSum, isPower, isIndex, rest⟩
      rw [here, value]
      exact isProduct

/-- Each digit takes a power of ten, and the tenth has none. -/
theorem exact_digits_short (begins : Begins str (start + i) (digits.map digit ++ tail)) (least : k ≤ 9) (fits : i < 2 ^ 31)
    (ran : exact_digits str start fuel i d (10 ^ k : ℕ) = some r) : k + digits.length ≤ 9 ∧ i + digits.length < 2 ^ 31 := by
  induction digits generalizing i fuel k d with
  | nil => exact ⟨least, fits⟩
  | cons x digits ih =>
    cases fuel with
    | zero => cases ran
    | succ fuel =>
      have here : str.getD (start + i) 0 = digit x := getD_begins begins
      have next : Begins str (start + (i + 1)) (digits.map digit ++ tail) := begins.next
      obtain ⟨_, _, power, index, -, -, isPower, isIndex, rest⟩ := (exact_turn (by rw [here]; exact (digit_value x).1)).mp ran
      obtain ⟨rfl, -, small⟩ := of_exact_int isPower
      obtain ⟨-, -, inside⟩ := of_exact_int isIndex
      have grown : ((10 ^ k : ℕ) : ℤ) * 10 = (10 ^ (k + 1) : ℕ) := by
        rw [Nat.pow_succ, Nat.cast_mul, Nat.cast_ofNat]
      rw [grown] at small rest
      have more : k + 1 ≤ 9 := by
        by_contra many
        have large : 10 ^ 10 ≤ 10 ^ (k + 1) := Nat.pow_le_pow_right (by decide) (by omega)
        omega
      have both := ih next more (by omega) rest
      simp only [List.length_cons]
      omega

theorem exact_decimal_run {pos : ℕ} (begins : Begins str (start + pos) (digits.map digit ++ tail))
    (stops : is_digit (tail.headD 0) = false) (short : digits.length ≤ 9) (fits : pos + digits.length < 2 ^ 31) :
    exact_decimal str start pos = some ((reversed digits : ℤ), pos + digits.length) := by
  have length := begins.length
  simp only [List.length_append, List.length_map] at length
  have ran : exact_digits str start (str.length + 1) pos (0 : ℕ) (10 ^ 0 : ℕ) =
      some (((0 + 10 ^ 0 * reversed digits : ℕ) : ℤ), pos + digits.length) :=
    exact_digits_run begins stops (by omega) (by omega) fits (by decide)
  rw [Nat.pow_zero, Nat.one_mul, Nat.zero_add] at ran
  exact ran

/-- A number is read exactly if its digits are at most nine and a palindrome, and end where an `int` can count. -/
theorem read_decimal_iff {pos : ℕ} (inside : start + pos ≤ str.length) (small : pos < 2 ^ 31) (s : Console) :
    Reads str start pos s ↔ (digits_from str (start + pos)).length ≤ 9 ∧
      (digits_from str (start + pos)).reverse = digits_from str (start + pos) ∧
      pos + (digits_from str (start + pos)).length < 2 ^ 31 := by
  obtain ⟨digits, tail, split, stops⟩ := split_digits (str.drop (start + pos))
  have begins : Begins str (start + pos) (digits.map digit ++ tail) := ⟨inside, split⟩
  have run := digits_from_eq begins stops
  rw [run, palindrome_digits, List.length_map, ← reversed_eq_iff]
  constructor
  · rintro ⟨reads, exact⟩
    obtain ⟨r, ran⟩ := Option.isSome_iff_exists.mp exact
    obtain ⟨short, within⟩ : 0 + digits.length ≤ 9 ∧ pos + digits.length < 2 ^ 31 :=
      exact_digits_short begins (Nat.zero_le 9) small ran
    rw [Nat.zero_add] at short
    have result := read_digits_exact inside (exact_decimal_run begins stops short within) s
    rw [run, number_digits, read_decimal, result] at reads
    have same : (reversed digits : ℤ) = decimal digits := by
      injection reads with pair
      exact congrArg Prod.fst pair
    exact ⟨short, Int.ofNat_inj.mp same, within⟩
  · rintro ⟨short, same, within⟩
    have ran := exact_decimal_run begins stops short within
    refine ⟨?_, Option.isSome_of_eq_some ran⟩
    rw [run, number_digits, List.length_map, ← same]
    exact read_digits_exact inside ran s

end

/-- The text behind a percent sign. -/
def wide (text : List UInt8) : List UInt8 := code '%' :: text ++ [code 'd']

theorem read_decimal_iff_palindrome : Reads (wide [code '1', code '2', code '1']) 1 0 ⟨opened fun _ => 0, 0, []⟩ ↔
    (digits_from (wide [code '1', code '2', code '1']) (1 + 0)).length ≤ 9 ∧
      (digits_from (wide [code '1', code '2', code '1']) (1 + 0)).reverse =
        digits_from (wide [code '1', code '2', code '1']) (1 + 0) ∧
      0 + (digits_from (wide [code '1', code '2', code '1']) (1 + 0)).length < 2 ^ 31 :=
  read_decimal_iff (by decide) (by decide) _

/-- The digits of 12 are read as 21. -/
theorem twelve_reversed (s : Console) : read_decimal (wide [code '1', code '2']) 1 0 s = .ok (21, 2) s := rfl

theorem twelve_misread : number (digits_from (wide [code '1', code '2']) (1 + 0)) = 12 ∧
    ∀ s, ¬ Reads (wide [code '1', code '2']) 1 0 s := by
  refine ⟨by decide, fun s read => ?_⟩
  have result := read.reads
  rw [twelve_reversed] at result
  injection result with pair
  exact absurd (congrArg Prod.fst pair) (by decide)

/-- Behind ten digits the power of ten is no `int`. -/
example : exact_decimal (List.replicate 10 (code '1')) 0 0 = none := by decide +kernel

end OsC.ReadDecimal
