import OsC.PrintfLoop
import Mathlib.Data.Nat.Digits.Defs
import Mathlib.Tactic.Ring

/-!
What the parsers of a conversion do with any text. `get_format` accepts exactly the
texts that begin with a `Shape`; it reads behind the NUL of a string that ends
with the point of a precision, and otherwise an assertion fails
(`get_format_cases`).
-/
namespace OsC.Conversions
open OsC.Loop OsC.Vga OsC.Printf OsC.PrintfLoop

/-! ### Parts of a conversion -/

instance nonzero_10 : NeZero 10 := ⟨by decide⟩

inductive Flag
  | none | minus | plus | blank | hash | zero
  deriving DecidableEq, Repr

def Flag.chars : Flag → List UInt8
  | .none => []
  | .minus => [code '-']
  | .plus => [code '+']
  | .blank => [code ' ']
  | .hash => [code '#']
  | .zero => [code '0']

inductive Width
  | literal (digits : List (Fin 10))
  | star
  deriving DecidableEq, Repr

def digit (d : Fin 10) : UInt8 := UInt8.ofNat (48 + d)

def Width.chars : Width → List UInt8
  | .literal digits => digits.map digit
  | .star => [code '*']

inductive Modifier
  | none | hh | h | l | ll | j | z | t
  deriving DecidableEq, Repr

def Modifier.chars : Modifier → List UInt8
  | .none => []
  | .hh => [code 'h', code 'h']
  | .h => [code 'h']
  | .l => [code 'l']
  | .ll => [code 'l', code 'l']
  | .j => [code 'j']
  | .z => [code 'z']
  | .t => [code 't']

/-- A length modifier, also that of floating arguments. -/
inductive Length
  | modifier (m : Modifier)
  | long_double
  deriving DecidableEq, Repr

def Length.chars : Length → List UInt8
  | .modifier m => m.chars
  | .long_double => [code 'L']

/-! ### What the parsers store -/

/-- The flags that `get_flags` stores. -/
def Flag.bits : Flag → ℕ
  | .none => NO_FLAGS
  | .minus => LEFT_JUSTIFY
  | .plus => ALWAYS_SHOW_SIGN
  | .blank => ALWAYS_SHOW_SPACE
  | .hash => ALWAYS_SHOW_0x_OR_DECIMAL_POINT
  | .zero => LEFT_PAD_WITH_ZEROS

/-- The value of a literal width, whose first digit counts least. -/
def reversed (digits : List (Fin 10)) : ℕ := Nat.ofDigits 10 (digits.map Fin.val)

/-- The width that `get_width` stores. -/
def Width.value : Width → ℤ
  | .literal digits => int (reversed digits)
  | .star => FORMAT_ARG_SPECIFIED

/-- The type of a modifier. -/
def Modifier.type : Modifier → types
  | .none => .INT
  | .hh => .S_CHAR
  | .h => .SHORT_INT
  | .l => .LONG_INT
  | .ll => .LONG_LONG_INT
  | .j => .INTMAX_T
  | .z => .SIZE_T
  | .t => .PTRDIFF_T

def Length.type : Length → types
  | .modifier m => m.type
  | .long_double => .LONG_DOUBLE

def signed_letters : List UInt8 := [code 'd', code 'i']
def unsigned_letters : List UInt8 := [code 'u', code 'o', code 'x', code 'X']
def floating_letters : List UInt8 := [code 'f', code 'F', code 'e', code 'E', code 'g', code 'G', code 'a', code 'A']

/-- The types of a length modifier that may stand before a specifier. -/
def Accepts (type : types) (c : UInt8) : Prop :=
  c ∈ signed_letters ∧ type ≠ .LONG_DOUBLE ∨ c ∈ unsigned_letters ∨
  c ∈ floating_letters ∧ (type = .LONG_DOUBLE ∨ type = .INT) ∨
  c ∈ [code 'c', code 's'] ∧ (type = .LONG_INT ∨ type = .INT) ∨ c = code 'p' ∧ type = .INT

instance (type : types) (c : UInt8) : Decidable (Accepts type c) := inferInstanceAs (Decidable (_ ∨ _))

/-- The type of the argument of a specifier. -/
def argument_type (type : types) (c : UInt8) : types :=
  if c ∈ floating_letters then if type = .INT then .DOUBLE else type
  else if c = code 'c' then if type = .LONG_INT then .WINT_T else type
  else if c = code 's' then if type = .INT then .CHAR else .WCHAR_T
  else if c = code 'p' then .VOID
  else type

/-- A format with what the last parser stores of a modifier's type and a specifier. -/
def specified (f : printf_format) (type : types) (c : UInt8) : printf_format :=
  { f with
    type := argument_type type c
    is_unsigned := decide (c ∈ unsigned_letters)
    is_pointer := decide (c ∈ [code 's', code 'p'])
    specifier := c }

/-! ### Reading a text -/

/-- A text begins at a position of a string, at its NUL at the latest. -/
structure Begins (str : List UInt8) (start : ℕ) (text : List UInt8) : Prop where
  inside : start ≤ str.length
  drop : str.drop start = text

section
variable {str text front back tail : List UInt8} {start k : ℕ} {s : Console} {c x : UInt8}

theorem begins_append (before text : List UInt8) : Begins (before ++ text) before.length text :=
  ⟨by simp, List.drop_left⟩

theorem Begins.length (begins : Begins str start text) : start + text.length = str.length := by
  have inside := begins.inside
  rw [← begins.drop, List.length_drop]
  omega

theorem Begins.skip (begins : Begins str start (front ++ back)) : Begins str (start + front.length) back := by
  have length := begins.length
  rw [List.length_append] at length
  refine ⟨by omega, ?_⟩
  rw [← List.drop_drop, begins.drop, List.drop_left]

theorem Begins.next (begins : Begins str start (c :: tail)) : Begins str (start + 1) tail := by
  have split : Begins str start ([c] ++ tail) := begins
  exact split.skip

/-- The characters of the text can be read, and the NUL behind them. -/
theorem Begins.char (begins : Begins str start text) (within : k ≤ text.length) (s : Console) :
    char str (start + k) s = .ok (text.getD k 0) s := by
  have length := begins.length
  by_cases less : k < text.length
  · rw [Printf.char, if_pos (by omega)]
    simp [List.getD_eq_getElem?_getD, ← begins.drop]
    rfl
  · rw [Printf.char, if_neg (by omega), if_pos (by omega), List.getD_eq_getElem?_getD, List.getElem?_eq_none (by omega)]
    rfl

theorem Begins.first (begins : Begins str start text) (s : Console) : Printf.char str start s = .ok (text.headD 0) s := by
  have read := begins.char (Nat.zero_le _) s
  cases text with
  | nil => exact read
  | cons c tail => exact read

theorem Begins.second (begins : Begins str start (c :: tail)) (s : Console) :
    Printf.char str (start + 1) s = .ok (tail.headD 0) s := begins.next.first s

theorem behind_percent (before text : List UInt8) : Begins (before ++ code '%' :: text) (before.length + 1) text :=
  (begins_append before _).next

/-- A turn at a percent sign parses the conversion, takes its arguments and prints it. -/
theorem turn_format (caller : Caller) (before : List UInt8) (single : text.headD 0 ≠ code '%') (s : Console) :
    printf_turn caller (before ++ code '%' :: text) before.length s = (do
      let (n, format) ← get_format default (before ++ code '%' :: text) (before.length + 1)
      let width ← take_argument caller format.width
      let precision ← take_argument caller format.precision
      print_conversion caller { format with width, precision }
      pure (before.length + 1 + n)) { s with trace := .conversion :: s.trace } := by
  have second := (begins_append before (code '%' :: text)).second s
  rw [printf_turn]
  refine (bind_ok (char_at before (code '%') text s) _).trans ?_
  rw [if_neg (by decide), if_pos rfl]
  refine (bind_ok second _).trans ?_
  rw [if_pos single]
  exact bind_ok (show record .conversion s = .ok () { s with trace := .conversion :: s.trace } from rfl) _

/-! ### Flags -/

/-- A character that is no flag. -/
abbrev NoFlag (c : UInt8) : Prop := c ∉ [code '-', code '+', code ' ', code '#', code '0']

theorem get_flags_run (f : printf_format) (flag : Flag) (begins : Begins str start (flag.chars ++ tail))
    (free : flag = .none → NoFlag (tail.headD 0)) (s : Console) :
    get_flags f str start s = .ok (flag.chars.length, { f with flags := flag.bits }) s := by
  rw [get_flags, bind_ok (begins.first s)]
  cases flag with
  | none =>
    have other := free rfl
    simp [NoFlag] at other
    simp [Flag.chars, other]
    rfl
  | minus => rfl
  | plus => rfl
  | blank => rfl
  | hash => rfl
  | zero => rfl

/-- At most one flag is taken from a text. -/
theorem split_flag (text : List UInt8) : ∃ flag tail, text = Flag.chars flag ++ tail ∧ (flag = .none → NoFlag (tail.headD 0)) := by
  by_cases free : NoFlag (text.headD 0)
  · exact ⟨.none, text, rfl, fun _ => free⟩
  · cases text with
    | nil => exact absurd (by decide) free
    | cons c tail =>
      have flagged : c ∈ [code '-', code '+', code ' ', code '#', code '0'] := not_not.mp free
      simp only [List.mem_cons, List.not_mem_nil, or_false] at flagged
      rcases flagged with rfl | rfl | rfl | rfl | rfl
      · exact ⟨.minus, tail, rfl, nofun⟩
      · exact ⟨.plus, tail, rfl, nofun⟩
      · exact ⟨.blank, tail, rfl, nofun⟩
      · exact ⟨.hash, tail, rfl, nofun⟩
      · exact ⟨.zero, tail, rfl, nofun⟩

/-! ### Digits -/

theorem digit_value (d : Fin 10) : is_digit (digit d) = true ∧ ((digit d).toNat : ℤ) - (code '0').toNat = (d : ℕ) := by
  revert d
  decide

theorem exists_digit (isDigit : is_digit c = true) : ∃ d, c = digit d := by
  simp only [is_digit, Bool.and_eq_true, decide_eq_true_eq, UInt8.le_iff_toNat_le] at isDigit
  have low : 48 ≤ c.toNat := isDigit.1
  have high : c.toNat ≤ 57 := isDigit.2
  refine ⟨⟨c.toNat - 48, by omega⟩, ?_⟩
  have same : 48 + (c.toNat - 48) = c.toNat := by omega
  rw [digit, same, UInt8.ofNat_toNat]

theorem split_digits (text : List UInt8) :
    ∃ (digits : List (Fin 10)) (tail : List UInt8), text = digits.map digit ++ tail ∧ is_digit (tail.headD 0) = false := by
  induction text with
  | nil => exact ⟨[], [], rfl, rfl⟩
  | cons c text ih =>
    cases isDigit : is_digit c with
    | false => exact ⟨[], c :: text, rfl, isDigit⟩
    | true =>
      obtain ⟨d, rfl⟩ := exists_digit isDigit
      obtain ⟨digits, tail, rfl, ends⟩ := ih
      exact ⟨d :: digits, tail, rfl, ends⟩

theorem int_mul_add (d p x : ℤ) : int (int d + int (int p * x)) = int (d + p * x) := by
  simp [int, Int.bmod_add_bmod, Int.add_bmod_bmod, Int.bmod_mul_bmod]

theorem read_digits_run (digits : List (Fin 10)) (i fuel : ℕ) (d p : ℤ)
    (begins : Begins str (start + i) (digits.map digit ++ tail)) (ends : is_digit (tail.headD 0) = false)
    (enough : digits.length < fuel) (s : Console) :
    read_digits str start fuel i (int d) (int p) s = .ok (int (d + p * reversed digits), i + digits.length) s := by
  induction digits generalizing i fuel d p with
  | nil =>
    obtain ⟨fuel, rfl⟩ : ∃ n, fuel = n + 1 := ⟨fuel - 1, by omega⟩
    have read : Printf.char str (start + i) s = .ok (tail.headD 0) s := begins.first s
    rw [read_digits, bind_ok read]
    simp only [ends, Bool.false_eq_true, if_false]
    simp [reversed]
    rfl
  | cons x digits ih =>
    obtain ⟨fuel, rfl⟩ : ∃ n, fuel = n + 1 := ⟨fuel - 1, by omega⟩
    obtain ⟨isDigit, value⟩ := digit_value x
    have read : Printf.char str (start + i) s = .ok (digit x) s := begins.first s
    have next : Begins str (start + (i + 1)) (digits.map digit ++ tail) := begins.next
    have power : int (int p * 10) = int (p * 10) := Int.bmod_mul_bmod
    have sum : d + p * reversed (x :: digits) = d + p * (x : ℕ) + p * 10 * reversed digits := by
      simp only [reversed, List.map_cons, Nat.ofDigits_cons]
      push_cast
      ring
    rw [read_digits, bind_ok read, isDigit, if_pos rfl, value, int_mul_add, power,
      ih (i + 1) fuel _ _ next (by simp at enough; omega), sum, List.length_cons, Nat.add_assoc, Nat.add_comm 1]

/-! ### Width and precision -/

/-- The text behind a width does not go on with it. -/
def Width.Ends (tail : List UInt8) : Width → Prop
  | .literal digits => is_digit (tail.headD 0) = false ∧ (digits = [] → tail.headD 0 ≠ code '*')
  | .star => True

theorem digit_not_star (d : Fin 10) : digit d ≠ code '*' := by
  revert d
  decide

theorem get_width_run (f : printf_format) (width : Width) (begins : Begins str start (width.chars ++ tail))
    (ends : width.Ends tail) (s : Console) :
    get_width f str start s = .ok (width.chars.length, { f with width := width.value }) s := by
  rw [get_width, bind_ok (begins.first s)]
  cases width with
  | star => rfl
  | literal digits =>
    obtain ⟨stops, notStar⟩ := ends
    have unstarred : ((Width.literal digits).chars ++ tail).headD 0 ≠ code '*' := by
      cases digits with
      | nil => exact notStar rfl
      | cons x digits => exact digit_not_star x
    have within : digits.length < str.length + 1 := by
      have length := begins.length
      simp [Width.chars] at length
      omega
    have ran : read_decimal str start 0 s = .ok (int (0 + 1 * reversed digits), 0 + digits.length) s :=
      read_digits_run digits 0 (str.length + 1) 0 1 begins stops within s
    rw [if_neg unstarred, bind_ok ran]
    simp [Width.chars, Width.value]
    rfl

theorem split_width (text : List UInt8) : ∃ width tail, text = Width.chars width ++ tail ∧ width.Ends tail := by
  by_cases starred : text.headD 0 = code '*'
  · cases text with
    | nil => exact absurd starred (by decide)
    | cons c tail =>
      obtain rfl : c = code '*' := starred
      exact ⟨.star, tail, rfl, trivial⟩
  · obtain ⟨digits, tail, split, stops⟩ := split_digits text
    refine ⟨.literal digits, tail, split, stops, ?_⟩
    rintro rfl
    rw [split] at starred
    exact starred

theorem get_precision_none (f : printf_format) (begins : Begins str start text) (notPoint : text.headD 0 ≠ code '.') (s : Console) :
    get_precision f str start s = .ok (0, { f with precision := NONE }) s := by
  rw [get_precision, bind_ok (begins.first s), if_pos notPoint]
  rfl

/-- The character behind the point is passed over. -/
theorem get_precision_point (f : printf_format) (digits : List (Fin 10))
    (begins : Begins str start (code '.' :: x :: (digits.map digit ++ tail))) (stops : is_digit (tail.headD 0) = false) (s : Console) :
    get_precision f str start s = .ok (1 + digits.length, { f with precision := int (reversed digits) }) s := by
  have within : digits.length < str.length + 1 := by
    have length := begins.length
    simp at length
    omega
  have ran : read_decimal str (start + 1) 1 s = .ok (int (0 + 1 * reversed digits), 1 + digits.length) s :=
    read_digits_run digits 1 (str.length + 1) 0 1 begins.next.next stops within s
  rw [get_precision, bind_ok (begins.first s), if_neg (by simp), bind_ok (begins.second s), bind_ok ran]
  simp
  rfl

/-- A point at the end of the string is followed by the NUL and by what lies behind it. -/
theorem get_precision_cut (f : printf_format) (begins : Begins str start [code '.']) (s : Console) :
    get_precision f str start s = .error (.index (str.length + 1)) s := by
  have length : start + 1 = str.length := begins.length
  have behind : Printf.char str (start + 1 + 1) s = .error (.index (str.length + 1)) s := by
    rw [length, Printf.char, if_neg (by omega), if_neg (by omega)]
    rfl
  have read : read_decimal str (start + 1) 1 s = .error (.index (str.length + 1)) s := by
    rw [read_decimal, read_digits, bind_error behind]
  rw [get_precision, bind_ok (begins.first s), if_neg (by simp), bind_ok (begins.second s), bind_error read]

/-! ### Length and specifier -/

/-- The text behind a length modifier does not go on with it. -/
def Length.Ends (tail : List UInt8) : Length → Prop
  | .modifier .none => tail.headD 0 ∉ [code 'h', code 'l', code 'j', code 'z', code 't', code 'L']
  | .modifier .h => tail.headD 0 ≠ code 'h'
  | .modifier .l => tail.headD 0 ≠ code 'l'
  | _ => True

theorem get_length_run (length : Length) (begins : Begins str start (length.chars ++ tail)) (ends : length.Ends tail) (s : Console) :
    get_length str start s = .ok (length.chars.length, length.type) s := by
  rw [get_length, bind_ok (begins.first s)]
  cases length with
  | long_double => rfl
  | modifier m =>
    cases m with
    | none =>
      simp [Length.Ends] at ends
      simp [Length.chars, Modifier.chars, ends]
      rfl
    | h =>
      have other : tail.headD 0 ≠ code 'h' := ends
      refine (bind_ok (begins.second s) _).trans ?_
      show (if tail.headD 0 = code 'h' then _ else _ : Print (ℕ × types)) s = _
      rw [if_neg other]
      rfl
    | l =>
      have other : tail.headD 0 ≠ code 'l' := ends
      refine (bind_ok (begins.second s) _).trans ?_
      show (if tail.headD 0 = code 'l' then _ else _ : Print (ℕ × types)) s = _
      rw [if_neg other]
      rfl
    | hh =>
      refine (bind_ok (begins.second s) _).trans ?_
      rfl
    | ll =>
      refine (bind_ok (begins.second s) _).trans ?_
      rfl
    | j => rfl
    | z => rfl
    | t => rfl

theorem split_length (text : List UInt8) : ∃ length tail, text = Length.chars length ++ tail ∧ length.Ends tail := by
  by_cases plain : text.headD 0 ∉ [code 'h', code 'l', code 'j', code 'z', code 't', code 'L']
  · exact ⟨.modifier .none, text, rfl, plain⟩
  · cases text with
    | nil => exact absurd (by decide) plain
    | cons c tail =>
      have modifies : c ∈ [code 'h', code 'l', code 'j', code 'z', code 't', code 'L'] := not_not.mp plain
      simp only [List.mem_cons, List.not_mem_nil, or_false] at modifies
      rcases modifies with rfl | rfl | rfl | rfl | rfl | rfl
      · by_cases twice : tail.headD 0 = code 'h'
        · cases tail with
          | nil => exact absurd twice (by decide)
          | cons c tail =>
            obtain rfl : c = code 'h' := twice
            exact ⟨.modifier .hh, tail, rfl, trivial⟩
        · exact ⟨.modifier .h, tail, rfl, twice⟩
      · by_cases twice : tail.headD 0 = code 'l'
        · cases tail with
          | nil => exact absurd twice (by decide)
          | cons c tail =>
            obtain rfl : c = code 'l' := twice
            exact ⟨.modifier .ll, tail, rfl, trivial⟩
        · exact ⟨.modifier .l, tail, rfl, twice⟩
      · exact ⟨.modifier .j, tail, rfl, trivial⟩
      · exact ⟨.modifier .z, tail, rfl, trivial⟩
      · exact ⟨.modifier .t, tail, rfl, trivial⟩
      · exact ⟨.long_double, tail, rfl, trivial⟩

theorem accepts_letter {type : types} (accepts : Accepts type c) :
    c ∈ signed_letters ++ unsigned_letters ++ floating_letters ++ [code 'c', code 's', code 'p'] := by
  rcases accepts with ⟨letter, -⟩ | letter | ⟨letter, -⟩ | ⟨letter, -⟩ | ⟨rfl, -⟩
  · simp [letter]
  · simp [letter]
  · simp [letter]
  · simp at letter
    simp
    tauto
  · simp

theorem get_specifier_run (f : printf_format) (length : Length) (begins : Begins str start (length.chars ++ tail))
    (ends : length.Ends tail) (accepts : Accepts length.type (tail.headD 0)) (s : Console) :
    get_length_and_specifier f str start s = .ok (length.chars.length, specified f length.type (tail.headD 0)) s := by
  rw [get_length_and_specifier, bind_ok (get_length_run length begins ends s)]
  dsimp only
  rw [bind_ok (begins.skip.first s)]
  generalize length.type = type at *
  generalize tail.headD 0 = c at *
  rcases accepts with ⟨letter, fits⟩ | letter | ⟨letter, fits⟩ | ⟨letter, fits⟩ | ⟨rfl, fits⟩
  · simp only [signed_letters, List.mem_cons, List.not_mem_nil, or_false] at letter
    rcases letter with rfl | rfl
    · simp [assert, fits]
      rfl
    · simp [assert, fits]
      rfl
  · simp only [unsigned_letters, List.mem_cons, List.not_mem_nil, or_false] at letter
    rcases letter with rfl | rfl | rfl | rfl <;> rfl
  · simp only [floating_letters, List.mem_cons, List.not_mem_nil, or_false] at letter
    rcases fits with rfl | rfl
    · rcases letter with rfl | rfl | rfl | rfl | rfl | rfl | rfl | rfl <;> rfl
    · rcases letter with rfl | rfl | rfl | rfl | rfl | rfl | rfl | rfl <;> rfl
  · simp only [List.mem_cons, List.not_mem_nil, or_false] at letter
    rcases fits with rfl | rfl
    · rcases letter with rfl | rfl <;> rfl
    · rcases letter with rfl | rfl <;> rfl
  · rw [fits]
    rfl

theorem get_specifier_rejects (f : printf_format) (length : Length) (begins : Begins str start (length.chars ++ tail))
    (ends : length.Ends tail) (rejects : ¬ Accepts length.type (tail.headD 0)) (s : Console) :
    ∃ message, get_length_and_specifier f str start s = .error (.assertion message) s := by
  rw [get_length_and_specifier, bind_ok (get_length_run length begins ends s)]
  dsimp only
  rw [bind_ok (begins.skip.first s)]
  generalize length.type = type at *
  generalize tail.headD 0 = c at *
  by_cases isSigned : c = code 'd' ∨ c = code 'i'
  · obtain rfl : type = .LONG_DOUBLE := by_contra fun other => rejects (.inl ⟨by simpa [signed_letters] using isSigned, other⟩)
    rw [if_pos isSigned]
    exact ⟨_, rfl⟩
  rw [if_neg isSigned]
  by_cases isUnsigned : c = code 'u' ∨ c = code 'o' ∨ c = code 'x' ∨ c = code 'X'
  · exact absurd (.inr (.inl (by simpa [unsigned_letters] using isUnsigned))) rejects
  rw [if_neg isUnsigned]
  by_cases isFloating : c ∈ [code 'f', code 'F', code 'e', code 'E', code 'g', code 'G', code 'a', code 'A']
  · have other : ¬ (type = .LONG_DOUBLE ∨ type = .INT) := fun fits => rejects (.inr (.inr (.inl ⟨isFloating, fits⟩)))
    rw [if_pos isFloating, decide_eq_false other]
    exact ⟨_, rfl⟩
  rw [if_neg isFloating]
  by_cases isChar : c = code 'c'
  · have other : ¬ (type = .LONG_INT ∨ type = .INT) :=
      fun fits => rejects (.inr (.inr (.inr (.inl ⟨by simp [isChar], fits⟩))))
    rw [if_pos isChar, decide_eq_false other]
    exact ⟨_, rfl⟩
  rw [if_neg isChar]
  by_cases isString : c = code 's'
  · have other : ¬ (type = .LONG_INT ∨ type = .INT) :=
      fun fits => rejects (.inr (.inr (.inr (.inl ⟨by simp [isString], fits⟩))))
    rw [if_pos isString, decide_eq_false other]
    exact ⟨_, rfl⟩
  rw [if_neg isString]
  by_cases isPointer : c = code 'p'
  · have other : ¬ type = .INT := fun fits => rejects (.inr (.inr (.inr (.inr ⟨isPointer, fits⟩))))
    rw [if_pos isPointer, decide_eq_false other]
    exact ⟨_, rfl⟩
  rw [if_neg isPointer]
  by_cases isCount : c = code 'n'
  · rw [if_pos isCount]
    by_cases long : type = .LONG_DOUBLE
    · rw [decide_eq_false (not_not.mpr long)]
      exact ⟨_, rfl⟩
    · rw [decide_eq_true long]
      exact ⟨_, rfl⟩
  · rw [if_neg isCount]
    exact ⟨_, rfl⟩

/-! ### Whole conversions -/

/-- A conversion that the parsers accept. The point is that of an empty precision. -/
structure Shape where
  flag : Flag
  width : Width
  point : Bool
  length : Length
  letter : UInt8
  unambiguous : flag = .none → ∀ digits, width ≠ .literal (0 :: digits)
  accepted : Accepts length.type letter

def Shape.point_chars (v : Shape) : List UInt8 := if v.point then [code '.'] else []

def Shape.chars (v : Shape) : List UInt8 :=
  v.flag.chars ++ (v.width.chars ++ (v.point_chars ++ (v.length.chars ++ [v.letter])))

/-- Behind an empty precision the parser passes over one character before it looks for digits. -/
def Shape.Ends (tail : List UInt8) (v : Shape) : Prop :=
  v.point = true → v.length = .modifier .none → is_digit (tail.headD 0) = false

/-- The format that the parsers find. -/
def Shape.parsed (v : Shape) : printf_format :=
  specified ⟨v.flag.bits, v.width.value, NONE, default, default, default, default⟩ v.length.type v.letter

/-- Each part of a conversion is ended by the next one. -/
theorem letter_ends {type : types} (accepts : Accepts type c) : is_digit c = false ∧ c ≠ code '*' ∧ c ≠ code '.' ∧ NoFlag c ∧
    c ∉ [code 'h', code 'l', code 'j', code 'z', code 't', code 'L'] := by
  have all : ∀ c ∈ signed_letters ++ unsigned_letters ++ floating_letters ++ [code 'c', code 's', code 'p'],
      is_digit c = false ∧ c ≠ code '*' ∧ c ≠ code '.' ∧ NoFlag c ∧
        c ∉ [code 'h', code 'l', code 'j', code 'z', code 't', code 'L'] := by decide +kernel
  exact all c (accepts_letter accepts)

theorem length_ends {type : types} (length : Length) (accepts : Accepts type c) (tail : List UInt8) :
    length.Ends (c :: tail) := by
  obtain ⟨-, -, -, -, other⟩ := letter_ends accepts
  cases length with
  | long_double => trivial
  | modifier m =>
    simp at other
    cases m with
    | none =>
      simp [Length.Ends]
      exact other
    | h => exact other.1
    | l => exact other.2.1
    | hh => trivial
    | ll => trivial
    | j => trivial
    | z => trivial
    | t => trivial

/-- The first character of a length modifier and a specifier. -/
theorem length_first {type : types} (length : Length) (accepts : Accepts type c) (tail : List UInt8) :
    ∃ d rest, length.chars ++ c :: tail = d :: rest ∧ is_digit d = false ∧ d ≠ code '*' ∧ d ≠ code '.' ∧ NoFlag d := by
  cases length with
  | long_double => exact ⟨_, _, rfl, by decide, by decide, by decide, by decide⟩
  | modifier m =>
    cases m with
    | none =>
      obtain ⟨notDigit, notStar, notPoint, noFlag, -⟩ := letter_ends accepts
      exact ⟨c, tail, rfl, notDigit, notStar, notPoint, noFlag⟩
    | hh => exact ⟨_, _, rfl, by decide, by decide, by decide, by decide⟩
    | h => exact ⟨_, _, rfl, by decide, by decide, by decide, by decide⟩
    | l => exact ⟨_, _, rfl, by decide, by decide, by decide, by decide⟩
    | ll => exact ⟨_, _, rfl, by decide, by decide, by decide, by decide⟩
    | j => exact ⟨_, _, rfl, by decide, by decide, by decide, by decide⟩
    | z => exact ⟨_, _, rfl, by decide, by decide, by decide, by decide⟩
    | t => exact ⟨_, _, rfl, by decide, by decide, by decide, by decide⟩

theorem flag_percent (flag : Flag) : ∀ c ∈ flag.chars, c ≠ code '%' := by
  cases flag <;> simp [Flag.chars] <;> decide

theorem width_percent (width : Width) : ∀ c ∈ width.chars, c ≠ code '%' := by
  have ofDigit : ∀ d : Fin 10, digit d ≠ code '%' := by decide
  cases width with
  | star => simp [Width.chars]; decide
  | literal digits => simpa [Width.chars] using fun d _ => ofDigit d

/-- No percent sign stands in a conversion. -/
theorem shape_percent (v : Shape) : ∀ c ∈ v.chars, c ≠ code '%' := by
  intro c member
  simp only [Shape.chars, Shape.point_chars, List.mem_append, List.mem_singleton] at member
  rcases member with flagged | wide | pointed | modified | rfl
  · exact flag_percent v.flag c flagged
  · exact width_percent v.width c wide
  · split at pointed
    · rw [List.mem_singleton.mp pointed]
      decide
    · simp at pointed
  · cases length : v.length with
    | long_double =>
      rw [length] at modified
      rw [List.mem_singleton.mp modified]
      decide
    | modifier m =>
      rw [length] at modified
      cases m <;> simp [Length.chars, Modifier.chars] at modified <;> subst modified <;> decide
  · rintro same
    have accepted := accepts_letter v.accepted
    rw [same] at accepted
    exact absurd accepted (by decide)

theorem shape_length (v : Shape) : 0 < v.chars.length := by simp [Shape.chars]

theorem shape_begins (v : Shape) (rest : List UInt8) : (v.chars ++ rest).headD 0 ≠ code '%' := by
  obtain ⟨c, chars, split⟩ := List.exists_cons_of_length_pos (shape_length v)
  have first := shape_percent v c (by rw [split]; exact List.mem_cons_self)
  rw [split]
  exact first

/-- What a conversion has behind its width. -/
def Shape.rest (v : Shape) (tail : List UInt8) : List UInt8 := v.point_chars ++ (v.length.chars ++ v.letter :: tail)

theorem Shape.split (v : Shape) (tail : List UInt8) : v.chars ++ tail = v.flag.chars ++ (v.width.chars ++ v.rest tail) := by
  simp [Shape.chars, Shape.rest]

theorem rest_first (v : Shape) (tail : List UInt8) :
    is_digit ((v.rest tail).headD 0) = false ∧ (v.rest tail).headD 0 ≠ code '*' ∧ NoFlag ((v.rest tail).headD 0) := by
  obtain ⟨d, rest, split, notDigit, notStar, -, noFlag⟩ := length_first v.length v.accepted tail
  rw [Shape.rest, Shape.point_chars, split]
  cases v.point with
  | true =>
    have point : is_digit (code '.') = false ∧ code '.' ≠ code '*' ∧ NoFlag (code '.') := by decide
    exact point
  | false => exact ⟨notDigit, notStar, noFlag⟩

theorem digit_no_flag (d : Fin 10) : d = 0 ∨ NoFlag (digit d) := by
  revert d
  decide

/-- A width whose first digit is no flag is followed by no flag either. -/
theorem width_first {flag : Flag} {width : Width} (unambiguous : flag = .none → ∀ digits, width ≠ .literal (0 :: digits))
    (behind : NoFlag (tail.headD 0)) (isNone : flag = .none) : NoFlag ((width.chars ++ tail).headD 0) := by
  cases width with
  | star =>
    have star : NoFlag (code '*') := by decide
    exact star
  | literal digits =>
    cases digits with
    | nil => exact behind
    | cons x digits =>
      rcases digit_no_flag x with rfl | free
      · exact absurd rfl (unambiguous isNone digits)
      · exact free

theorem get_precision_run (f : printf_format) (v : Shape) (begins : Begins str start (v.rest tail)) (ends : v.Ends tail)
    (s : Console) : get_precision f str start s = .ok (v.point_chars.length, { f with precision := NONE }) s := by
  obtain ⟨d, rest, split, -, -, notPoint, -⟩ := length_first v.length v.accepted tail
  rw [Shape.rest, Shape.point_chars, split] at begins
  cases point : v.point with
  | false =>
    rw [point] at begins
    rw [Shape.point_chars, point]
    exact get_precision_none f begins notPoint s
  | true =>
    have second : is_digit (rest.headD 0) = false := by
      have letter := (letter_ends v.accepted).1
      cases length : v.length with
      | long_double =>
        rw [length] at split
        cases split
        exact letter
      | modifier m =>
        rw [length] at split
        cases m with
        | none =>
          cases split
          exact ends point length
        | hh => cases split; rfl
        | h => cases split; exact letter
        | l => cases split; exact letter
        | ll => cases split; rfl
        | j => cases split; exact letter
        | z => cases split; exact letter
        | t => cases split; exact letter
    rw [point] at begins
    rw [Shape.point_chars, point]
    exact get_precision_point f [] begins second s

/-- The parsers run over a conversion of an accepted shape to its letter. -/
theorem get_format_run (f : printf_format) (v : Shape) (begins : Begins str start (v.chars ++ tail)) (ends : v.Ends tail)
    (s : Console) : get_format f str start s = .ok (v.chars.length - 1, v.parsed) s := by
  obtain ⟨notDigit, notStar, noFlag⟩ := rest_first v tail
  rw [v.split] at begins
  have width : v.width.Ends (v.rest tail) := by
    cases v.width with
    | star => trivial
    | literal digits => exact ⟨notDigit, fun _ => notStar⟩
  have behindWidth := begins.skip.skip
  have last : Begins str (start + v.flag.chars.length + v.width.chars.length + v.point_chars.length)
      (v.length.chars ++ v.letter :: tail) := behindWidth.skip
  have length : v.flag.chars.length + v.width.chars.length + v.point_chars.length + v.length.chars.length =
      v.chars.length - 1 := by
    simp [Shape.chars]
    omega
  rw [get_format, bind_ok (get_flags_run f v.flag begins (width_first v.unambiguous noFlag) s)]
  refine (bind_ok (get_width_run _ v.width begins.skip width s) _).trans ?_
  refine (bind_ok (get_precision_run _ v behindWidth ends s) _).trans ?_
  refine (bind_ok (get_specifier_run _ v.length last (length_ends v.length v.accepted tail) v.accepted s) _).trans ?_
  dsimp only
  rw [length]
  rfl

/-- Where the string ends behind the point of a precision, the parser reads on. -/
theorem get_format_cut (f : printf_format) {flag : Flag} {width : Width}
    (unambiguous : flag = .none → ∀ digits, width ≠ .literal (0 :: digits))
    (begins : Begins str start (flag.chars ++ (width.chars ++ [code '.']))) (s : Console) :
    get_format f str start s = .error (.index (str.length + 1)) s := by
  have ends : width.Ends [code '.'] := by
    cases width with
    | star => trivial
    | literal digits => exact ⟨by decide, fun _ => by decide⟩
  rw [get_format, bind_ok (get_flags_run f flag begins (width_first unambiguous (by decide)) s)]
  refine (bind_ok (get_width_run _ width begins.skip ends s) _).trans ?_
  exact bind_error (get_precision_cut _ begins.skip.skip s) _

theorem accepts_cons {type : types} (accepts : Accepts type (tail.headD 0)) : ∃ c rest, tail = c :: rest := by
  cases tail with
  | nil => exact absurd (accepts_letter accepts) (by decide)
  | cons c rest => exact ⟨c, rest, rfl⟩

/-- A character that is neither a length modifier nor a specifier. -/
abbrev Junk (c : UInt8) : Prop :=
  c ∉ signed_letters ++ unsigned_letters ++ floating_letters ++ [code 'c', code 's', code 'p'] ∧
    c ∉ [code 'h', code 'l', code 'j', code 'z', code 't', code 'L']

theorem junk_rejects (f : printf_format) (begins : Begins str start (c :: tail)) (junk : Junk c) (s : Console) :
    ∃ message, get_length_and_specifier f str start s = .error (.assertion message) s :=
  get_specifier_rejects f (.modifier .none) begins junk.2 (fun accepts => junk.1 (accepts_letter accepts)) s

theorem digit_junk (d : Fin 10) : Junk (digit d) := by
  revert d
  decide

/-- An assertion that fails in the last parser is the result. -/
theorem format_rejects {f f₁ f₂ f₃ : printf_format} {a b n : ℕ} {message : String}
    (flags : get_flags f str start s = .ok (a, f₁) s) (width : get_width f₁ str (start + a) s = .ok (b, f₂) s)
    (precision : get_precision f₂ str (start + a + b) s = .ok (n, f₃) s)
    (last : get_length_and_specifier f₃ str (start + a + b + n) s = .error (.assertion message) s) :
    get_format f str start s = .error (.assertion message) s := by
  rw [get_format, bind_ok flags]
  refine (bind_ok width _).trans ?_
  refine (bind_ok precision _).trans ?_
  exact bind_error last _

/-- Digits are read only from the second character behind the point, and the last of
    them is taken for the specifier; without any it is the first character. -/
theorem point_rejects (f : printf_format) {digits : List (Fin 10)}
    (begins : Begins str start (code '.' :: x :: (digits.map digit ++ tail))) (stops : is_digit (tail.headD 0) = false)
    (junk : digits = [] → Junk x) (s : Console) :
    ∃ n f' message, get_precision f str start s = .ok (n, f') s ∧
      get_length_and_specifier f' str (start + n) s = .error (.assertion message) s := by
  have precision := get_precision_point f digits begins stops s
  rcases List.eq_nil_or_concat digits with rfl | ⟨init, d, rfl⟩
  · have behind : Begins str (start + 1) (x :: tail) := begins.next
    obtain ⟨message, last⟩ := junk_rejects { f with precision := int (reversed []) } behind (junk rfl) s
    exact ⟨_, _, message, precision, last⟩
  · have position : (code '.' :: x :: init.map digit).length = 1 + (init ++ [d]).length := by
      simp
      omega
    have behind : Begins str (start + (1 + (init ++ [d]).length)) (digit d :: tail) := by
      rw [← position]
      refine Begins.skip ?_
      simpa using begins
    obtain ⟨message, last⟩ := junk_rejects { f with precision := int (reversed (init ++ [d])) } behind (digit_junk d) s
    exact ⟨_, _, message, by simpa using precision, last⟩

/-- Every text begins with an accepted conversion, ends with the point of a
    precision, or fails an assertion. -/
theorem get_format_cases (f : printf_format) (begins : Begins str start text) (s : Console) :
    (∃ v tail, text = Shape.chars v ++ tail ∧ v.Ends tail) ∨
      (∃ (flag : Flag) (width : Width), (flag = .none → ∀ digits, width ≠ .literal (0 :: digits)) ∧
        text = flag.chars ++ (width.chars ++ [code '.'])) ∨
      ∃ message, get_format f str start s = .error (.assertion message) s := by
  obtain ⟨flag, text, rfl, free⟩ := split_flag text
  obtain ⟨width, text, rfl, ends⟩ := split_width text
  have unambiguous : flag = .none → ∀ digits, width ≠ .literal (0 :: digits) := by
    rintro isNone digits rfl
    have zero : ¬ NoFlag (digit 0) := by decide
    exact zero (free isNone)
  have flags := get_flags_run f flag begins free s
  have behindFlag := begins.skip
  have widths := get_width_run { f with flags := flag.bits } width behindFlag ends s
  have behindWidth := behindFlag.skip
  by_cases point : text.headD 0 = code '.'
  · cases text with
    | nil => exact absurd point (by decide)
    | cons c text =>
      obtain rfl : c = code '.' := point
      cases text with
      | nil => exact .inr (.inl ⟨flag, width, unambiguous, rfl⟩)
      | cons x text =>
        obtain ⟨digits, tail, rfl, stops⟩ := split_digits text
        have precision := get_precision_point { f with flags := flag.bits, width := width.value } digits behindWidth stops s
        rcases List.eq_nil_or_concat digits with rfl | ⟨init, d, rfl⟩
        · have behind : Begins str (start + flag.chars.length + width.chars.length + 1) (x :: tail) := behindWidth.next
          obtain ⟨length, rest, split, ends'⟩ := split_length (x :: tail)
          rw [split] at behind
          by_cases accepts : Accepts length.type (rest.headD 0)
          · obtain ⟨c, rest, rfl⟩ := accepts_cons accepts
            refine .inl ⟨⟨flag, width, true, length, c, unambiguous, accepts⟩, rest, ?_, fun _ isNone => ?_⟩
            · rw [Shape.split]
              exact congrArg (fun back => flag.chars ++ (width.chars ++ code '.' :: back)) split
            · obtain rfl : length = .modifier .none := isNone
              cases split
              exact stops
          · obtain ⟨message, last⟩ := get_specifier_rejects _ length behind ends' accepts s
            exact .inr (.inr ⟨message, format_rejects flags widths precision last⟩)
        · obtain ⟨n, f', message, precision', last⟩ := point_rejects { f with flags := flag.bits, width := width.value }
            behindWidth stops (by simp) s
          exact .inr (.inr ⟨message, format_rejects flags widths precision' last⟩)
  · have precision := get_precision_none { f with flags := flag.bits, width := width.value } behindWidth point s
    obtain ⟨length, tail, rfl, ends'⟩ := split_length text
    by_cases accepts : Accepts length.type (tail.headD 0)
    · obtain ⟨c, tail, rfl⟩ := accepts_cons accepts
      refine .inl ⟨⟨flag, width, false, length, c, unambiguous, accepts⟩, tail, ?_, nofun⟩
      rw [Shape.split]
      rfl
    · obtain ⟨message, last⟩ := get_specifier_rejects { f with flags := flag.bits, width := width.value, precision := NONE }
        length behindWidth ends' accepts s
      exact .inr (.inr ⟨message, format_rejects flags widths precision last⟩)

end
end OsC.Conversions
