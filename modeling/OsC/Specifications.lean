import OsC.Conversions
import Mathlib.Data.Nat.Digits.Lemmas

/-!
Conversion specifications as the language defines them, with any number of flags,
a width and a precision. `get_format` reads one as it is meant exactly if it has
at most one flag or only zeros, a width that its digits also spell backwards and
no precision but an empty one (`specification_iff`).
-/
namespace OsC.Specifications
open OsC.Loop OsC.Vga OsC.Printf OsC.PrintfLoop OsC.Conversions

/-- The number that digits spell, most significant first. -/
def decimal (digits : List (Fin 10)) : ℕ := digits.foldl (fun n (d : Fin 10) => 10 * n + d.val) 0

/-- A conversion specification, from its flags to its specifier. Zeros before the
    width are flags. -/
structure Specification where
  flags : List Flag
  width : Width
  precision : Option Width
  length : Length
  letter : UInt8
  real : ∀ f ∈ flags, f ≠ .none
  unambiguous : ∀ digits, width ≠ .literal (0 :: digits)
  accepted : Accepts length.type letter
  fits : ∀ digits, width = .literal digits ∨ precision = some (.literal digits) → decimal digits < 2 ^ 31

def flags_chars (flags : List Flag) : List UInt8 := flags.flatMap Flag.chars

def precision_chars : Option Width → List UInt8
  | none => []
  | some p => code '.' :: p.chars

def Specification.chars (v : Specification) : List UInt8 :=
  flags_chars v.flags ++ (v.width.chars ++ (precision_chars v.precision ++ (v.length.chars ++ [v.letter])))

/-- The number of a width or precision, or the mark of one that is an argument. -/
def amount : Width → ℤ
  | .literal digits => decimal digits
  | .star => FORMAT_ARG_SPECIFIED

/-- The format that a specification means. -/
def Specification.meant (v : Specification) : printf_format where
  flags := v.flags.foldl (fun bits f => bits ||| f.bits) NO_FLAGS
  width := amount v.width
  precision := v.precision.elim NONE amount
  type := argument_type v.length.type v.letter
  is_unsigned := decide (v.letter ∈ unsigned_letters)
  is_pointer := decide (v.letter ∈ [code 's', code 'p'])
  specifier := v.letter

/-! ### What the parser finds -/

/-- The digits that the parser takes for the width: flags behind the first too. -/
def Specification.width_digits (v : Specification) (digits : List (Fin 10)) : List (Fin 10) :=
  List.replicate (v.flags.length - 1) 0 ++ digits

/-- The width that the parser takes. -/
def Specification.taken (v : Specification) : Width :=
  match v.width with
  | .literal digits => .literal (v.width_digits digits)
  | .star => .star

/-- The parser comes to the specifier. -/
structure Specification.Parses (v : Specification) (tail : List UInt8) : Prop where
  zeros : ∀ f ∈ v.flags.tail, f = .zero
  single : v.width = .star → v.flags.length ≤ 1
  precision : v.precision = none ∨
    v.precision = some (.literal []) ∧ (v.length = .modifier .none → is_digit (tail.headD 0) = false)

section
variable {v : Specification} {tail : List UInt8} {s : Console}

theorem zero_flags {flags : List Flag} (zeros : ∀ f ∈ flags, f = .zero) :
    flags_chars flags = (List.replicate flags.length (0 : Fin 10)).map digit := by
  induction flags with
  | nil => rfl
  | cons f flags ih =>
    obtain rfl : f = .zero := zeros f List.mem_cons_self
    rw [flags_chars, List.flatMap_cons, ← flags_chars, ih fun g member => zeros g (List.mem_cons_of_mem _ member)]
    rfl

/-- The first flag, and the text of those behind it. -/
theorem first_flag (v : Specification) :
    flags_chars v.flags = (v.flags.headD .none).chars ++ flags_chars v.flags.tail := by
  cases v.flags with
  | nil => rfl
  | cons f flags => rfl

theorem head_none (isNone : v.flags.headD .none = .none) : v.flags = [] := by
  cases flags : v.flags with
  | nil => rfl
  | cons f rest =>
    rw [flags] at isNone
    exact absurd isNone (v.real f (by rw [flags]; exact List.mem_cons_self))

theorem taken_unambiguous (v : Specification) (isNone : v.flags.headD .none = .none) (digits : List (Fin 10)) :
    v.taken ≠ .literal (0 :: digits) := by
  have none := head_none isNone
  intro same
  cases width : v.width with
  | star => simp [Specification.taken, width] at same
  | literal ds =>
    simp [Specification.taken, width, Specification.width_digits, none] at same
    exact v.unambiguous digits (by rw [width, same])

/-- The shape that the parser sees in a specification. -/
def Specification.shape (v : Specification) : Shape :=
  ⟨v.flags.headD .none, v.taken, v.precision.isSome, v.length, v.letter, taken_unambiguous v, v.accepted⟩

theorem taken_chars (zeros : ∀ f ∈ v.flags.tail, f = .zero) (single : v.width = .star → v.flags.length ≤ 1) :
    flags_chars v.flags.tail ++ v.width.chars = v.taken.chars := by
  have text := zero_flags zeros
  rw [List.length_tail] at text
  rw [text]
  cases width : v.width with
  | star =>
    have one := single width
    have none : v.flags.length - 1 = 0 := by omega
    simp [Specification.taken, width, none]
  | literal digits => simp [Specification.taken, width, Specification.width_digits, Width.chars]

theorem shape_chars (parses : v.Parses tail) : v.shape.chars = v.chars := by
  have point : v.shape.point_chars = precision_chars v.precision := by
    rcases parses.precision with none | ⟨empty, -⟩
    · simp [Shape.point_chars, Specification.shape, none, precision_chars]
    · simp [Shape.point_chars, Specification.shape, empty, precision_chars, Width.chars]
  rw [Specification.chars, first_flag, Shape.chars, point, List.append_assoc, ← List.append_assoc (flags_chars _),
    taken_chars parses.zeros parses.single]
  rfl

/-- Where the parser comes to the specifier, it has the first flag, the width it takes and no precision. -/
theorem parses_run (f : printf_format) (parses : v.Parses tail) (before : List UInt8) (s : Console) :
    get_format f (before ++ (v.chars ++ tail)) before.length s = .ok (v.chars.length - 1, v.shape.parsed) s := by
  have ends : v.shape.Ends tail := by
    intro point isNone
    rcases parses.precision with none | ⟨-, stops⟩
    · simp [Specification.shape, none] at point
    · exact stops isNone
  rw [← shape_chars parses]
  exact get_format_run f v.shape (begins_append before _) ends s

/-! ### Where an assertion fails -/

theorem split_zeros {flags : List Flag} (other : ¬ ∀ f ∈ flags, f = .zero) :
    ∃ m f rest, flags = List.replicate m .zero ++ f :: rest ∧ f ≠ .zero := by
  induction flags with
  | nil => exact absurd (by simp) other
  | cons f flags ih =>
    by_cases zero : f = .zero
    · have later : ¬ ∀ g ∈ flags, g = .zero := by
        intro all
        exact other (by simpa [zero] using all)
      obtain ⟨m, g, rest, rfl, nonzero⟩ := ih later
      exact ⟨m + 1, g, rest, by rw [zero]; rfl, nonzero⟩
    · exact ⟨0, f, flags, rfl, zero⟩

/-- Behind a flag and zeros a character is taken for the specifier. -/
theorem early_rejects {str more : List UInt8} {start m : ℕ} {c : UInt8} (f : printf_format) {flag : Flag} (real : flag ≠ .none)
    (begins : Begins str start (flag.chars ++ ((List.replicate m (0 : Fin 10)).map digit ++ c :: more)))
    (junk : Junk c ∧ is_digit c = false ∧ c ≠ code '.') (starred : m = 0 → c ≠ code '*') (s : Console) :
    ∃ message, get_format f str start s = .error (.assertion message) s := by
  have ends : (Width.literal (List.replicate m 0)).Ends (c :: more) := ⟨junk.2.1, fun none => starred (by simpa using none)⟩
  have flags := get_flags_run f flag begins (fun none => absurd none real) s
  have width := get_width_run { f with flags := flag.bits } (.literal (List.replicate m 0)) begins.skip ends s
  have behind : Begins str (start + flag.chars.length + (Width.literal (List.replicate m 0)).chars.length) (c :: more) :=
    begins.skip.skip
  obtain ⟨f', isF⟩ : ∃ f' : printf_format, f' = { f with flags := flag.bits, width := (Width.literal (List.replicate m 0)).value } :=
    ⟨_, rfl⟩
  rw [← isF] at width
  have precision := get_precision_none f' behind junk.2.2 s
  obtain ⟨message, last⟩ := junk_rejects { f' with precision := NONE } behind junk.1 s
  exact ⟨message, format_rejects flags width precision last⟩

theorem flag_junk {f : Flag} (real : f ≠ .none) (nonzero : f ≠ .zero) :
    ∃ c, f.chars = [c] ∧ (Junk c ∧ is_digit c = false ∧ c ≠ code '.') ∧ c ≠ code '*' := by
  cases f with
  | none => exact absurd rfl real
  | minus => exact ⟨_, rfl, by decide, by decide⟩
  | plus => exact ⟨_, rfl, by decide, by decide⟩
  | blank => exact ⟨_, rfl, by decide, by decide⟩
  | hash => exact ⟨_, rfl, by decide, by decide⟩
  | zero => exact absurd rfl nonzero

/-- What the precision and the text behind it begin with. -/
def Specification.back (v : Specification) (tail : List UInt8) : List UInt8 :=
  precision_chars v.precision ++ (v.length.chars ++ v.letter :: tail)

theorem chars_append (v : Specification) (tail : List UInt8) :
    v.chars ++ tail = (v.flags.headD .none).chars ++ (flags_chars v.flags.tail ++ (v.width.chars ++ v.back tail)) := by
  rw [Specification.chars, first_flag, Specification.back]
  simp

theorem head_real {f : Flag} {flags : List Flag} (cons : v.flags = f :: flags) : v.flags.headD .none ≠ .none := by
  rw [cons]
  exact v.real f (by rw [cons]; exact List.mem_cons_self)

theorem back_first (v : Specification) (tail : List UInt8) :
    is_digit ((v.back tail).headD 0) = false ∧ (v.back tail).headD 0 ≠ code '*' ∧ NoFlag ((v.back tail).headD 0) := by
  obtain ⟨d, rest, split, notDigit, notStar, -, noFlag⟩ := length_first v.length v.accepted tail
  rw [Specification.back, split]
  cases v.precision with
  | some p =>
    have point : is_digit (code '.') = false ∧ code '.' ≠ code '*' ∧ NoFlag (code '.') := by decide
    exact point
  | none => exact ⟨notDigit, notStar, noFlag⟩

/-- A precision that is not empty is not read to its end. -/
theorem back_rejects (f : printf_format) {str : List UInt8} {start : ℕ} (begins : Begins str start (v.back tail))
    (fails : ¬ (v.precision = none ∨
      v.precision = some (.literal []) ∧ (v.length = .modifier .none → is_digit (tail.headD 0) = false))) (s : Console) :
    ∃ n f' message, get_precision f str start s = .ok (n, f') s ∧
      get_length_and_specifier f' str (start + n) s = .error (.assertion message) s := by
  obtain ⟨c, rest, split, stops, -⟩ := length_first v.length v.accepted tail
  cases precision : v.precision with
  | none => exact absurd (.inl precision) fails
  | some p =>
    rw [Specification.back, precision] at begins
    cases p with
    | star =>
      rw [split] at begins
      have text : Begins str start (code '.' :: code '*' :: (([] : List (Fin 10)).map digit ++ c :: rest)) := begins
      exact point_rejects f text stops (fun _ => by decide) s
    | literal digits =>
      cases digits with
      | cons d digits =>
        rw [split] at begins
        have text : Begins str start (code '.' :: digit d :: (digits.map digit ++ c :: rest)) := by
          simpa [precision_chars, Width.chars] using begins
        exact point_rejects f text stops (fun _ => digit_junk d) s
      | nil =>
        have goesOn : v.length = .modifier .none ∧ is_digit (tail.headD 0) = true := by
          by_contra other
          refine fails (.inr ⟨precision, fun none => ?_⟩)
          cases isDigit : is_digit (tail.headD 0) with
          | false => rfl
          | true => exact absurd ⟨none, isDigit⟩ other
        obtain ⟨digits, rest, rfl, stops⟩ := split_digits tail
        rw [goesOn.1] at begins
        have text : Begins str start (code '.' :: v.letter :: (digits.map digit ++ rest)) := begins
        refine point_rejects f text stops (fun none => ?_) s
        rw [none] at goesOn
        exact absurd (goesOn.2.symm.trans stops) (by simp)

/-- Where the parser does not come to the specifier, an assertion fails. -/
theorem parses_rejects (f : printf_format) (fails : ¬ v.Parses tail) (before : List UInt8) (s : Console) :
    ∃ message, get_format f (before ++ (v.chars ++ tail)) before.length s = .error (.assertion message) s := by
  have begins := begins_append before (v.chars ++ tail)
  rw [chars_append] at begins ⊢
  by_cases zeros : ∀ f ∈ v.flags.tail, f = .zero
  · by_cases single : v.width = .star → v.flags.length ≤ 1
    · have precision : ¬ (v.precision = none ∨
          v.precision = some (.literal []) ∧ (v.length = .modifier .none → is_digit (tail.headD 0) = false)) :=
        fun fine => fails ⟨zeros, single, fine⟩
      rw [← List.append_assoc (flags_chars _), taken_chars zeros single] at begins ⊢
      obtain ⟨notDigit, notStar, noFlag⟩ := back_first v tail
      have ends : v.taken.Ends (v.back tail) := by
        cases v.taken with
        | star => trivial
        | literal digits => exact ⟨notDigit, fun _ => notStar⟩
      have flags := get_flags_run f (v.flags.headD .none) begins (width_first (taken_unambiguous v) noFlag) s
      have width := get_width_run { f with flags := (v.flags.headD .none).bits } v.taken begins.skip ends s
      obtain ⟨n, f', message, precision', last⟩ := back_rejects _ begins.skip.skip precision s
      exact ⟨message, format_rejects flags width precision' last⟩
    · obtain ⟨star, more⟩ : v.width = .star ∧ ¬ v.flags.length ≤ 1 := by tauto
      obtain ⟨f₀, flags, cons⟩ := List.exists_cons_of_ne_nil (l := v.flags) (by rintro none; simp [none] at more)
      rw [zero_flags zeros, star] at begins ⊢
      have some : v.flags.tail.length ≠ 0 := by
        rw [List.length_tail]
        omega
      exact early_rejects f (head_real cons) begins (by decide) (fun none => absurd none some) s
  · obtain ⟨m, g, rest, split, nonzero⟩ := split_zeros zeros
    obtain ⟨f₀, flags, cons⟩ := List.exists_cons_of_ne_nil (l := v.flags) (by rintro none; simp [none] at split)
    have real : g ≠ .none := v.real g (List.mem_of_mem_tail (by rw [split]; simp))
    obtain ⟨c, chars, junk, notStar⟩ := flag_junk real nonzero
    have text : flags_chars v.flags.tail ++ (v.width.chars ++ v.back tail) =
        (List.replicate m (0 : Fin 10)).map digit ++ c :: (flags_chars rest ++ (v.width.chars ++ v.back tail)) := by
      have all : ∀ f ∈ List.replicate m Flag.zero, f = .zero := fun f member => List.eq_of_mem_replicate member
      have zeros := zero_flags all
      rw [List.length_replicate] at zeros
      rw [split, ← zeros]
      simp [flags_chars, chars]
    rw [text] at begins ⊢
    exact early_rejects f (head_real cons) begins junk (fun _ => notStar) s

/-! ### Where the specification is read as it is meant -/

/-- At most one flag or only zeros; a width that the parser's digits spell
    backwards; no precision but an empty one, with no digit two characters behind the point. -/
structure Specification.Readable (v : Specification) (tail : List UInt8) : Prop where
  flags : v.flags.length ≤ 1 ∨ (∀ f ∈ v.flags, f = .zero) ∧ v.width ≠ .star
  width : ∀ digits, v.width = .literal digits → int (reversed (v.width_digits digits)) = decimal digits
  precision : v.precision = none ∨
    v.precision = some (.literal []) ∧ (v.length = .modifier .none → is_digit (tail.headD 0) = false)

theorem zero_bits {flags : List Flag} (zeros : ∀ f ∈ flags, f = .zero) (nonempty : flags ≠ []) (bits : ℕ) :
    flags.foldl (fun bits f => bits ||| f.bits) bits = bits ||| LEFT_PAD_WITH_ZEROS := by
  induction flags generalizing bits with
  | nil => exact absurd rfl nonempty
  | cons f flags ih =>
    obtain rfl : f = .zero := zeros f List.mem_cons_self
    have rest : ∀ g ∈ flags, g = .zero := fun g member => zeros g (List.mem_cons_of_mem _ member)
    rw [List.foldl_cons]
    by_cases last : flags = []
    · rw [last]
      rfl
    · rw [ih rest last, Flag.bits, Nat.or_assoc, Nat.or_self]

/-- One flag is stored, and it is all there are. -/
theorem bits_iff (zeros : ∀ f ∈ v.flags.tail, f = .zero) :
    (v.flags.headD .none).bits = v.flags.foldl (fun bits f => bits ||| f.bits) NO_FLAGS ↔
      v.flags.length ≤ 1 ∨ ∀ f ∈ v.flags, f = .zero := by
  match flags : v.flags with
  | [] => simp [Flag.bits]
  | [f] => simp [NO_FLAGS]
  | f :: g :: rest =>
    have zeros : ∀ h ∈ g :: rest, h = .zero := by
      rw [flags] at zeros
      exact zeros
    have all : (f :: g :: rest).foldl (fun bits f => bits ||| f.bits) NO_FLAGS = f.bits ||| LEFT_PAD_WITH_ZEROS := by
      rw [List.foldl_cons, zero_bits zeros (by simp), NO_FLAGS, Nat.zero_or]
    have isZero : f.bits = f.bits ||| LEFT_PAD_WITH_ZEROS ↔ f = .zero := by
      cases f <;> decide
    rw [all]
    simp only [List.headD_cons, isZero]
    constructor
    · rintro rfl
      exact .inr fun h member => (List.mem_cons.mp member).elim id (zeros h)
    · rintro (short | every)
      · simp at short
      · exact every f List.mem_cons_self

theorem width_iff (v : Specification) : v.taken.value = amount v.width ↔
    ∀ digits, v.width = .literal digits → int (reversed (v.width_digits digits)) = decimal digits := by
  cases width : v.width with
  | star => simp [Specification.taken, width, Width.value, amount]
  | literal digits => simp [Specification.taken, width, Width.value, amount]

theorem meant_iff (parses : v.Parses tail) : v.shape.parsed = v.meant ↔
    (v.flags.headD .none).bits = v.flags.foldl (fun bits f => bits ||| f.bits) NO_FLAGS ∧ v.taken.value = amount v.width := by
  have precision : v.precision.elim NONE amount = NONE := by
    rcases parses.precision with none | ⟨empty, -⟩
    · rw [none]
      rfl
    · rw [empty]
      rfl
  rw [Specification.meant, precision, Shape.parsed, specified]
  simp [Specification.shape]

theorem readable_iff : v.Readable tail ↔ v.Parses tail ∧ v.shape.parsed = v.meant := by
  constructor
  · intro readable
    have zeros : ∀ f ∈ v.flags.tail, f = .zero := by
      rcases readable.flags with short | ⟨zeros, -⟩
      · have none : v.flags.tail = [] := List.eq_nil_of_length_eq_zero (by rw [List.length_tail]; omega)
        simp [none]
      · exact fun f member => zeros f (List.mem_of_mem_tail member)
    have parses : v.Parses tail :=
      ⟨zeros, fun star => readable.flags.elim id fun other => absurd star other.2, readable.precision⟩
    exact ⟨parses, (meant_iff parses).mpr
      ⟨(bits_iff zeros).mpr (readable.flags.imp_right fun other => other.1), (width_iff v).mpr readable.width⟩⟩
  · rintro ⟨parses, same⟩
    obtain ⟨bits, width⟩ := (meant_iff parses).mp same
    refine ⟨?_, (width_iff v).mp width, parses.precision⟩
    by_cases short : v.flags.length ≤ 1
    · exact .inl short
    · exact .inr ⟨((bits_iff parses.zeros).mp bits).resolve_left short, fun star => short (parses.single star)⟩

/-! ### Widths that are read as they are meant -/

theorem decimal_eq (digits : List (Fin 10)) : decimal digits = reversed digits.reverse := by
  induction digits using List.reverseRecOn with
  | nil => rfl
  | append_singleton digits d ih =>
    rw [decimal, List.foldl_append, ← decimal, ih, List.reverse_append]
    simp only [List.foldl_cons, List.foldl_nil, reversed, List.reverse_singleton, List.singleton_append, List.map_cons,
      Nat.ofDigits_cons]
    exact Nat.add_comm _ _

theorem reversed_lt (digits : List (Fin 10)) : reversed digits < 10 ^ digits.length := by
  have bound := Nat.ofDigits_lt_base_pow_length (b := 10) (l := digits.map Fin.val) (by decide) (by simp)
  simpa [reversed] using bound

/-- A number and its digits backwards leave the same remainder by nine. -/
theorem reversed_mod_nine (digits : List (Fin 10)) : reversed digits % 9 = decimal digits % 9 := by
  rw [decimal_eq, reversed, reversed, Nat.ofDigits_mod, Nat.ofDigits_mod 10 9 (digits.reverse.map Fin.val)]
  simp [Nat.ofDigits_one]

/-- A leading digit that is not zero bounds the number of digits of an `int`. -/
theorem decimal_length {digits : List (Fin 10)} (leading : ∀ rest, digits ≠ 0 :: rest) (fits : decimal digits < 2 ^ 31) :
    digits.length ≤ 10 := by
  cases digits with
  | nil => exact Nat.zero_le _
  | cons d digits =>
    by_contra long
    have nonzero : 0 < d.val := Nat.pos_of_ne_zero fun zero => leading digits (by rw [Fin.ext zero (b := 0)])
    have whole : decimal (d :: digits) = reversed digits.reverse + 10 ^ digits.length * d.val := by
      rw [decimal_eq, List.reverse_cons, reversed, List.map_append, Nat.ofDigits_append]
      simp [reversed]
    have large : 10 ^ 10 ≤ 10 ^ digits.length := Nat.pow_le_pow_right (by decide) (by simp at long; omega)
    have least : 10 ^ digits.length ≤ 10 ^ digits.length * d.val := Nat.le_mul_of_pos_right _ nonzero
    omega

/-- An overflow of ten digits changes the remainder by nine. -/
theorem int_eq_iff {r d : ℕ} (small : d < 2 ^ 31) (bound : r < 10 ^ 10) (nine : r % 9 = d % 9) : int r = d ↔ r = d := by
  constructor
  · intro same
    have multiple : (2 ^ 32 : ℤ) ∣ r - d := by
      rw [← same, int]
      exact Int.dvd_self_sub_bmod
    obtain ⟨k, difference⟩ := multiple
    -- The remainders stay out of the context while the multiples are counted.
    have few : k = 0 ∨ k = 1 ∨ k = 2 := by
      clear nine same
      omega
    rcases few with rfl | rfl | rfl
    · omega
    · clear small bound same
      omega
    · clear small bound same
      omega
  · rintro rfl
    rw [int, Int.bmod_eq_of_le (by omega) (by omega)]

/-- Digits spell the same number in both directions exactly if they are a palindrome. -/
theorem reversed_eq_iff (digits : List (Fin 10)) : reversed digits = decimal digits ↔ digits.reverse = digits := by
  rw [decimal_eq]
  constructor
  · intro same
    have equal := Nat.ofDigits_inj_of_len_eq (by decide : 1 < 10) (by simp) (by simp) (by simp) same
    exact ((List.map_injective_iff.mpr Fin.val_injective) equal).symm
  · intro same
    rw [same]

/-- With at most one flag the width is read as it is meant exactly if its digits are a palindrome. -/
theorem palindrome_iff (v : Specification) (single : v.flags.length ≤ 1) {digits : List (Fin 10)}
    (width : v.width = .literal digits) :
    int (reversed (v.width_digits digits)) = decimal digits ↔ digits.reverse = digits := by
  have fits := v.fits digits (.inl width)
  have short := decimal_length (fun rest zero => v.unambiguous rest (by rw [width, zero])) fits
  have bound := reversed_lt digits
  have most : 10 ^ digits.length ≤ 10 ^ 10 := Nat.pow_le_pow_right (by decide) short
  have nine := reversed_mod_nine digits
  have none : v.width_digits digits = digits := by
    have zero : v.flags.length - 1 = 0 := by omega
    rw [Specification.width_digits, zero]
    rfl
  rw [none, int_eq_iff fits (lt_of_lt_of_le bound most) nine]
  exact reversed_eq_iff digits

/-- The parser returns the offset of the specifier and the format that is meant
    exactly for a readable specification. With at most one flag the width is
    readable exactly if its digits are a palindrome. -/
theorem specification_iff (f : printf_format) (v : Specification) (before tail : List UInt8) (s : Console) :
    (get_format f (before ++ (v.chars ++ tail)) before.length s = .ok (v.chars.length - 1, v.meant) s ↔ v.Readable tail) ∧
      (v.flags.length ≤ 1 → ∀ digits, v.width = .literal digits →
        (int (reversed (v.width_digits digits)) = decimal digits ↔ digits.reverse = digits)) := by
  refine ⟨?_, fun single digits width => palindrome_iff v single width⟩
  rw [readable_iff]
  by_cases parses : v.Parses tail
  · rw [parses_run f parses before s]
    simp [parses]
  · obtain ⟨message, failed⟩ := parses_rejects f parses before s
    rw [failed]
    simp [parses]

end

theorem no_flags : ∀ f ∈ ([] : List Flag), f ≠ .none := by simp

theorem twelve_leading : ∀ digits, Width.literal [1, 2] ≠ .literal (0 :: digits) := by simp

theorem d_accepted : Accepts (Length.modifier .none).type (code 'd') := by decide

theorem twelve_fits : ∀ digits, Width.literal [1, 2] = .literal digits ∨ none = some (Width.literal digits) →
    decimal digits < 2 ^ 31 := by
  rintro digits (same | absent)
  · cases same
    decide
  · exact absurd absent (by simp)

/-- The specification of `%12d`. -/
def twelve : Specification :=
  ⟨[], .literal [1, 2], none, .modifier .none, code 'd', no_flags, twelve_leading, d_accepted, twelve_fits⟩

/-- Its width is read as 21. -/
theorem width_reversed : get_format default (code '%' :: twelve.chars) 1 ⟨opened fun _ => 0, 0, []⟩ ≠
    .ok (twelve.chars.length - 1, twelve.meant) ⟨opened fun _ => 0, 0, []⟩ := by
  have parses : twelve.Parses [] := ⟨nofun, nofun, .inl rfl⟩
  have ran := parses_run default parses [code '%'] ⟨opened fun _ => 0, 0, []⟩
  rw [List.append_nil] at ran
  refine ne_of_eq_of_ne ran ?_
  have other : twelve.shape.parsed ≠ twelve.meant := by decide +kernel
  simp [other]

end OsC.Specifications
