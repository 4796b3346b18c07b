import OsC.Formats

/-!
Conversions of `terminal_printf` and their arguments. A format is a list of
pieces: text and conversions to hexadecimal digits, of a character and of a
string. What the code fetches for it (`fetched`, `terminal_printf_run`) is what
its conversions name as long as they stay clear of five defects
(`arguments_taken_iff`).
-/
namespace OsC.Conversions
open OsC.Loop OsC.Word OsC.Vga OsC.Printf OsC.PrintfLoop

/-! ### Formats -/

inductive Spec
  | hex (upper : Bool) (modifier : Modifier)
  | char
  | string
  deriving DecidableEq, Repr

def Spec.modifier : Spec → Modifier
  | .hex _ modifier => modifier
  | .char => .none
  | .string => .none

def Spec.letter : Spec → UInt8
  | .hex upper _ => if upper then code 'X' else code 'x'
  | .char => code 'c'
  | .string => code 's'

/-- A conversion. A literal width does not begin with a zero, which is a flag. -/
structure Conversion where
  flag : Flag
  width : Width
  spec : Spec
  unambiguous : flag = .none → ∀ digits, width ≠ .literal (0 :: digits)

def Conversion.chars (c : Conversion) : List UInt8 :=
  c.flag.chars ++ (c.width.chars ++ (c.spec.modifier.chars ++ [c.spec.letter]))

/-- The pieces of a format string. -/
inductive Piece
  | plain (c : UInt8) (ordinary : Ordinary c)
  | escaped (c : UInt8)
  | percent
  | conversion (c : Conversion)

def Piece.chars : Piece → List UInt8
  | .plain c _ => [c]
  | .escaped c => [backslash, c]
  | .percent => [code '%', code '%']
  | .conversion c => code '%' :: c.chars

def format (pieces : List Piece) : List UInt8 := pieces.flatMap Piece.chars

/-! ### What is due, and what is fetched -/

/-- The width in bits of the unsigned type that a modifier names. -/
def Modifier.bits : Modifier → ℕ
  | .none => 32
  | .hh => 8
  | .h => 16
  | _ => 64

/-- For the conversion whose argument is slot `j`: the slot, and the value that
    reaches the printing routine. -/
def due (caller : Caller) (j : ℕ) : Spec → List Output
  | .hex upper modifier =>
    [.took j, .integer (Spec.hex upper modifier).letter ((caller.args j).toNat % 2 ^ modifier.bits)]
  | .char => [.took j, .char (UInt8.ofNat (caller.args j).toNat)]
  | .string => [.took j, .string (caller.args j).toNat]

/-- What the code fetches when slot `j` is the next one. -/
def fetched (caller : Caller) (j : ℕ) : Spec → List Output
  | .hex upper .none => [.took j, .integer (Spec.hex upper .none).letter ((caller.args j).toNat % 2 ^ 32)]
  | .hex _ .hh => []
  | .hex upper .h => [.took j, .integer (Spec.hex upper .h).letter (wrap (signed 16 (caller.args j).toNat))]
  | .hex upper modifier => [.took j, .integer (Spec.hex upper modifier).letter (caller.args j).toNat]
  | .char => [.took j, .integer (code 'c') (wrap (signed 32 (caller.args j).toNat))]
  | .string => [.took j, .string (wrap (signed 32 (caller.args j).toNat))]

/-- The number of slots that `fetched` takes. -/
def Spec.slots : Spec → ℕ
  | .hex _ .hh => 0
  | _ => 1

/-- The slots that a width names, and those that the code takes for it. -/
def Width.named : Width → ℕ
  | .literal _ => 0
  | .star => 1

def Width.taken : Width → ℕ
  | .literal digits => if reversed digits % 2 ^ 32 = 2 ^ 32 - 2 then 1 else 0
  | .star => 1

/-- The trace that is due, with `j` the next slot. -/
def expected (caller : Caller) : ℕ → List Piece → List Output
  | _, [] => []
  | j, .conversion c :: pieces =>
    .conversion :: ((List.range' j c.width.named).map .took ++ due caller (j + c.width.named) c.spec) ++
      expected caller (j + c.width.named + 1) pieces
  | j, _ :: pieces => expected caller j pieces

/-- The trace of the code. -/
def actual (caller : Caller) : ℕ → List Piece → List Output
  | _, [] => []
  | j, .conversion c :: pieces =>
    .conversion :: ((List.range' j c.width.taken).map .took ++ fetched caller (j + c.width.taken) c.spec) ++
      actual caller (j + c.width.taken + c.spec.slots) pieces
  | j, _ :: pieces => actual caller j pieces

/-- Reads outside the digit buffer are not arguments. -/
def kept : Output → Bool
  | .outside _ => false
  | _ => true

/-- The call takes for each conversion its own argument, and passes it on whole. -/
def Meets (caller : Caller) (pieces : List Piece) (s : Console) : Prop :=
  ∃ s' new, terminal_printf caller (format pieces) s = .ok () s' ∧ s'.trace = new ++ s.trace ∧
    new.reverse.filter kept = expected caller 0 pieces

/-! ### The condition -/

/-- The slot of each conversion. -/
def assigned : ℕ → List Piece → List (Conversion × ℕ)
  | _, [] => []
  | j, .conversion c :: pieces => (c, j + c.width.named) :: assigned (j + c.width.named + 1) pieces
  | j, _ :: pieces => assigned j pieces

/-- The argument survives the code's conversions. -/
def Spec.Passes (slot : ℕ) : Spec → Prop
  | .hex _ .hh => False
  | .hex _ .h => slot % 2 ^ 16 < 2 ^ 15
  | .hex _ _ => True
  | .char => False
  | .string => slot < 2 ^ 31 ∨ 2 ^ 64 - 2 ^ 31 ≤ slot

/-- The width is not taken for the mark of a width that is an argument. -/
def Width.Distinct : Width → Prop
  | .literal digits => reversed digits % 2 ^ 32 ≠ 2 ^ 32 - 2
  | .star => True

def Clear (caller : Caller) (pieces : List Piece) : Prop :=
  ∀ p ∈ assigned 0 pieces, p.1.width.Distinct ∧ p.1.spec.Passes (caller.args p.2).toNat

/-! ### The traces compared -/

section
variable {caller : Caller} {j k n : ℕ} {pieces : List Piece}

theorem wrap_signed_32 (small : n < 2 ^ 64) : wrap (signed 32 n) = n ↔ n < 2 ^ 31 ∨ 2 ^ 64 - 2 ^ 31 ≤ n := by
  simp only [wrap, signed, Int.bmod]
  split <;> omega

theorem wrap_signed_16 : wrap (signed 16 n) = n % 2 ^ 16 ↔ n % 2 ^ 16 < 2 ^ 15 := by
  simp only [wrap, signed, Int.bmod]
  split <;> omega

theorem slot_lt (caller : Caller) (j : ℕ) : (caller.args j).toNat < 2 ^ 64 := (caller.args j).toNat_lt

theorem due_eq (caller : Caller) (j : ℕ) (spec : Spec) : ∃ value, due caller j spec = [.took j, value] ∧
    (∀ k, value ≠ .took k) ∧ value ≠ .conversion := by
  cases spec with
  | hex upper modifier => exact ⟨_, rfl, by simp, by simp⟩
  | char => exact ⟨_, rfl, by simp, by simp⟩
  | string => exact ⟨_, rfl, by simp, by simp⟩

theorem fetched_eq (caller : Caller) (j : ℕ) (spec : Spec) : fetched caller j spec = [] ∧ spec.slots = 0 ∨
    ∃ value, fetched caller j spec = [.took j, value] ∧ spec.slots = 1 := by
  cases spec with
  | hex upper modifier =>
    cases modifier with
    | hh => exact .inl ⟨rfl, rfl⟩
    | _ => exact .inr ⟨_, rfl, rfl⟩
  | char => exact .inr ⟨_, rfl, rfl⟩
  | string => exact .inr ⟨_, rfl, rfl⟩

/-- What is fetched is what is due exactly if the argument survives. -/
theorem fetched_iff (caller : Caller) (j : ℕ) (spec : Spec) :
    fetched caller j spec = due caller j spec ↔ spec.Passes (caller.args j).toNat := by
  have small := slot_lt caller j
  have whole : (caller.args j).toNat % 2 ^ 64 = (caller.args j).toNat := Nat.mod_eq_of_lt small
  cases spec with
  | hex upper modifier =>
    cases modifier with
    | none => simp [fetched, due, Spec.Passes, Modifier.bits]
    | hh => simp [fetched, due, Spec.Passes]
    | h =>
      rw [Spec.Passes, ← wrap_signed_16]
      simp [fetched, due, Modifier.bits]
    | l => simp [fetched, due, Spec.Passes, Modifier.bits]
    | ll => simp [fetched, due, Spec.Passes, Modifier.bits]
    | j => simp [fetched, due, Spec.Passes, Modifier.bits]
    | z => simp [fetched, due, Spec.Passes, Modifier.bits]
    | t => simp [fetched, due, Spec.Passes, Modifier.bits]
  | char => simp [fetched, due, Spec.Passes]
  | string =>
    rw [Spec.Passes, ← wrap_signed_32 small]
    simp [fetched, due]

theorem actual_head (caller : Caller) (j : ℕ) (pieces : List Piece) : ∀ o ∈ (actual caller j pieces).head?, o = .conversion := by
  induction pieces generalizing j with
  | nil => simp [actual]
  | cons piece pieces ih =>
    cases piece with
    | conversion c => simp [actual]
    | plain c ordinary => exact ih j
    | escaped c => exact ih j
    | percent => exact ih j

theorem actual_ne_cons {o : Output} {outputs : List Output} (notMark : o ≠ .conversion) : actual caller j pieces ≠ o :: outputs := by
  intro equal
  have head := actual_head caller j pieces
  rw [equal] at head
  exact notMark (head o rfl)

theorem Width.taken_of_distinct {width : Width} (distinct : width.Distinct) : width.taken = width.named := by
  cases width with
  | literal digits => exact if_neg distinct
  | star => rfl

theorem actual_eq_iff : actual caller j pieces = expected caller j pieces ↔
    ∀ p ∈ assigned j pieces, p.1.width.Distinct ∧ p.1.spec.Passes (caller.args p.2).toNat := by
  induction pieces generalizing j with
  | nil => simp [actual, expected, assigned]
  | cons piece pieces ih =>
    cases piece with
    | plain c ordinary => exact ih
    | escaped c => exact ih
    | percent => exact ih
    | conversion c =>
      obtain ⟨value, isDue, notTook, notMark⟩ := due_eq caller (j + c.width.named) c.spec
      rw [assigned, List.forall_mem_cons, ← ih]
      by_cases distinct : c.width.Distinct
      · have same := Width.taken_of_distinct distinct
        have iff := fetched_iff caller (j + c.width.named) c.spec
        rw [isDue] at iff
        rw [actual, expected, same, isDue]
        rcases fetched_eq caller (j + c.width.named) c.spec with ⟨none, _⟩ | ⟨value', one, slots⟩
        · have fails : ¬ c.spec.Passes (caller.args (j + c.width.named)).toNat := by
            rw [← iff, none]
            simp
          simp only [none, fails, and_false, false_and, iff_false]
          intro equal
          simp at equal
          exact actual_ne_cons (by simp) equal
        · rw [one] at iff
          rw [one, slots, ← iff]
          simp [distinct]
      · obtain ⟨digits, isLiteral⟩ : ∃ digits, c.width = .literal digits := by
          cases width : c.width with
          | literal digits => exact ⟨digits, rfl⟩
          | star =>
            rw [width] at distinct
            exact absurd trivial distinct
        have takes : c.width.taken = 1 := by
          rw [isLiteral] at distinct ⊢
          exact if_pos (not_not.mp distinct)
        have names : c.width.named = 0 := by rw [isLiteral]; rfl
        simp only [distinct, false_and, iff_false]
        rw [actual, expected, isDue, takes, names]
        intro equal
        simp at equal
        rcases fetched_eq caller (j + 1) c.spec with ⟨none, _⟩ | ⟨value', one, _⟩
        · rw [none, List.nil_append] at equal
          exact actual_ne_cons notMark equal
        · rw [one] at equal
          exact notTook _ (List.cons.inj equal).1.symm

end

/-! ### The parsers of a conversion -/

/-- The type that the parser gives to a conversion. -/
def Spec.type : Spec → types
  | .hex _ modifier => modifier.type
  | .char => .INT
  | .string => .CHAR

/-- The format with what the parser finds of a conversion's modifier and letter. -/
def Spec.parsed (spec : Spec) (f : printf_format) : printf_format :=
  { f with
    type := spec.type
    is_unsigned := match spec with | .hex _ _ => true | _ => false
    is_pointer := match spec with | .string => true | _ => false
    specifier := spec.letter }

/-- The format that the parsers find for a conversion. -/
def Conversion.parsed (v : Conversion) : printf_format :=
  v.spec.parsed { (default : printf_format) with flags := v.flag.bits, width := v.width.value, precision := NONE }

theorem spec_accepted (spec : Spec) : Accepts (Length.modifier spec.modifier).type spec.letter := by
  cases spec with
  | hex upper modifier =>
    have letters : ∀ upper : Bool, (if upper then code 'X' else code 'x') ∈ unsigned_letters := by decide
    exact .inr (.inl (letters upper))
  | char => decide
  | string => decide

/-- A conversion has an accepted shape. -/
def Conversion.shape (v : Conversion) : Shape :=
  ⟨v.flag, v.width, false, .modifier v.spec.modifier, v.spec.letter, v.unambiguous, spec_accepted v.spec⟩

theorem shape_chars (v : Conversion) : v.shape.chars = v.chars := rfl

theorem shape_parsed (v : Conversion) : v.shape.parsed = v.parsed := by
  obtain ⟨flag, width, spec, unambiguous⟩ := v
  cases spec with
  | hex upper modifier => cases upper <;> cases modifier <;> rfl
  | char => rfl
  | string => rfl

theorem get_conversion_run {str : List UInt8} {start : ℕ} {tail : List UInt8} (v : Conversion)
    (begins : Begins str start (v.chars ++ tail)) (s : Console) :
    get_format default str start s = .ok (v.chars.length - 1, v.parsed) s := by
  rw [← shape_chars] at begins ⊢
  rw [← shape_parsed]
  exact get_format_run default v.shape begins nofun s

/-! ### Printing a conversion -/

/-- From one console to another some slots were taken, and outputs recorded. -/
structure Adds (s s' : Console) (slots : ℕ) (outputs : List Output) : Prop where
  next : s'.next_arg = s.next_arg + slots
  traced : ∃ new, s'.trace = new ++ s.trace ∧ new.reverse.filter kept = outputs

section
variable {s s₁ s₂ : Console} {j k : ℕ} {a b : List Output} {caller : Caller}

theorem Adds.trans (first : Adds s s₁ j a) (second : Adds s₁ s₂ k b) : Adds s s₂ (j + k) (a ++ b) := by
  obtain ⟨next, new, traced, filtered⟩ := first
  obtain ⟨next', new', traced', filtered'⟩ := second
  refine ⟨by rw [next', next, Nat.add_assoc], new' ++ new, by rw [traced', traced, List.append_assoc], ?_⟩
  rw [List.reverse_append, List.filter_append, filtered, filtered']

theorem Adds.shown (s : Console) (act : Terminal → Terminal) : Adds s (shown s act) 0 [] := ⟨rfl, [], rfl, rfl⟩

theorem Adds.recorded (s : Console) (output : Output) :
    Adds s { s with trace := output :: s.trace } 0 ([output].filter kept) := ⟨rfl, [output], rfl, rfl⟩

/-- A number of `k` hexadecimal digits is written within the buffer. -/
theorem write_digits_run (offset : UInt8) (buf : List UInt8) {num fuel : ℕ} (length : buf.length = 17) (k : ℕ)
    (fits : num < 16 ^ k) (short : k ≤ 16) (enough : k < fuel) (s : Console) :
    ∃ buf', write_digits offset fuel buf ((k : ℤ) - 1) num s = .ok buf' s ∧ buf'.length = 17 := by
  obtain ⟨fuel, rfl⟩ : ∃ n, fuel = n + 1 := ⟨fuel - 1, by omega⟩
  induction k generalizing buf num fuel with
  | zero =>
    have none : ¬ num > 0 := by
      rw [pow_zero] at fits
      omega
    refine ⟨buf, ?_, length⟩
    rw [write_digits, if_neg none]
    rfl
  | succ k ih =>
    by_cases positive : num > 0
    · have wrote : ∀ c, buf_write buf ((k + 1 : ℕ) - 1) c s = .ok (buf.set k c) s := by
        intro c
        have index : ((k + 1 : ℕ) : ℤ) - 1 = k := by omega
        rw [index, buf_write, if_pos (by omega)]
        rfl
      have shorter : num >>> 4 < 16 ^ k := by
        rw [Nat.shiftRight_eq_div_pow]
        rw [pow_succ] at fits
        exact Nat.div_lt_of_lt_mul (by omega)
      obtain ⟨fuel, rfl⟩ : ∃ n, fuel = n + 1 := ⟨fuel - 1, by omega⟩
      obtain ⟨buf', ran, length'⟩ := ih (buf.set k (if num % 16 < 10 then UInt8.ofNat (num % 16) + 0x30
        else UInt8.ofNat (num % 16) + offset)) (by simpa using length) shorter (by omega) fuel (by omega)
      have index : ((k + 1 : ℕ) : ℤ) - 1 - 1 = k - 1 := by omega
      refine ⟨buf', ?_, length'⟩
      rw [write_digits, if_pos positive]
      refine (bind_ok (wrote _) _).trans ?_
      rw [index]
      exact ran
    · refine ⟨buf, ?_, length⟩
      rw [write_digits, if_neg positive]
      rfl

theorem print_integer_as_hex_run (caller : Caller) (f : printf_format) {num : ℕ} (fits : num < 2 ^ 64) (s : Console) :
    ∃ s', print_integer_as_hex caller f num s = .ok () s' ∧ Adds s s' 0 [] := by
  have sixteen : num < 16 ^ 16 := by norm_num at fits ⊢; exact fits
  obtain ⟨buf, ran, length⟩ := write_digits_run (if f.specifier = code 'X' then 0x37 else 0x57)
    (List.replicate 16 (code '0') ++ [0]) rfl 16 sixteen (le_refl 16) (by omega : 16 < 17) s
  have last : ∀ (i : ℤ) (s : Console), ∃ s', (if 0 ≤ i ∧ i < buf.length then
      onTerminal (print_text ((buf.take 16).drop i.toNat))
    else do
      record (.outside i)
      onTerminal (print_text (caller.stack i))) s = .ok () s' ∧ Adds s s' 0 [] := by
    intro i s
    by_cases inside : 0 ≤ i ∧ i < buf.length
    · rw [if_pos inside]
      exact ⟨_, rfl, .shown s _⟩
    · rw [if_neg inside]
      exact ⟨_, rfl, rfl, [.outside i], rfl, rfl⟩
  by_cases pre : f.flags &&& ALWAYS_SHOW_0x_OR_DECIMAL_POINT ≠ 0
  · obtain ⟨s', ended, adds⟩ := last _ (shown s (print_text (chars (if f.specifier = code 'X' then "0X" else "0x"))))
    refine ⟨s', ?_, (Adds.shown s _).trans adds⟩
    rw [print_integer_as_hex]
    refine (bind_ok ran _).trans ?_
    dsimp only
    rw [if_pos pre]
    exact ended
  · obtain ⟨s', ended, adds⟩ := last _ s
    refine ⟨s', ?_, adds⟩
    rw [print_integer_as_hex]
    refine (bind_ok ran _).trans ?_
    dsimp only
    rw [if_neg pre]
    exact ended

theorem print_integer_run (caller : Caller) (f : printf_format) {num : ℕ} (fits : num < 2 ^ 64) (s : Console) :
    ∃ s', print_integer caller f num s = .ok () s' ∧ Adds s s' 0 [.integer f.specifier num] := by
  have first := Adds.recorded s (.integer f.specifier num)
  obtain ⟨s₁, isS₁⟩ : ∃ s₁ : Console, s₁ = { s with trace := .integer f.specifier num :: s.trace } := ⟨_, rfl⟩
  have recorded : record (.integer f.specifier num) s = .ok () s₁ := by
    rw [isS₁]
    rfl
  rw [← isS₁] at first
  rw [print_integer, bind_ok recorded]
  by_cases hex : f.specifier = code 'X' ∨ f.specifier = code 'x'
  · obtain ⟨s₂, ran, second⟩ := print_integer_as_hex_run caller f fits s₁
    rw [if_pos hex]
    exact ⟨s₂, ran, first.trans second⟩
  · rw [if_neg hex]
    exact ⟨s₁, rfl, first⟩

theorem va_arg_run (caller : Caller) (s : Console) : ∃ s', va_arg caller s = .ok (caller.args s.next_arg).toNat s' ∧
    Adds s s' 1 [.took s.next_arg] :=
  ⟨_, rfl, rfl, [.took s.next_arg], rfl, rfl⟩

theorem wrap_signed_64 {n : ℕ} (small : n < 2 ^ 64) : wrap (signed 64 n) = n := by
  simp only [wrap, signed, Int.bmod]
  split <;> omega

/-- A slot is fetched and a value of it printed. -/
theorem fetch_run {print : ℕ → Print Unit} {value : Output}
    (prints : ∀ s₁, ∃ s', print (caller.args s.next_arg).toNat s₁ = .ok () s' ∧ Adds s₁ s' 0 [value]) :
    ∃ s', (va_arg caller >>= print) s = .ok () s' ∧ Adds s s' 1 [.took s.next_arg, value] := by
  obtain ⟨s₁, fetches, first⟩ := va_arg_run caller s
  obtain ⟨s₂, ran, second⟩ := prints s₁
  exact ⟨s₂, (bind_ok fetches _).trans ran, first.trans second⟩

theorem print_string_run (data : ℕ) (s : Console) :
    ∃ s', print_string caller data s = .ok () s' ∧ Adds s s' 0 [.string data] :=
  ⟨_, rfl, rfl, [.string data], rfl, rfl⟩

theorem print_conversion_run (caller : Caller) (spec : Spec) (f : printf_format) (s : Console) :
    ∃ s', print_conversion caller (spec.parsed f) s = .ok () s' ∧
      Adds s s' spec.slots (fetched caller s.next_arg spec) := by
  have small := slot_lt caller s.next_arg
  have whole := wrap_signed_64 small
  cases spec with
  | hex upper modifier =>
    cases modifier with
    | none => exact fetch_run fun s₁ => print_integer_run caller _ (Nat.lt_of_lt_of_le (Nat.mod_lt _ (by decide)) (by decide)) s₁
    | hh => exact ⟨s, rfl, rfl, [], rfl, rfl⟩
    | h => exact fetch_run fun s₁ => print_integer_run caller _ (wrap_lt _) s₁
    | l =>
      refine fetch_run fun s₁ => ?_
      simp only [print_long_int, whole]
      exact print_integer_run caller _ small s₁
    | ll =>
      refine fetch_run fun s₁ => ?_
      simp only [print_long_long_int, whole]
      exact print_integer_run caller _ small s₁
    | j =>
      refine fetch_run fun s₁ => ?_
      simp only [print_intmax_t, whole]
      exact print_integer_run caller _ small s₁
    | z => exact fetch_run fun s₁ => print_integer_run caller _ small s₁
    | t =>
      refine fetch_run fun s₁ => ?_
      simp only [print_ptrdiff_t, whole]
      exact print_integer_run caller _ small s₁
  | char => exact fetch_run fun s₁ => print_integer_run caller _ (wrap_lt _) s₁
  | string => exact fetch_run fun s₁ => print_string_run _ s₁

/-- The mark of a width that is passed, and the literals that read as it. -/
theorem width_marked (width : Width) : width.value = FORMAT_ARG_SPECIFIED ↔ width.taken = 1 := by
  cases width with
  | star => exact ⟨fun _ => rfl, fun _ => rfl⟩
  | literal digits =>
    simp only [Width.value, Width.taken, FORMAT_ARG_SPECIFIED, int, Int.bmod]
    split <;> split <;> omega

/-- The width that is used, with the next slot for one that is passed. -/
def Width.used (caller : Caller) (j : ℕ) (width : Width) : ℤ :=
  if width.taken = 1 then signed 32 (caller.args j).toNat else width.value

/-- The width's slot is taken for a star, and for a literal that reads as its mark. -/
theorem take_argument_run (caller : Caller) (width : Width) (s : Console) : ∃ s',
    take_argument caller width.value s = .ok (Width.used caller s.next_arg width) s' ∧
      Adds s s' width.taken ((List.range' s.next_arg width.taken).map .took) ∧ s'.terminal = s.terminal := by
  rw [Width.used, take_argument]
  by_cases takes : width.taken = 1
  · rw [if_pos ((width_marked width).mpr takes), if_pos takes, takes]
    exact ⟨_, rfl, ⟨rfl, [.took s.next_arg], rfl, rfl⟩, rfl⟩
  · have none : width.taken = 0 := by
      cases width with
      | star => exact absurd rfl takes
      | literal digits => exact if_neg fun equal => takes (if_pos equal)
    rw [if_neg fun marked => takes ((width_marked width).mp marked), if_neg takes, none]
    exact ⟨s, rfl, ⟨rfl, [], rfl, rfl⟩, rfl⟩

/-! ### The loop -/

/-- A relation of the consoles before and behind a piece, which the pieces' turns establish. -/
structure Rule (caller : Caller) (T : Console → Console → Piece → Prop) : Prop where
  plain : ∀ s c ordinary, T s (shown s (put_plain c)) (.plain c ordinary)
  escaped : ∀ s c, T s (shown s (put_plain c)) (.escaped c)
  percent : ∀ s, T s (shown s (put_plain (code '%'))) .percent
  conversion : ∀ s v, ∃ w s₁ s', take_argument caller v.width.value { s with trace := .conversion :: s.trace } = .ok w s₁ ∧
    print_conversion caller { v.parsed with width := w } s₁ = .ok () s' ∧ T s s' (.conversion v)

/-- The pieces are printed one behind the other. -/
inductive Each (T : Console → Console → Piece → Prop) : Console → Console → List Piece → Prop
  | nil (s : Console) : Each T s s []
  | cons {s s₁ s₂ : Console} {piece : Piece} {pieces : List Piece} (first : T s s₁ piece) (rest : Each T s₁ s₂ pieces) :
      Each T s s₂ (piece :: pieces)

theorem chars_length (piece : Piece) : 0 < piece.chars.length := by
  cases piece with
  | conversion v => simp [Piece.chars]
  | plain c ordinary => simp [Piece.chars]
  | escaped c => simp [Piece.chars]
  | percent => simp [Piece.chars]

section
variable {T : Console → Console → Piece → Prop} (rule : Rule caller T)
include rule

/-- The turn for a piece ends at the piece's last character. -/
theorem Rule.turn (before after : List UInt8) (piece : Piece) (s : Console) : ∃ s',
    printf_turn caller (before ++ (piece.chars ++ after)) before.length s = .ok (before.length + piece.chars.length - 1) s' ∧
      T s s' piece := by
  cases piece with
  | plain c ordinary => exact ⟨_, turn_ordinary ordinary, rule.plain s c ordinary⟩
  | escaped c => exact ⟨_, turn_escaped, rule.escaped s c⟩
  | percent => exact ⟨_, turn_percent, rule.percent s⟩
  | conversion v =>
    obtain ⟨w, s₁, s', takes, prints, behind⟩ := rule.conversion s v
    have parsed := get_conversion_run v (behind_percent before (v.chars ++ after)) { s with trace := .conversion :: s.trace }
    have single : (v.chars ++ after).headD 0 ≠ code '%' := shape_begins v.shape after
    have position : before.length + 1 + (v.chars.length - 1) = before.length + v.chars.length := by
      have positive := shape_length v.shape
      rw [shape_chars] at positive
      omega
    refine ⟨s', ?_, behind⟩
    change printf_turn caller (before ++ code '%' :: (v.chars ++ after)) before.length s = .ok (before.length + v.chars.length) s'
    rw [turn_format caller before single, ← position]
    refine (bind_ok parsed _).trans ?_
    refine (bind_ok takes _).trans ?_
    refine (bind_ok (show take_argument caller v.parsed.precision s₁ = .ok NONE s₁ from rfl) _).trans ?_
    exact bind_ok prints _

theorem Rule.loop (pieces : List Piece) (before : List UInt8) (fuel : ℕ) (s : Console)
    (enough : (format pieces).length < fuel) : ∃ s',
      printf_loop caller (before ++ format pieces) fuel before.length s = .ok () s' ∧ Each T s s' pieces := by
  induction pieces generalizing before fuel s with
  | nil =>
    obtain ⟨fuel, rfl⟩ : ∃ n, fuel = n + 1 := ⟨fuel - 1, by omega⟩
    refine ⟨s, ?_, .nil s⟩
    have none : format [] = [] := rfl
    rw [none, List.append_nil, loop_end]
  | cons piece pieces ih =>
    have positive := chars_length piece
    have whole : format (piece :: pieces) = piece.chars ++ format pieces := rfl
    rw [whole, List.length_append] at enough
    obtain ⟨fuel, rfl⟩ : ∃ n, fuel = n + 1 := ⟨fuel - 1, by omega⟩
    obtain ⟨s₁, ran, first⟩ := rule.turn before (format pieces) piece s
    obtain ⟨s₂, ran', rest⟩ := ih (before ++ piece.chars) fuel s₁ (by omega)
    have inside : before.length < (before ++ (piece.chars ++ format pieces)).length := by
      simp only [List.length_append]
      omega
    have position : before.length + piece.chars.length - 1 + 1 = (before ++ piece.chars).length := by
      rw [List.length_append]
      omega
    refine ⟨s₂, ?_, .cons first rest⟩
    rw [whole, loop_turn inside ran, position, ← List.append_assoc]
    exact ran'

/-- A format of pieces is printed to its end. -/
theorem Rule.printf (pieces : List Piece) (s : Console) : ∃ s', terminal_printf caller (format pieces) s = .ok () s' ∧
    Each T { s with next_arg := 0 } s' pieces :=
  rule.loop pieces [] ((format pieces).length + 1) { s with next_arg := 0 } (Nat.lt_succ_self _)

end

/-- What the code fetches for a piece. -/
def Fetches (caller : Caller) (s s' : Console) (piece : Piece) : Prop :=
  ∃ k outputs, Adds s s' k outputs ∧
    ∀ pieces, actual caller s.next_arg (piece :: pieces) = outputs ++ actual caller s'.next_arg pieces

theorem fetches_rule (caller : Caller) : Rule caller (Fetches caller) where
  plain s _ _ := ⟨0, [], .shown s _, fun _ => rfl⟩
  escaped s _ := ⟨0, [], .shown s _, fun _ => rfl⟩
  percent s := ⟨0, [], .shown s _, fun _ => rfl⟩
  conversion s v := by
    have begins := Adds.recorded s .conversion
    obtain ⟨s₁, takes, added, -⟩ := take_argument_run caller v.width { s with trace := .conversion :: s.trace }
    obtain ⟨s', prints, printed⟩ := print_conversion_run caller v.spec
      { (default : printf_format) with flags := v.flag.bits, width := Width.used caller s.next_arg v.width, precision := NONE } s₁
    have all := (begins.trans added).trans printed
    refine ⟨_, s₁, s', takes, prints, _, _, all, fun pieces => ?_⟩
    rw [actual, all.next, Nat.zero_add, ← Nat.add_assoc, added.next]
    rfl

theorem Each.fetches {pieces : List Piece} (each : Each (Fetches caller) s s₁ pieces) :
    ∃ k, Adds s s₁ k (actual caller s.next_arg pieces) := by
  induction each with
  | nil s => exact ⟨0, rfl, [], rfl, rfl⟩
  | cons first rest ih =>
    obtain ⟨j, outputs, adds, split⟩ := first
    obtain ⟨k, adds'⟩ := ih
    refine ⟨j + k, ?_⟩
    rw [split]
    exact adds.trans adds'

/-- A format of these pieces is printed to its end, and fetches what `actual` says. -/
theorem terminal_printf_run (caller : Caller) (pieces : List Piece) (s : Console) : ∃ s' new,
    terminal_printf caller (format pieces) s = .ok () s' ∧ s'.trace = new ++ s.trace ∧
      new.reverse.filter kept = actual caller 0 pieces := by
  obtain ⟨s', ran, each⟩ := (fetches_rule caller).printf pieces s
  obtain ⟨k, _, new, traced, filtered⟩ := each.fetches
  exact ⟨s', new, ran, traced, filtered⟩

/-- The call takes for each conversion exactly its own argument, and passes on the
    whole of it, if and only if no literal width reads as the mark of a width
    that is an argument, no conversion is `%hhx`, `%hhX` or `%c`, the argument of
    each `%hx` and `%hX` is below 2^15 in its low 16 bits, and each string lies at
    an address that is its own low half sign-extended. -/
theorem arguments_taken_iff (caller : Caller) (pieces : List Piece) (s : Console) :
    Meets caller pieces s ↔ Clear caller pieces := by
  obtain ⟨s', new, ran, traced, filtered⟩ := terminal_printf_run caller pieces s
  rw [Clear, ← actual_eq_iff]
  constructor
  · rintro ⟨s'', new', ran', traced', filtered'⟩
    rw [ran] at ran'
    cases ran'
    have same : new = new' := List.append_cancel_right (traced.symm.trans traced')
    rw [← filtered, same, filtered']
  · intro equal
    exact ⟨s', new, ran, traced, filtered.trans equal⟩

end

/-- The format `"%hhx %x"`. -/
def two_hex : List Piece :=
  [.conversion ⟨.none, .literal [], .hex false .hh, by simp⟩, .plain space ⟨by decide, by decide⟩,
    .conversion ⟨.none, .literal [], .hex false .none, by simp⟩]

/-- A caller that passes 0x1ab and 0xcd. -/
def two_numbers : Caller where
  args := fun j => if j = 0 then 0x1ab else 0xcd
  strings := fun _ => []
  stack := fun _ => []

/-- The second conversion prints the first argument. -/
theorem hh_takes_nothing : ¬ Meets two_numbers two_hex ⟨opened fun _ => 0, 0, []⟩ := by
  rintro ⟨s', new, ran, traced, filtered⟩
  obtain ⟨s'', new', ran', traced', filtered'⟩ := terminal_printf_run two_numbers two_hex ⟨opened fun _ => 0, 0, []⟩
  rw [ran] at ran'
  cases ran'
  have same : new = new' := List.append_cancel_right (traced.symm.trans traced')
  rw [same, filtered'] at filtered
  exact absurd filtered (by decide)

end OsC.Conversions
