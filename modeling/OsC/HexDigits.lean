import OsC.Conversions
import Mathlib.Data.Nat.Digits.Lemmas

/-!
`print_integer_as_hex` exactly. The digit loop leaves in the 16 characters of the
buffer the hexadecimal digits behind zeros; what is printed begins at the first
significant digit or at `15 - width`, whichever comes first (`hex_run`).
-/
namespace OsC.HexDigits
open OsC.Loop OsC.Word OsC.Vga OsC.Printf OsC.PrintfLoop

/-! ### The buffer -/

/-- The character that the digit loop writes. -/
def hex_digit (offset_for_hex : UInt8) (d : ℕ) : UInt8 :=
  if d < 10 then UInt8.ofNat d + 0x30 else UInt8.ofNat d + offset_for_hex

/-- How many hexadecimal digits a number has, none for zero. -/
def significant (num : ℕ) : ℕ := (Nat.digits 16 num).length

/-- The digits of a number, most significant first. -/
def digits_text (offset : UInt8) (num : ℕ) : List UInt8 := (Nat.digits 16 num).reverse.map (hex_digit offset)

/-- The 16 characters that the digit loop leaves. -/
def padded (offset : UInt8) (num : ℕ) : List UInt8 :=
  List.replicate (16 - significant num) (code '0') ++ digits_text offset num

section
variable {offset : UInt8} {num : ℕ} {s : Console}

@[simp] theorem digits_text_length (offset : UInt8) (num : ℕ) : (digits_text offset num).length = significant num := by
  simp [digits_text, significant]

theorem significant_zero : significant 0 = 0 := by simp [significant]

theorem significant_pos (positive : 0 < num) : significant num = significant (num / 16) + 1 := by
  simp [significant, Nat.digits_def' (by decide : 1 < 16) positive]

theorem digits_text_pos (positive : 0 < num) :
    digits_text offset num = digits_text offset (num / 16) ++ [hex_digit offset (num % 16)] := by
  simp [digits_text, Nat.digits_def' (by decide : 1 < 16) positive]

theorem significant_le (fits : num < 2 ^ 64) : significant num ≤ 16 := by
  have bound : num < 16 ^ 16 := by norm_num at fits ⊢; exact fits
  exact (Nat.digits_length_le_iff (by decide) num).mpr bound

theorem padded_length (offset : UInt8) (fits : num < 2 ^ 64) : (padded offset num).length = 16 := by
  have := significant_le fits
  simp [padded]
  omega

/-- The digits are written over the end of what stands before them. -/
theorem write_digits_eq (offset : UInt8) (front back : List UInt8) (num fuel : ℕ) (room : significant num ≤ front.length)
    (enough : significant num < fuel) (s : Console) :
    write_digits offset fuel (front ++ back) ((front.length : ℤ) - 1) num s =
      .ok (front.take (front.length - significant num) ++ (digits_text offset num ++ back)) s := by
  obtain ⟨fuel, rfl⟩ : ∃ n, fuel = n + 1 := ⟨fuel - 1, by omega⟩
  induction fuel generalizing front back num with
  | zero =>
    obtain rfl : num = 0 := by
      by_contra nonzero
      have := significant_pos (Nat.pos_of_ne_zero nonzero)
      omega
    simp [write_digits, digits_text, significant_zero]
    rfl
  | succ fuel ih =>
    by_cases positive : num > 0
    · have longer := significant_pos positive
      obtain ⟨front, c, rfl⟩ : ∃ init c, front = init ++ [c] := by
        refine ⟨front.dropLast, front.getLast (by rintro rfl; simp at room; omega), ?_⟩
        rw [List.dropLast_append_getLast]
      have here : (((front ++ [c]).length : ℕ) : ℤ) - 1 = front.length := by simp
      have inside : (0 : ℤ) ≤ front.length ∧ (front.length : ℤ) < ((front ++ [c] ++ back).length : ℕ) := by
        simp
      have wrote : buf_write (front ++ [c] ++ back) front.length (hex_digit offset (num % 16)) s =
          .ok (front ++ hex_digit offset (num % 16) :: back) s := by
        rw [buf_write, if_pos inside]
        simp
        rfl
      have rest := ih front (hex_digit offset (num % 16) :: back) (num / 16) (by simp at room; omega) (by omega)
      rw [write_digits, if_pos positive, here]
      refine (bind_ok wrote _).trans ?_
      rw [Nat.shiftRight_eq_div_pow]
      refine rest.trans ?_
      rw [digits_text_pos positive, longer]
      simp [List.take_append_of_le_length]
    · obtain rfl : num = 0 := by omega
      rw [write_digits, if_neg positive]
      simp [digits_text, significant_zero]
      rfl

/-- The leading digit is not zero. -/
theorem leading_digit (offset : UInt8) (apart : ∀ d < 16, 0 < d → hex_digit offset d ≠ code '0') (positive : 0 < num) :
    ∃ c rest, digits_text offset num = c :: rest ∧ c ≠ code '0' := by
  have nonempty : Nat.digits 16 num ≠ [] := Nat.digits_ne_nil_iff_ne_zero.mpr (by omega)
  have leading := Nat.getLast_digit_ne_zero 16 (m := num) (by omega)
  have small := Nat.digits_lt_base (by decide : 1 < 16) (List.getLast_mem nonempty)
  refine ⟨hex_digit offset ((Nat.digits 16 num).getLast nonempty), (Nat.digits 16 num).dropLast.reverse.map (hex_digit offset),
    ?_, apart _ small (Nat.pos_of_ne_zero leading)⟩
  conv_lhs => rw [digits_text, ← List.dropLast_append_getLast nonempty]
  simp

/-- The loop over the buffer stops at the first significant digit, or at its end. -/
theorem first_significant (apart : ∀ d < 16, 0 < d → hex_digit offset d ≠ code '0') :
    (padded offset num).findIdx (· ≠ code '0') = 16 - significant num := by
  rw [padded, List.findIdx_append]
  have zeros : (List.replicate (16 - significant num) (code '0')).findIdx (· ≠ code '0') = 16 - significant num := by
    have none : (List.replicate (16 - significant num) (code '0')).findIdx (· ≠ code '0') =
        (List.replicate (16 - significant num) (code '0')).length := by
      rw [List.findIdx_eq_length]
      simp
    simpa using none
  rw [zeros]
  by_cases positive : 0 < num
  · obtain ⟨c, rest, begins, nonzero⟩ := leading_digit offset apart positive
    simp [begins, List.findIdx_cons, nonzero]
  · obtain rfl : num = 0 := by omega
    simp [digits_text]

/-! ### The whole routine -/

/-- The distance of a letter from its value, as the code chooses it. -/
def offset_for_hex (f : printf_format) : UInt8 := if f.specifier = code 'X' then 0x37 else 0x57

/-- The text before the digits. -/
def hex_lead (f : printf_format) : List UInt8 :=
  if f.flags &&& ALWAYS_SHOW_0x_OR_DECIMAL_POINT ≠ 0 then chars (if f.specifier = code 'X' then "0X" else "0x") else []

/-- Where the printed text begins in the buffer. -/
def first_index (f : printf_format) (num : ℕ) : ℤ := Printf.min (16 - significant num : ℕ) (int (15 - f.width))

/-- With the prefix printed. -/
def prefixed (f : printf_format) (s : Console) : Console := shown s (print_text (hex_lead f))

theorem offset_cases (f : printf_format) : offset_for_hex f = 0x37 ∨ offset_for_hex f = 0x57 := by
  unfold offset_for_hex
  split
  · exact .inl rfl
  · exact .inr rfl

/-- No digit but zero is written as `'0'`. -/
theorem digit_nonzero (f : printf_format) : ∀ d < 16, 0 < d → hex_digit (offset_for_hex f) d ≠ code '0' := by
  rcases offset_cases f with upper | lower
  · rw [upper]
    decide
  · rw [lower]
    decide

/-- Within the buffer its text is printed from the first index; outside, what lies there. -/
theorem hex_run (caller : Caller) (f : printf_format) (fits : num < 2 ^ 64) (s : Console) :
    print_integer_as_hex caller f num s = .ok ()
      (if 0 ≤ first_index f num ∧ first_index f num < 17 then
        shown (prefixed f s) (print_text ((padded (offset_for_hex f) num).drop (first_index f num).toNat))
      else
        shown { prefixed f s with trace := .outside (first_index f num) :: s.trace }
          (print_text (caller.stack (first_index f num)))) := by
  have small := significant_le fits
  have wrote : write_digits (offset_for_hex f) 17 (List.replicate 16 (code '0') ++ [0]) 15 num s =
      .ok (padded (offset_for_hex f) num ++ [0]) s := by
    have exact := write_digits_eq (offset_for_hex f) (List.replicate 16 (code '0')) [0] num 17 (by simpa using small)
      (by omega) s
    rw [List.take_replicate, List.length_replicate, Nat.min_eq_left (Nat.sub_le 16 _), ← List.append_assoc] at exact
    exact exact
  have length := padded_length (offset_for_hex f) fits
  have whole : (padded (offset_for_hex f) num ++ [0]).take 16 = padded (offset_for_hex f) num := by
    rw [List.take_append_of_le_length (by omega), List.take_of_length_le (by omega)]
  have size : (padded (offset_for_hex f) num ++ [0]).length = 17 := by
    rw [List.length_append, length]
    rfl
  have start : (padded (offset_for_hex f) num).findIdx (· ≠ code '0') = 16 - significant num :=
    first_significant (digit_nonzero f)
  rw [print_integer_as_hex]
  refine (bind_ok wrote _).trans ?_
  dsimp only
  rw [whole, start, size]
  have ends : ∀ s₁ : Console, (if 0 ≤ first_index f num ∧ first_index f num < 17 then
        onTerminal (print_text ((padded (offset_for_hex f) num).drop (first_index f num).toNat))
      else do
        record (.outside (first_index f num))
        onTerminal (print_text (caller.stack (first_index f num)))) s₁ = .ok ()
      (if 0 ≤ first_index f num ∧ first_index f num < 17 then
        shown s₁ (print_text ((padded (offset_for_hex f) num).drop (first_index f num).toNat))
      else
        shown { s₁ with trace := .outside (first_index f num) :: s₁.trace }
          (print_text (caller.stack (first_index f num)))) := by
    intro s₁
    split
    · rfl
    · rfl
  by_cases pre : f.flags &&& ALWAYS_SHOW_0x_OR_DECIMAL_POINT ≠ 0
  · rw [if_pos pre, prefixed, hex_lead, if_pos pre]
    exact ends (shown s (print_text (chars (if f.specifier = code 'X' then "0X" else "0x"))))
  · rw [if_neg pre, prefixed, hex_lead, if_neg pre]
    exact ends s

/-! ### How much is printed -/

/-- How many characters a terminal has put into cells. -/
def cells_printed (t : Terminal) : ℕ :=
  t.trace.countP fun
    | .printed _ _ => true
    | _ => false

theorem foldl_silent {β : Type} {act : Terminal → β → Terminal} (silent : ∀ t b, cells_printed (act t b) = cells_printed t)
    (bs : List β) (t : Terminal) : cells_printed (bs.foldl act t) = cells_printed t := by
  induction bs generalizing t with
  | nil => rfl
  | cons b bs ih => rw [List.foldl_cons, ih, silent]

theorem scroll_silent (t : Terminal) : cells_printed (scroll_terminal t) = cells_printed t := by
  refine (foldl_silent (fun u x => ?_) _ _).trans (foldl_silent (fun u x => foldl_silent (fun v y => ?_) _ u) _ t)
  · rfl
  · rfl

theorem newline_silent (t : Terminal) : cells_printed (print_newline t) = cells_printed t := by
  rw [print_newline]
  split
  · exact scroll_silent _
  · rfl

theorem put_char_printed (c : vga_char) (t : Terminal) : cells_printed (terminal_put_char c t) = cells_printed t + 1 := by
  have stored : cells_printed (advance (store_cell c t)) = cells_printed t + 1 := List.countP_cons_of_pos rfl
  rw [terminal_put_char]
  split
  · rw [wrap_line, newline_silent]
    exact stored
  · exact stored

theorem print_text_printed {text : List UInt8} (oneLine : ∀ c ∈ text, c ≠ newline) (t : Terminal) :
    cells_printed (print_text text t) = cells_printed t + text.length := by
  induction text generalizing t with
  | nil => rfl
  | cons c text ih =>
    have first : c ≠ newline := oneLine c List.mem_cons_self
    have rest := ih (fun d member => oneLine d (List.mem_cons_of_mem c member))
      (terminal_put_char (make_vga_char c t.default_color) t)
    rw [put_char_printed] at rest
    rw [print_text, List.foldl_cons, if_neg first, List.length_cons, ← print_text, rest]
    omega

theorem hex_digit_no_newline (f : printf_format) : ∀ d < 16, hex_digit (offset_for_hex f) d ≠ newline := by
  rcases offset_cases f with upper | lower
  · rw [upper]
    decide
  · rw [lower]
    decide

theorem padded_one_line (f : printf_format) (num : ℕ) : ∀ c ∈ padded (offset_for_hex f) num, c ≠ newline := by
  intro c member
  rcases List.mem_append.mp member with zero | digit
  · rw [List.eq_of_mem_replicate zero]
    decide
  · simp only [digits_text, List.mem_map, List.mem_reverse] at digit
    obtain ⟨d, among, rfl⟩ := digit
    exact hex_digit_no_newline f d (Nat.digits_lt_base (by decide) among)

theorem hex_lead_one_line (f : printf_format) : ∀ c ∈ hex_lead f, c ≠ newline := by
  unfold hex_lead
  split
  · split
    · decide +kernel
    · decide +kernel
  · simp

/-- The buffer is used inside its 17 elements, and behind the prefix there are as
    many characters as the width and the number ask for. -/
def Meets (caller : Caller) (f : printf_format) (num : ℕ) (s : Console) : Prop :=
  ∃ s', print_integer_as_hex caller f num s = .ok () s' ∧ s'.trace = s.trace ∧
    (f.width ≤ 16 → (cells_printed s'.terminal : ℤ) =
      cells_printed s.terminal + (hex_lead f).length + max f.width (max (significant num) 1))

theorem inside_iff (fits : num < 2 ^ 64) {w : ℤ} (low : -2 ^ 31 ≤ w) (high : w < 2 ^ 31) (f : printf_format) (width : f.width = w) :
    0 ≤ first_index f num ∧ first_index f num < 17 ↔ 16 - 2 ^ 31 ≤ w ∧ w ≤ 15 := by
  have small := significant_le fits
  simp only [first_index, Printf.min, width, int, Int.bmod]
  split <;> split <;> omega

/-- What a run inside the buffer prints. -/
theorem hex_inside (caller : Caller) (f : printf_format) (fits : num < 2 ^ 64)
    (inside : 0 ≤ first_index f num ∧ first_index f num < 17) (s : Console) :
    ∃ s', print_integer_as_hex caller f num s = .ok () s' ∧ s'.trace = s.trace ∧
      cells_printed s'.terminal = cells_printed s.terminal + (hex_lead f).length + (16 - (first_index f num).toNat) := by
  refine ⟨_, hex_run caller f fits s, ?_, ?_⟩
  · rw [if_pos inside]
    rfl
  · rw [if_pos inside]
    refine (print_text_printed (fun c member => padded_one_line f num c (List.mem_of_mem_drop member)) _).trans ?_
    rw [List.length_drop, padded_length _ fits]
    exact congrArg (· + _) (print_text_printed (hex_lead_one_line f) s.terminal)

/-- The routine does what the width asks for exactly when the width is 0, or the
    number is not 0 and has more digits than the width, and `15 - width` does not overflow. -/
theorem hex_width_iff (caller : Caller) (f : printf_format) (fits : num < 2 ^ 64) (low : -2 ^ 31 ≤ f.width)
    (high : f.width < 2 ^ 31) (s : Console) : Meets caller f num s ↔
      16 - 2 ^ 31 ≤ f.width ∧ (f.width = 0 ∨ num ≠ 0 ∧ f.width < significant num) := by
  have small := significant_le fits
  have inside := inside_iff fits low high f rfl
  have positive : num ≠ 0 ↔ 0 < significant num := by
    constructor
    · intro nonzero
      have := significant_pos (Nat.pos_of_ne_zero nonzero)
      omega
    · rintro some rfl
      rw [significant_zero] at some
      omega
  have index : 16 - 2 ^ 31 ≤ f.width → first_index f num = if (16 - significant num : ℕ) < 15 - f.width
      then ((16 - significant num : ℕ) : ℤ) else 15 - f.width := by
    intro noOverflow
    have same : int (15 - f.width) = 15 - f.width := by
      simp only [int, Int.bmod]
      split <;> omega
    rw [first_index, same]
    rfl
  rw [positive]
  constructor
  · rintro ⟨s', ran, traced, due⟩
    by_cases within : 0 ≤ first_index f num ∧ first_index f num < 17
    · obtain ⟨s'', ran', -, counted⟩ := hex_inside caller f fits within s
      rw [ran] at ran'
      cases ran'
      obtain ⟨noOverflow, most⟩ := inside.mp within
      have begins := index noOverflow
      have asked := due (by omega)
      refine ⟨noOverflow, ?_⟩
      rw [begins] at counted
      split at counted
      · omega
      · omega
    · rw [hex_run caller f fits s, if_neg within] at ran
      cases ran
      exact absurd traced (List.cons_ne_self _ _)
  · rintro ⟨noOverflow, wide⟩
    obtain ⟨s', ran, traced, counted⟩ := hex_inside caller f fits (inside.mpr ⟨noOverflow, by omega⟩) s
    refine ⟨s', ran, traced, fun _ => ?_⟩
    rw [index noOverflow] at counted
    split at counted
    · omega
    · omega

end

/-- The format of `%3x`. -/
def three_wide : printf_format := ⟨NO_FLAGS, 3, NONE, .INT, true, false, code 'x'⟩

/-- A caller that passes nothing. -/
def silent : Caller := ⟨fun _ => 0, fun _ => [], fun _ => []⟩

theorem hex_width_iff_long : Meets silent three_wide 0xcafe ⟨opened fun _ => 0, 0, []⟩ ↔
    16 - 2 ^ 31 ≤ three_wide.width ∧ (three_wide.width = 0 ∨ 0xcafe ≠ 0 ∧ three_wide.width < significant 0xcafe) :=
  hex_width_iff silent three_wide (by decide) (by decide) (by decide) ⟨opened fun _ => 0, 0, []⟩

theorem significant_ten : significant 0xa = 1 := by simp [significant]

/-- `%3x` prints the four characters `000a` for 10, and with a width of 16 the
    character in front of the buffer is printed. -/
theorem hex_too_wide : ¬ Meets silent three_wide 0xa ⟨opened fun _ => 0, 0, []⟩ ∧
    ¬ Meets silent { three_wide with width := 16 } 0xa ⟨opened fun _ => 0, 0, []⟩ := by
  constructor
  · have index : first_index three_wide 0xa = 12 := by
      rw [first_index, significant_ten]
      decide
    have inside : 0 ≤ first_index three_wide 0xa ∧ first_index three_wide 0xa < 17 := by
      rw [index]
      simp
    obtain ⟨s', ran, -, counted⟩ := hex_inside silent three_wide (by decide) inside ⟨opened fun _ => 0, 0, []⟩
    rintro ⟨s'', ran', -, due⟩
    rw [ran] at ran'
    cases ran'
    have asked := due (by decide)
    have width : three_wide.width = 3 := rfl
    rw [index] at counted
    rw [width, significant_ten] at asked
    omega
  · have index : first_index { three_wide with width := 16 } 0xa = -1 := by
      rw [first_index, significant_ten]
      decide
    rintro ⟨s', ran, traced, -⟩
    rw [hex_run silent _ (by decide), index, if_neg (by decide)] at ran
    cases ran
    exact absurd traced (List.cons_ne_self _ _)

/-! ### Reading the digits back -/

/-- The digits of a letter case, each at its value. -/
def letters (upper : Bool) : List UInt8 := chars (if upper then "0123456789ABCDEF" else "0123456789abcdef")

/-- The number that a text of digits is, most significant first. -/
def read_back (upper : Bool) (text : List UInt8) : ℕ := text.foldl (fun n c => 16 * n + (letters upper).idxOf c) 0

/-- The text is the number in digits of the letter case. -/
structure Numeral (upper : Bool) (num : ℕ) (text : List UInt8) : Prop where
  nonempty : text ≠ []
  letters : ∀ c ∈ text, c ∈ letters upper
  value : read_back upper text = num

section
variable {num : ℕ} {upper : Bool}

theorem digit_letter (upper : Bool) : ∀ d < 16, hex_digit (if upper then 0x37 else 0x57) d ∈ letters upper ∧
    (letters upper).idxOf (hex_digit (if upper then 0x37 else 0x57) d) = d := by
  cases upper with
  | true => decide +kernel
  | false => decide +kernel

theorem read_back_zeros (upper : Bool) (k : ℕ) (text : List UInt8) :
    read_back upper (List.replicate k (code '0') ++ text) = read_back upper text := by
  have zero : (letters upper).idxOf (code '0') = 0 := by
    cases upper with
    | true => decide +kernel
    | false => decide +kernel
  induction k with
  | zero => rfl
  | succ k ih =>
    rw [← ih, List.replicate_succ, List.cons_append, read_back, List.foldl_cons, zero]
    rfl

theorem read_back_digits {ds : List ℕ} (small : ∀ d ∈ ds, d < 16) :
    read_back upper (ds.reverse.map (hex_digit (if upper then 0x37 else 0x57))) = Nat.ofDigits 16 ds := by
  induction ds with
  | nil => rfl
  | cons d ds ih =>
    have rest := ih fun e member => small e (List.mem_cons_of_mem d member)
    have value := (digit_letter upper d (small d List.mem_cons_self)).2
    rw [read_back] at rest
    rw [read_back, List.reverse_cons, List.map_append, List.foldl_append, rest, Nat.ofDigits_cons]
    simp only [List.map_cons, List.map_nil, List.foldl_cons, List.foldl_nil, value]
    exact Nat.add_comm _ _

theorem offset_of_specifier {f : printf_format} (specifier : f.specifier = if upper then code 'X' else code 'x') :
    offset_for_hex f = if upper then 0x37 else 0x57 := by
  cases upper with
  | true => exact if_pos specifier
  | false =>
    refine if_neg ?_
    rw [specifier]
    decide

/-- With a width from 0 to 15 the text begins inside the buffer, no later than the digits do. -/
theorem first_index_early (fits : num < 2 ^ 64) {f : printf_format} (low : 0 ≤ f.width) (high : f.width ≤ 15) :
    (first_index f num).toNat ≤ 16 - significant num ∧ (first_index f num).toNat ≤ 15 := by
  have small := significant_le fits
  simp only [first_index, Printf.min, int, Int.bmod] at *
  constructor <;> split <;> split <;> omega

/-- It has one digit more than the width asks for, or all digits of the number. -/
theorem first_index_rest (fits : num < 2 ^ 64) {f : printf_format} (low : 0 ≤ f.width) (high : f.width ≤ 15) :
    ((16 - (first_index f num).toNat : ℕ) : ℤ) = max (significant num : ℤ) (f.width + 1) := by
  have small := significant_le fits
  simp only [first_index, Printf.min, int, Int.bmod] at *
  split <;> split <;> omega

theorem padded_numeral (fits : num < 2 ^ 64) {f : printf_format} (specifier : f.specifier = if upper then code 'X' else code 'x')
    {k : ℕ} (early : k ≤ 16 - significant num ∧ k ≤ 15) : Numeral upper num ((padded (offset_for_hex f) num).drop k) := by
  have text : (padded (offset_for_hex f) num).drop k = List.replicate (16 - significant num - k) (code '0') ++
      (Nat.digits 16 num).reverse.map (hex_digit (if upper then 0x37 else 0x57)) := by
    rw [padded, List.drop_append_of_le_length (by simpa using early.1), List.drop_replicate, digits_text,
      offset_of_specifier specifier]
  have below : ∀ d ∈ Nat.digits 16 num, d < 16 := fun d member => Nat.digits_lt_base (by decide) member
  refine ⟨?_, ?_, ?_⟩
  · -- The last digit is always printed.
    refine List.ne_nil_of_length_pos ?_
    rw [List.length_drop, padded_length _ fits]
    omega
  · intro c member
    rw [text] at member
    rcases List.mem_append.mp member with zero | digit
    · rw [List.eq_of_mem_replicate zero]
      exact (digit_letter upper 0 (by decide)).1
    · simp only [List.mem_map, List.mem_reverse] at digit
      obtain ⟨d, among, rfl⟩ := digit
      exact (digit_letter upper d (below d among)).1
  · rw [text, read_back_zeros, read_back_digits below, Nat.ofDigits_digits]

/-- For every width from 0 to 15 what is printed behind the prefix consists of one or
    more digits of the specifier's case and is the number. -/
theorem hex_reads_back (caller : Caller) (f : printf_format) (specifier : f.specifier = if upper then code 'X' else code 'x')
    (fits : num < 2 ^ 64) (low : 0 ≤ f.width) (high : f.width ≤ 15) (s : Console) : ∃ text,
      print_integer_as_hex caller f num s = .ok () (shown (prefixed f s) (print_text text)) ∧
        text ≠ [] ∧ (∀ c ∈ text, c ∈ letters upper) ∧ read_back upper text = num := by
  have within := (inside_iff fits (by omega) (by omega) f rfl).mpr ⟨by omega, high⟩
  have numeral := padded_numeral fits specifier (first_index_early fits low high)
  refine ⟨(padded (offset_for_hex f) num).drop (first_index f num).toNat, ?_, numeral.nonempty, numeral.letters, numeral.value⟩
  rw [hex_run caller f fits s, if_pos within]

/-- 51966 with a width of 7. -/
theorem hex_reads_back_seven : ∃ text,
    print_integer_as_hex silent { three_wide with width := 7 } 0xcafe ⟨opened fun _ => 0, 0, []⟩ =
        .ok () (shown (prefixed { three_wide with width := 7 } ⟨opened fun _ => 0, 0, []⟩) (print_text text)) ∧
      text ≠ [] ∧ (∀ c ∈ text, c ∈ letters false) ∧ read_back false text = 0xcafe :=
  hex_reads_back silent { three_wide with width := 7 } rfl (by decide) (by decide) (by decide) ⟨opened fun _ => 0, 0, []⟩

end
end OsC.HexDigits
