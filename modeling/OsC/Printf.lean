import OsC.Vga
import OsC.Word

/-!
`terminal_printf`: the loop over the format string, the parsers of a conversion
and the routines that print one. A string is the list of its characters; the
NUL behind them can be read, the bytes behind the NUL cannot.

The arguments are the 8-byte slots that the caller passes. A console records
where a conversion begins, each slot taken and each value that reaches a
printing routine.
-/
namespace OsC.Printf
open OsC.Word OsC.Vga

inductive Fault
  | assertion (text : String)
  /-- A format is read behind its NUL, or a buffer written outside. -/
  | index (i : ℤ)
  | stuck
  deriving DecidableEq

inductive Output
  | conversion
  | took (slot : ℕ)
  | integer (specifier : UInt8) (num : ℕ)
  | char (data : UInt8)
  | string (data : ℕ)
  /-- The buffer of `print_integer_as_hex` is read from an index outside it. -/
  | outside (i : ℤ)
  deriving DecidableEq, Repr

structure Console where
  terminal : Terminal
  next_arg : ℕ
  trace : List Output

/-- What a call finds: the argument slots, the strings at their addresses, and
    those that begin on the stack beside a buffer, at their index from it. -/
structure Caller where
  args : ℕ → UInt64
  strings : ℕ → List UInt8
  stack : ℤ → List UInt8

abbrev Print := EStateM Fault Console

def assert (holds : Bool) (text : String) : Print Unit := if holds then pure () else throw (.assertion text)

def onTerminal (act : Terminal → Terminal) : Print Unit := modify fun s => { s with terminal := act s.terminal }

def record (output : Output) : Print Unit := modify fun s => { s with trace := output :: s.trace }

/-- `str[i]`. -/
def char (str : List UInt8) (i : ℕ) : Print UInt8 :=
  if i < str.length then pure (str.getD i 0) else if i = str.length then pure 0 else throw (.index i)

/-! ### Machine integers -/

/-- A result of type `int`. -/
def int (exact : ℤ) : ℤ := Int.bmod exact (2 ^ 32)

/-- The signed number in the low `w` bits. -/
def signed (w n : ℕ) : ℤ := Int.bmod n (2 ^ w)

/-! ### Formats -/

inductive types
  | INT | S_CHAR | CHAR | SHORT_INT | LONG_INT | LONG_LONG_INT | INTMAX_T | SIZE_T | PTRDIFF_T
  | LONG_DOUBLE | WINT_T | WCHAR_T | VOID | DOUBLE | NO_FORMAT
  deriving DecidableEq, Repr, Inhabited

def NO_FLAGS : ℕ := 0x0
def LEFT_JUSTIFY : ℕ := 0x01
def ALWAYS_SHOW_SIGN : ℕ := 0x02
def ALWAYS_SHOW_SPACE : ℕ := 0x04
def ALWAYS_SHOW_0x_OR_DECIMAL_POINT : ℕ := 0x08
def LEFT_PAD_WITH_ZEROS : ℕ := 0x10

def NONE : ℤ := 0
def FORMAT_ARG_SPECIFIED : ℤ := -2

structure printf_format where
  flags : ℕ
  width : ℤ
  precision : ℤ
  type : types
  is_unsigned : Bool
  is_pointer : Bool
  specifier : UInt8
  deriving DecidableEq, Repr, Inhabited

/-- The code of an ASCII character. -/
def code (c : Char) : UInt8 := UInt8.ofNat c.toNat
def backslash : UInt8 := 92

/-! Each parser reads `str` from `start` and returns an offset, which is never
the `-1` that the callers test for, and the format. -/

def get_flags (format : printf_format) (str : List UInt8) (start : ℕ) : Print (ℕ × printf_format) := do
  let c ← char str start
  if c = code '-' then pure (1, { format with flags := NO_FLAGS ||| LEFT_JUSTIFY })
  else if c = code '+' then pure (1, { format with flags := NO_FLAGS ||| ALWAYS_SHOW_SIGN })
  else if c = code ' ' then pure (1, { format with flags := NO_FLAGS ||| ALWAYS_SHOW_SPACE })
  else if c = code '#' then pure (1, { format with flags := NO_FLAGS ||| ALWAYS_SHOW_0x_OR_DECIMAL_POINT })
  else if c = code '0' then pure (1, { format with flags := NO_FLAGS ||| LEFT_PAD_WITH_ZEROS })
  else pure (0, { format with flags := NO_FLAGS })

def is_digit (c : UInt8) : Bool := code '0' ≤ c && c ≤ code '9'

/-- The loop of `read_decimal`. -/
def read_digits (str : List UInt8) (start : ℕ) : ℕ → ℕ → ℤ → ℤ → Print (ℤ × ℕ)
  | 0, _, _, _ => throw .stuck
  | fuel + 1, i, d, power => do
    let c ← char str (start + i)
    if is_digit c then
      read_digits str start fuel (i + 1) (int (d + int (power * (c.toNat - (code '0').toNat)))) (int (power * 10))
    else pure (d, i)

/-- The number read from `str[start + pos]` on, and the position behind it. -/
def read_decimal (str : List UInt8) (start pos : ℕ) : Print (ℤ × ℕ) := read_digits str start (str.length + 1) pos 0 1

def get_width (format : printf_format) (str : List UInt8) (start : ℕ) : Print (ℕ × printf_format) := do
  let c ← char str start
  if c = code '*' then pure (1, { format with width := FORMAT_ARG_SPECIFIED })
  else
    let (spec, i) ← read_decimal str start 0
    pure (i, { format with width := spec })

def get_precision (format : printf_format) (str : List UInt8) (start : ℕ) : Print (ℕ × printf_format) := do
  let c ← char str start
  if c ≠ code '.' then pure (0, { format with precision := NONE })
  else
    -- What the branch for '*' stores is overwritten by the digits, which are
    -- read from position 1 of a string that itself begins behind the point.
    let _ ← char str (start + 1)
    let (spec, i) ← read_decimal str (start + 1) 1
    pure (i, { format with precision := spec })

/-- The length modifier: its type and the number of its characters. -/
def get_length (str : List UInt8) (start : ℕ) : Print (ℕ × types) := do
  let c ← char str start
  if c = code 'h' then
    let c ← char str (start + 1)
    if c = code 'h' then pure (2, .S_CHAR) else pure (1, .SHORT_INT)
  else if c = code 'l' then
    let c ← char str (start + 1)
    if c = code 'l' then pure (2, .LONG_LONG_INT) else pure (1, .LONG_INT)
  else if c = code 'j' then pure (1, .INTMAX_T)
  else if c = code 'z' then pure (1, .SIZE_T)
  else if c = code 't' then pure (1, .PTRDIFF_T)
  else if c = code 'L' then pure (1, .LONG_DOUBLE)
  else pure (0, .INT)

def get_length_and_specifier (format : printf_format) (str : List UInt8) (start : ℕ) : Print (ℕ × printf_format) := do
  let (i, type) ← get_length str start
  let c ← char str (start + i)
  let format := { format with type, is_unsigned := false, is_pointer := false }
  let format ←
    if c = code 'd' ∨ c = code 'i' then do
      assert (type ≠ .LONG_DOUBLE) "format->type != LONG_DOUBLE"
      pure format
    else if c = code 'u' ∨ c = code 'o' ∨ c = code 'x' ∨ c = code 'X' then
      pure { format with is_unsigned := true }
    else if c ∈ [code 'f', code 'F', code 'e', code 'E', code 'g', code 'G', code 'a', code 'A'] then do
      assert (type = .LONG_DOUBLE ∨ type = .INT) "format->type == LONG_DOUBLE || format->type == INT"
      pure (if type = .INT then { format with type := .DOUBLE } else format)
    else if c = code 'c' then do
      assert (type = .LONG_INT ∨ type = .INT) "format->type == LONG_INT || format->type == INT"
      pure (if type = .LONG_INT then { format with type := .WINT_T } else format)
    else if c = code 's' then do
      assert (type = .LONG_INT ∨ type = .INT) "format->type == LONG_INT || format->type == INT"
      pure { format with is_pointer := true, type := if type = .INT then .CHAR else .WCHAR_T }
    else if c = code 'p' then do
      assert (type = .INT) "format->type == INT"
      pure { format with is_pointer := true, type := .VOID }
    else do
      -- 'n' has no break, so that it comes to the default as well.
      if c = code 'n' then assert (type ≠ .LONG_DOUBLE) "format->type != LONG_DOUBLE"
      assert false "0!=0"
      pure format
  pure (i, { format with specifier := c })

def get_format (format : printf_format) (str : List UInt8) (start : ℕ) : Print (ℕ × printf_format) := do
  let (flags, format) ← get_flags format str start
  let (width, format) ← get_width format str (start + flags)
  let (precision, format) ← get_precision format str (start + flags + width)
  let (length, format) ← get_length_and_specifier format str (start + flags + width + precision)
  pure (flags + width + precision + length, format)

/-! ### Printing a conversion -/

def min (a b : ℤ) : ℤ := if a < b then a else b

/-- `buf[i]`, of the 17 elements of the buffer of `print_integer_as_hex`. -/
def buf_write (buf : List UInt8) (i : ℤ) (c : UInt8) : Print (List UInt8) :=
  if 0 ≤ i ∧ i < buf.length then pure (buf.set i.toNat c) else throw (.index i)

/-- The digits of `num`, written from the end of the buffer. -/
def write_digits (offset_for_hex : UInt8) : ℕ → List UInt8 → ℤ → ℕ → Print (List UInt8)
  | 0, _, _, _ => throw .stuck
  | fuel + 1, buf, i, num =>
    if num > 0 then do
      let end_digit := num % 16
      let c := if end_digit < 10 then UInt8.ofNat end_digit + 0x30 else UInt8.ofNat end_digit + offset_for_hex
      let buf ← buf_write buf i c
      write_digits offset_for_hex fuel buf (i - 1) (num >>> 4)
    else pure buf

def print_integer_as_hex (caller : Caller) (format : printf_format) (num : ℕ) : Print Unit := do
  let offset_for_hex : UInt8 := if format.specifier = code 'X' then 0x37 else 0x57
  let buf ← write_digits offset_for_hex 17 (List.replicate 16 (code '0') ++ [0]) 15 num
  let i : ℤ := min ((buf.take 16).findIdx (· ≠ code '0')) (int (15 - format.width))
  if format.flags &&& ALWAYS_SHOW_0x_OR_DECIMAL_POINT ≠ 0 then
    onTerminal (print_text (chars (if format.specifier = code 'X' then "0X" else "0x")))
  if 0 ≤ i ∧ i < buf.length then onTerminal (print_text ((buf.take 16).drop i.toNat))
  else do
    record (.outside i)
    onTerminal (print_text (caller.stack i))

def print_integer_as_decimal (_format : printf_format) (_num : ℕ) : Print Unit := pure ()

def print_integer (caller : Caller) (format : printf_format) (num : ℕ) : Print Unit := do
  record (.integer format.specifier num)
  if format.specifier = code 'X' ∨ format.specifier = code 'x' then print_integer_as_hex caller format num
  else print_integer_as_decimal format num

/-! The typed wrappers pass on their argument as a `size_t`. -/

def print_unsigned_int (caller : Caller) (format : printf_format) (data : ℕ) : Print Unit := print_integer caller format data
def print_signed_int (caller : Caller) (format : printf_format) (data : ℤ) : Print Unit := print_integer caller format (wrap data)
def print_short_int (caller : Caller) (format : printf_format) (data : ℤ) : Print Unit := print_integer caller format (wrap data)
def print_long_int (caller : Caller) (format : printf_format) (data : ℤ) : Print Unit := print_integer caller format (wrap data)
def print_long_long_int (caller : Caller) (format : printf_format) (data : ℤ) : Print Unit := print_integer caller format (wrap data)
def print_intmax_t (caller : Caller) (format : printf_format) (data : ℤ) : Print Unit := print_integer caller format (wrap data)
def print_size_t (caller : Caller) (format : printf_format) (data : ℕ) : Print Unit := print_integer caller format data
def print_ptrdiff_t (caller : Caller) (format : printf_format) (data : ℤ) : Print Unit := print_integer caller format (wrap data)

def print_char (data : UInt8) : Print Unit := do
  record (.char data)
  onTerminal fun t => terminal_put_char (make_vga_char data t.default_color) t

def print_string (caller : Caller) (data : ℕ) : Print Unit := do
  record (.string data)
  onTerminal fun t =>
    (caller.strings data).foldl (fun t c => terminal_put_char (make_vga_char c t.default_color) t) t

/-! ### `terminal_printf` -/

/-- `va_arg`: the next slot. -/
def va_arg (caller : Caller) : Print ℕ := do
  let s ← get
  record (.took s.next_arg)
  modify fun s => { s with next_arg := s.next_arg + 1 }
  pure (caller.args s.next_arg).toNat

/-- The second switch: what is fetched for a format, and how it is printed. The
    floating arguments are not passed in the slots, and nothing is printed for them. -/
def print_conversion (caller : Caller) (format : printf_format) : Print Unit :=
  match format.type with
  | .NO_FORMAT => pure ()
  | .INT => do
    let slot ← va_arg caller
    if format.is_unsigned then print_unsigned_int caller format (slot % 2 ^ 32) else print_signed_int caller format (signed 32 slot)
  | .S_CHAR => pure ()
  | .CHAR => do
    let slot ← va_arg caller
    if format.is_pointer then print_string caller (wrap (signed 32 slot)) else print_char (UInt8.ofNat slot)
  | .SHORT_INT => do
    let slot ← va_arg caller
    print_short_int caller format (signed 16 slot)
  | .LONG_INT => do
    let slot ← va_arg caller
    print_long_int caller format (signed 64 slot)
  | .LONG_LONG_INT => do
    let slot ← va_arg caller
    print_long_long_int caller format (signed 64 slot)
  | .INTMAX_T => do
    let slot ← va_arg caller
    print_intmax_t caller format (signed 64 slot)
  | .SIZE_T => do
    let slot ← va_arg caller
    print_size_t caller format slot
  | .PTRDIFF_T => do
    let slot ← va_arg caller
    print_ptrdiff_t caller format (signed 64 slot)
  | .LONG_DOUBLE => pure ()
  | .WINT_T => pure ()
  | .WCHAR_T => do
    let _ ← va_arg caller
    pure ()
  | .DOUBLE => pure ()
  | .VOID => assert false "0!=0"

/-- The width and precision that are taken from an argument. -/
def take_argument (caller : Caller) (n : ℤ) : Print ℤ :=
  if n = FORMAT_ARG_SPECIFIED then do
    let slot ← va_arg caller
    pure (signed 32 slot)
  else pure n

/-- A character outside a conversion. -/
def put_plain (c : UInt8) (t : Terminal) : Terminal :=
  if c = newline then print_newline t
  else if c = tab then print_tab t
  else terminal_put_char (make_vga_char c t.default_color) t

/-- One turn of the loop, with the position of the last character it used. -/
def printf_turn (caller : Caller) (str : List UInt8) (i : ℕ) : Print ℕ := do
  let c ← char str i
  if c = backslash then
    let c ← char str (i + 1)
    onTerminal (put_plain c)
    pure (i + 1)
  else if c = code '%' then
    let c ← char str (i + 1)
    if c ≠ code '%' then
      record .conversion
      let (n, format) ← get_format default str (i + 1)
      let width ← take_argument caller format.width
      let precision ← take_argument caller format.precision
      print_conversion caller { format with width, precision }
      pure (i + 1 + n)
    else
      onTerminal (put_plain c)
      pure (i + 1)
  else
    onTerminal (put_plain c)
    pure i

def printf_loop (caller : Caller) (str : List UInt8) : ℕ → ℕ → Print Unit
  | 0, _ => throw .stuck
  | fuel + 1, i =>
    if i < str.length then do
      let i ← printf_turn caller str i
      printf_loop caller str fuel (i + 1)
    else pure ()

def terminal_printf (caller : Caller) (str : List UInt8) : Print Unit := do
  modify fun s => { s with next_arg := 0 }
  printf_loop caller str (str.length + 1) 0

end OsC.Printf
