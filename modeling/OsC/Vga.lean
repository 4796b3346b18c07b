import Mathlib.Logic.Function.Basic
import Mathlib.Data.Nat.Notation

/-!
The text screen. A cell of the buffer holds a character and its colour. The
cursor fields are named the wrong way round: `row` counts the cells of a line
and `col` the lines, and so do `row_max` and `col_max`.

A terminal also records the stores that it made, by the coordinates that
the code computes for them.
-/
namespace OsC.Vga

def COL_MAX : ℕ := 25
def ROW_MAX : ℕ := 80

def tab_space_num : ℕ := 4

def VGA_COLOR_BLACK : UInt8 := 0
def VGA_COLOR_LIGHT_GREEN : UInt8 := 10

abbrev vga_color := UInt8
abbrev vga_char := UInt16

def make_vga_color (fg bg : UInt8) : vga_color := fg ||| bg <<< 4

def make_vga_char (uc : UInt8) (color : vga_color) : vga_char := uc.toUInt16 ||| color.toUInt16 <<< 8

/-- The characters of a string, without the NUL behind them. -/
def chars (s : String) : List UInt8 := s.toList.map fun c => UInt8.ofNat c.toNat

def newline : UInt8 := 10
def tab : UInt8 := 9
def space : UInt8 := 32

/-- A store to the cell at `x` of line `y`: of a printed character, of a space
    by a loop that clears cells, or of the cell below. -/
inductive Event
  | printed (x y : ℕ)
  | blanked (x y : ℕ)
  | moved (x y : ℕ)
  deriving DecidableEq, Repr

structure Terminal where
  col : ℕ
  row : ℕ
  default_color : vga_color
  buffer : ℕ → vga_char
  col_max : ℕ
  row_max : ℕ
  trace : List Event

/-- With the event that the store is recorded as. -/
def terminal_put_char_at (event : ℕ → ℕ → Event) (c : vga_char) (x y : ℕ) (t : Terminal) : Terminal :=
  { t with buffer := Function.update t.buffer (x + y * t.row_max) c, trace := event x y :: t.trace }

def clear_terminal (t : Terminal) : Terminal :=
  (List.range t.row_max).foldl (fun t x =>
    (List.range t.col_max).foldl (fun t y =>
      terminal_put_char_at .blanked (make_vga_char space t.default_color) x y t) t) t

/-- The body of the first loop of `scroll_terminal`. -/
def move_up (x y : ℕ) (t : Terminal) : Terminal :=
  { t with buffer := Function.update t.buffer (x + y * t.row_max) (t.buffer (x + (1 + y) * t.row_max))
           trace := .moved x y :: t.trace }

def scroll_terminal (t : Terminal) : Terminal :=
  let t := (List.range t.row_max).foldl (fun t x =>
    (List.range (t.col_max - 1)).foldl (fun t y => move_up x y t) t) t
  (List.range t.row_max).foldl (fun t x =>
    terminal_put_char_at .blanked (make_vga_char space t.default_color) x (t.col_max - 1) t) t

def print_newline (t : Terminal) : Terminal :=
  let t := { t with row := 0, col := t.col + 1 }
  if t.col = t.col_max then
    let t := scroll_terminal t
    { t with col := t.col - 1 }
  else t

/-! ### The steps of `terminal_put_char` -/

/-- The character goes to the cell under the cursor. -/
def store_cell (c : vga_char) (t : Terminal) : Terminal := terminal_put_char_at .printed c t.row t.col t
def advance (t : Terminal) : Terminal := { t with row := t.row + 1 }
/-- The branch taken when the line is full. -/
def wrap_line (t : Terminal) : Terminal := print_newline { t with row := 0 }

def terminal_put_char (c : vga_char) (t : Terminal) : Terminal :=
  let t := advance (store_cell c t)
  if t.row = t.row_max then wrap_line t else t

/-! ### Printing -/

def terminal_print_char (c : UInt8) (t : Terminal) : Terminal :=
  if c = newline then print_newline t else terminal_put_char (make_vga_char c t.default_color) t

def print_text (text : List UInt8) (t : Terminal) : Terminal :=
  text.foldl (fun t c =>
    if c = newline then print_newline t else terminal_put_char (make_vga_char c t.default_color) t) t

def print_tab (t : Terminal) : Terminal :=
  let cur_col := t.row
  let spaces_needed := tab_space_num - cur_col % tab_space_num
  if spaces_needed + cur_col ≥ ROW_MAX then print_newline t
  else
    let sp := make_vga_char space t.default_color
    (List.range spaces_needed).foldl (fun t _ => terminal_put_char sp t) t

/-- The screen that `init_terminal` clears, with any content of the buffer. -/
def opened (buffer : ℕ → vga_char) : Terminal where
  col := 0
  row := 0
  default_color := make_vga_color VGA_COLOR_LIGHT_GREEN VGA_COLOR_BLACK
  buffer := buffer
  col_max := COL_MAX
  row_max := ROW_MAX
  trace := []

def init_terminal (buffer : ℕ → vga_char) : Terminal :=
  print_text (chars "Terminal init completed.\n") (clear_terminal (opened buffer))

end OsC.Vga
