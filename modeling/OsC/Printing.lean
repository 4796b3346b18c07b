import OsC.Screen
import OsC.PrintfLoop

/-!
Printing refines a list of lines. Whatever is printed from a cleared screen,
through any of the printing functions, the buffer shows the last 25 lines of
the output (`printing_shows_lines`).
-/
namespace OsC.Printing
open OsC.Loop OsC.Vga OsC.Printf OsC.PrintfLoop OsC.Screen

/-- A call of a printing function. -/
inductive Call
  | print_text (text : List UInt8)
  | terminal_print_char (c : UInt8)
  | print_newline
  | terminal_printf (str : List UInt8)
  deriving DecidableEq, Repr

def Call.perform (caller : Caller) : Call → Print Unit
  | .print_text text => onTerminal (Vga.print_text text)
  | .terminal_print_char c => onTerminal (Vga.terminal_print_char c)
  | .print_newline => onTerminal Vga.print_newline
  | .terminal_printf str => Printf.terminal_printf caller str

/-- The format strings of the calls have neither a percent sign nor a backslash. -/
def Call.Literal : Call → Prop
  | .terminal_printf str => ∀ c ∈ str, Ordinary c
  | _ => True

/-- A character of the printers that know no tab. -/
def char_item (c : UInt8) : Item := if c = newline then .newline else .glyph c
/-- A character of `terminal_printf`. -/
def plain_item (c : UInt8) : Item := if c = newline then .newline else if c = tab then .tab else .glyph c

/-- What a call prints. -/
def Call.items : Call → List Item
  | .print_text text => text.map char_item
  | .terminal_print_char c => [char_item c]
  | .print_newline => [.newline]
  | .terminal_printf str => str.map plain_item

/-- The lines of the output: broken at each newline and behind the 80th character. -/
def page (items : List Item) : Page := items.foldl Page.put Page.empty

theorem print_char_item (c : UInt8) (t : Terminal) : terminal_print_char c t = print_item t (char_item c) := by
  by_cases break_ : c = newline
  · simp [terminal_print_char, char_item, break_, print_item]
  · simp [terminal_print_char, char_item, break_, print_item]

theorem print_text_items (text : List UInt8) (t : Terminal) :
    print_text text t = (text.map char_item).foldl print_item t := by
  rw [List.foldl_map]
  refine congrArg (fun act => text.foldl act t) ?_
  funext t c
  exact print_char_item c t

theorem put_plain_item (c : UInt8) (t : Terminal) : put_plain c t = print_item t (plain_item c) := by
  by_cases break_ : c = newline
  · simp [put_plain, plain_item, break_, print_item]
  · by_cases isTab : c = tab
    · have other : tab ≠ newline := by decide
      simp [put_plain, plain_item, isTab, other, print_item]
    · simp [put_plain, plain_item, break_, isTab, print_item]

/-- Each call prints its items. -/
theorem perform_items (caller : Caller) {c : Call} (literal : c.Literal) (s : Console) :
    ∃ s', c.perform caller s = .ok () s' ∧ s'.terminal = c.items.foldl print_item s.terminal := by
  cases c with
  | print_text text => exact ⟨_, rfl, print_text_items text s.terminal⟩
  | terminal_print_char c => exact ⟨_, rfl, print_char_item c s.terminal⟩
  | print_newline => exact ⟨_, rfl, rfl⟩
  | terminal_printf str =>
    refine ⟨_, terminal_printf_ordinary literal s, ?_⟩
    have each : (fun t c => put_plain c t) = fun t c => print_item t (plain_item c) := by
      funext t c
      exact put_plain_item c t
    rw [Call.items, List.foldl_map, each]

theorem perform_all_items (caller : Caller) {calls : List Call} (literal : ∀ c ∈ calls, c.Literal) (s : Console) :
    ∃ s', calls.forM (Call.perform caller) s = .ok () s' ∧
      s'.terminal = (calls.flatMap Call.items).foldl print_item s.terminal := by
  induction calls generalizing s with
  | nil => exact ⟨s, rfl, rfl⟩
  | cons c calls ih =>
    obtain ⟨s₁, ran, printed⟩ := perform_items caller (literal c List.mem_cons_self) s
    obtain ⟨s₂, ran', printed'⟩ := ih (fun d member => literal d (List.mem_cons_of_mem c member)) s₁
    refine ⟨s₂, ?_, ?_⟩
    · exact (bind_ok ran _).trans ran'
    · rw [printed', printed, List.flatMap_cons, List.foldl_append]

/-- From a cleared screen, with any content of the buffer before it, any calls
    leave the last 25 lines of their output on the screen, padded with spaces,
    and the cursor at the end of the last one; no store leaves the screen. -/
theorem printing_shows_lines {caller : Caller} {calls : List Call} (literal : ∀ c ∈ calls, c.Literal)
    {buffer : ℕ → vga_char} {s : Console} (cleared : s.terminal = clear_terminal (opened buffer)) :
    ∃ s', calls.forM (Call.perform caller) s = .ok () s' ∧
      Shows (opened buffer).default_color s'.terminal (page (calls.flatMap Call.items)) := by
  obtain ⟨s', ran, printed⟩ := perform_all_items caller literal s
  refine ⟨s', ran, ?_⟩
  rw [printed, cleared]
  exact print_items_shows (clear_terminal_shows buffer) _

/-- A caller that passes nothing. -/
def nothing : Caller where
  args := fun _ => 0
  strings := fun _ => []
  stack := fun _ => []

theorem printing_shows_lines_two : ∃ s',
    [Call.terminal_printf (chars "a\tb"), .print_newline, .print_text (chars "x")].forM (Call.perform nothing)
      ⟨clear_terminal (opened fun _ => 0), 0, []⟩ = .ok () s' ∧
      Shows 10 s'.terminal ⟨[chars "a   b"], chars "x"⟩ := by
  have literal : ∀ c ∈ [Call.terminal_printf (chars "a\tb"), .print_newline, .print_text (chars "x")], c.Literal := by
    intro c member
    simp only [List.mem_cons, List.not_mem_nil, or_false] at member
    rcases member with rfl | rfl | rfl
    · show ∀ c ∈ chars "a\tb", c ≠ backslash ∧ c ≠ code '%'
      decide +kernel
    · trivial
    · trivial
  obtain ⟨s, cleared⟩ : ∃ s : Console, s = ⟨clear_terminal (opened fun _ => 0), 0, []⟩ := ⟨_, rfl⟩
  have screen : s.terminal = clear_terminal (opened fun _ => 0) := by rw [cleared]
  rw [← cleared]
  exact printing_shows_lines literal screen

end OsC.Printing
