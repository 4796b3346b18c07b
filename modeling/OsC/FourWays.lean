import OsC.Printing
import OsC.Word

/-!
Four ways of printing a string: `print_text`, its characters one by one,
`terminal_printf` and its `%s`. The first three agree on text without special
characters; `%s` puts the glyph of a newline where the others break the line
(`four_ways_iff`).
-/
namespace OsC.FourWays
open OsC.Loop OsC.Word OsC.Vga OsC.Printf OsC.PrintfLoop OsC.Screen

/-- Two terminals with the same buffer and cursor. -/
structure Same (t u : Terminal) : Prop where
  buffer : t.buffer = u.buffer
  row : t.row = u.row
  col : t.col = u.col

/-- The format `%s`. -/
def string_format : List UInt8 := [code '%', code 's']

/-- The pointer that the code takes from the first argument is to the text. -/
def Passes (caller : Caller) (text : List UInt8) : Prop := caller.strings (wrap (signed 32 (caller.args 0).toNat)) = text

/-- The other ways leave what `print_text` leaves. -/
structure Agree (caller : Caller) (text : List UInt8) (s : Console) : Prop where
  chars : Same (text.foldl (fun t c => terminal_print_char c t) s.terminal) (print_text text s.terminal)
  printf : ∃ s', terminal_printf caller text s = .ok () s' ∧ Same s'.terminal (print_text text s.terminal)
  string : ∃ s', terminal_printf caller string_format s = .ok () s' ∧ Same s'.terminal (print_text text s.terminal)

/-- A screen of 25 lines of 80 cells, with the cursor on one of them. -/
structure Standard (t : Terminal) : Prop where
  sized : Sized t.default_color t
  row : t.row < ROW_MAX
  col : t.col < COL_MAX

/-- A character that `terminal_printf`, newlines apart, does not take for a special one. -/
def Plain (c : UInt8) : Prop := c ≠ code '%' ∧ c ≠ backslash ∧ c ≠ tab

/-- The text as glyphs, newlines too. -/
def glyphs (text : List UInt8) (t : Terminal) : Terminal :=
  text.foldl (fun t c => terminal_put_char (make_vga_char c t.default_color) t) t

section
variable {caller : Caller} {text : List UInt8} {s : Console} {t : Terminal} {c : UInt8}

theorem Same.refl (t : Terminal) : Same t t := ⟨rfl, rfl, rfl⟩

theorem string_run (passes : Passes caller text) (s : Console) :
    ∃ s', terminal_printf caller string_format s = .ok () s' ∧ s'.terminal = glyphs text s.terminal := by
  have ran : ∃ s', terminal_printf caller string_format s = .ok () s' ∧
      s'.terminal = glyphs (caller.strings (wrap (signed 32 (caller.args 0).toNat))) s.terminal := ⟨_, rfl, rfl⟩
  rw [passes] at ran
  exact ran

/-! ### Where they agree -/

theorem put_plain_eq (plain : Plain c) (t : Terminal) : put_plain c t = terminal_print_char c t := by
  rw [put_plain, terminal_print_char, if_neg plain.2.2]

theorem put_plain_text (plain : ∀ c ∈ text, Plain c) (t : Terminal) :
    text.foldl (fun t c => put_plain c t) t = print_text text t := by
  induction text generalizing t with
  | nil => rfl
  | cons c text ih =>
    rw [List.foldl_cons, put_plain_eq (plain c List.mem_cons_self), ih fun d member => plain d (List.mem_cons_of_mem c member)]
    rfl

theorem glyphs_eq (oneLine : newline ∉ text) (t : Terminal) : glyphs text t = print_text text t := by
  induction text generalizing t with
  | nil => rfl
  | cons c text ih =>
    simp only [List.mem_cons, not_or] at oneLine
    have first : ¬ c = newline := fun same => oneLine.1 same.symm
    rw [glyphs, print_text, List.foldl_cons, List.foldl_cons, if_neg first]
    exact ih oneLine.2 _

theorem printf_run (caller : Caller) (plain : ∀ c ∈ text, Plain c) (s : Console) :
    ∃ s', terminal_printf caller text s = .ok () s' ∧ s'.terminal = print_text text s.terminal := by
  have ordinary : ∀ c ∈ text, Ordinary c := fun c member => ⟨(plain c member).2.1, (plain c member).1⟩
  exact ⟨_, terminal_printf_ordinary ordinary s, put_plain_text plain s.terminal⟩

theorem agree_iff (plain : ∀ c ∈ text, Plain c) (passes : Passes caller text) (s : Console) :
    Agree caller text s ↔ Same (glyphs text s.terminal) (print_text text s.terminal) := by
  obtain ⟨s', ran, shows⟩ := string_run passes s
  constructor
  · rintro ⟨-, -, s'', ran', same⟩
    rw [ran] at ran'
    cases ran'
    rw [← shows]
    exact same
  · intro same
    obtain ⟨s'', ran'', shows'⟩ := printf_run caller plain s
    refine ⟨Same.refl _, ⟨s'', ran'', ?_⟩, s', ran, ?_⟩
    · rw [shows']
      exact Same.refl _
    · rw [shows]
      exact same

/-! ### Where they differ -/

theorem newline_row (sized : Sized t.default_color t) :
    (print_newline t).row = 0 ∧ Sized (print_newline t).default_color (print_newline t) := by
  have next : Sized t.default_color { t with row := 0, col := t.col + 1 } := ⟨sized.row_max, sized.col_max, rfl⟩
  rw [print_newline]
  split
  · rw [scroll_terminal_eq 0 next]
    exact ⟨rfl, sized.row_max, sized.col_max, rfl⟩
  · exact ⟨rfl, sized.row_max, sized.col_max, rfl⟩

theorem put_char_row (c : vga_char) (sized : Sized t.default_color t) (inside : t.row < 80) :
    (terminal_put_char c t).row = (t.row + 1) % 80 ∧
      Sized (terminal_put_char c t).default_color (terminal_put_char c t) := by
  have stored : Sized (advance (store_cell c t)).default_color (advance (store_cell c t)) := ⟨sized.row_max, sized.col_max, rfl⟩
  have wide : t.row_max = 80 := sized.row_max
  rw [terminal_put_char]
  by_cases full : (advance (store_cell c t)).row = (advance (store_cell c t)).row_max
  · have atEnd : t.row + 1 = t.row_max := full
    obtain ⟨row, kept⟩ := newline_row (t := { advance (store_cell c t) with row := 0 }) ⟨sized.row_max, sized.col_max, rfl⟩
    rw [if_pos full, wrap_line]
    exact ⟨by rw [row]; omega, kept⟩
  · have notEnd : ¬ t.row + 1 = t.row_max := full
    rw [if_neg full]
    refine ⟨?_, stored⟩
    show t.row + 1 = _
    omega

/-- Glyphs move the cursor on along the lines. -/
theorem glyphs_row (text : List UInt8) (sized : Sized t.default_color t) (inside : t.row < 80) :
    (glyphs text t).row = (t.row + text.length) % 80 := by
  induction text generalizing t with
  | nil => exact (Nat.mod_eq_of_lt inside).symm
  | cons c text ih =>
    obtain ⟨row, kept⟩ := put_char_row (make_vga_char c t.default_color) sized inside
    have rest := ih kept (by rw [row]; omega)
    rw [glyphs, List.foldl_cons, List.length_cons]
    refine rest.trans ?_
    rw [row]
    omega

/-- Printing keeps a screen's size and its cursor on a line. -/
theorem print_text_sized (text : List UInt8) (sized : Sized t.default_color t) (inside : t.row < 80) :
    Sized (print_text text t).default_color (print_text text t) := by
  induction text generalizing t with
  | nil => exact sized
  | cons c text ih =>
    rw [print_text, List.foldl_cons]
    split
    · obtain ⟨row, kept⟩ := newline_row sized
      exact ih kept (by rw [row]; omega)
    · obtain ⟨row, kept⟩ := put_char_row (make_vga_char c t.default_color) sized inside
      exact ih kept (by rw [row]; omega)

/-- The last newline leaves the cursor where the text behind it ends. -/
theorem print_text_row (before : List UInt8) {after : List UInt8} (oneLine : newline ∉ after) (sized : Sized t.default_color t)
    (inside : t.row < 80) : (print_text (before ++ newline :: after) t).row = after.length % 80 := by
  obtain ⟨row, kept⟩ := newline_row (print_text_sized before sized inside)
  have rest := glyphs_row after kept (by rw [row]; omega)
  rw [row, Nat.zero_add, glyphs_eq oneLine] at rest
  rw [print_text, List.foldl_append, List.foldl_cons, if_pos rfl]
  exact rest

/-- A cleared screen with the cursor in the first line. -/
def at_column (x : ℕ) : Console := ⟨{ opened fun _ => 0 with row := x }, 0, []⟩

theorem at_column_standard {x : ℕ} (inside : x < 80) : Standard (at_column x).terminal :=
  ⟨⟨rfl, rfl, rfl⟩, inside, Nat.zero_lt_succ 24⟩

/-- From one of the first two columns the cursor ends elsewhere. -/
theorem differ (broken : newline ∈ text) : ∃ x < 2, ¬ Same (glyphs text (at_column x).terminal)
    (print_text text (at_column x).terminal) := by
  obtain ⟨before, after, split, oneLine⟩ : ∃ before after, text = before ++ newline :: after ∧ newline ∉ after := by
    obtain ⟨after, before, split, oneLine⟩ := List.eq_append_cons_of_mem (List.mem_reverse.mpr broken)
    refine ⟨before.reverse, after.reverse, ?_, by simpa using oneLine⟩
    rw [← List.reverse_reverse text, split]
    simp
  by_contra none
  have agree : ∀ x < 2, Same (glyphs text (at_column x).terminal) (print_text text (at_column x).terminal) :=
    fun x less => by_contra fun different => none ⟨x, less, different⟩
  have rows : ∀ x < 2, (x + text.length) % 80 = after.length % 80 := by
    intro x less
    have standard := at_column_standard (x := x) (by omega)
    have glyph := glyphs_row text standard.sized standard.row
    have line := print_text_row before oneLine standard.sized standard.row
    rw [← split, ← (agree x less).row, glyph] at line
    exact line
  have first := rows 0 (by omega)
  have second := rows 1 (by omega)
  omega

/-- The four ways agree on every screen exactly for the strings without a newline; for
    these they agree whatever the state. -/
theorem four_ways_iff (plain : ∀ c ∈ text, Plain c) (passes : Passes caller text) :
    ((∀ s : Console, Standard s.terminal → Agree caller text s) ↔ newline ∉ text) ∧
      (newline ∉ text → ∀ s : Console, Agree caller text s) := by
  have agreed : newline ∉ text → ∀ s : Console, Agree caller text s := by
    intro oneLine s
    rw [agree_iff plain passes, glyphs_eq oneLine]
    exact Same.refl _
  refine ⟨⟨?_, fun oneLine s _ => agreed oneLine s⟩, agreed⟩
  intro agree broken
  obtain ⟨x, less, different⟩ := differ broken
  have standard := at_column_standard (x := x) (by omega)
  exact different ((agree_iff plain passes _).mp (agree _ standard))

end

/-- A caller whose first argument points to the text. -/
def pointing (text : List UInt8) : Caller := ⟨fun _ => 0x1000, fun data => if data = 0x1000 then text else [], fun _ => []⟩

theorem pointing_passes (text : List UInt8) : Passes (pointing text) text := by
  have address : wrap (signed 32 (0x1000 : UInt64).toNat) = 0x1000 := by decide +kernel
  have passed : wrap (signed 32 ((pointing text).args 0).toNat) = 0x1000 := address
  rw [Passes, passed]
  rfl

theorem four_ways_iff_word :
    ((∀ s : Console, Standard s.terminal → Agree (pointing [111, 107]) [111, 107] s) ↔ newline ∉ ([111, 107] : List UInt8)) ∧
      (newline ∉ ([111, 107] : List UInt8) → ∀ s : Console, Agree (pointing [111, 107]) [111, 107] s) :=
  four_ways_iff (fun c member => by
    rcases List.mem_cons.mp member with rfl | rest
    · exact ⟨by decide, by decide, by decide⟩
    · rw [List.mem_singleton.mp rest]
      exact ⟨by decide, by decide, by decide⟩) (pointing_passes _)

/-- A single newline is printed as a glyph by `%s`. -/
theorem newline_differs : Passes (pointing [newline]) [newline] ∧ Plain newline ∧ Standard (at_column 0).terminal ∧
    ¬ Agree (pointing [newline]) [newline] (at_column 0) := by
  have plain : Plain newline := ⟨by decide, by decide, by decide⟩
  have standard := at_column_standard (x := 0) (by decide)
  refine ⟨pointing_passes _, plain, standard, fun agree => ?_⟩
  have same := (agree_iff (by simpa using plain) (pointing_passes _) _).mp agree
  have glyph := glyphs_row [newline] standard.sized standard.row
  have line := print_text_row [] List.not_mem_nil standard.sized standard.row
  rw [same.row] at glyph
  exact absurd (line.symm.trans glyph) (by decide)
end OsC.FourWays
