import OsC.Vga

/-!
The screen as the end of a list of lines. Characters go to the last line, which
is broken at a newline and behind its 80th character; the buffer shows the last
25 lines, padded with spaces, and the cursor stands at the end of the last one
(`Shows`). Printing a character, a newline or a tab keeps this.
-/
namespace OsC.Screen
open OsC.Vga

/-! ### Stores to cells of any kind -/

section
variable {α : Type} {ink blank : α} {cells : ℕ → α}

def index : Event → ℕ
  | .printed x y => x + y * ROW_MAX
  | .blanked x y => x + y * ROW_MAX
  | .moved x y => x + y * ROW_MAX

/-- Cells after a store, with `ink` for a printed character. -/
def stored (ink blank : α) (cells : ℕ → α) : Event → ℕ → α
  | .printed x y => Function.update cells (x + y * ROW_MAX) ink
  | .blanked x y => Function.update cells (x + y * ROW_MAX) blank
  | .moved x y => Function.update cells (x + y * ROW_MAX) (cells (x + (1 + y) * ROW_MAX))

/-- The stores of `scroll_terminal` and of `clear_terminal`, in order. -/
def move_stores : List Event := (List.range ROW_MAX).flatMap fun x => (List.range (COL_MAX - 1)).map (.moved x)
def last_stores : List Event := (List.range ROW_MAX).map (.blanked · (COL_MAX - 1))
def scroll_stores : List Event := move_stores ++ last_stores
def clear_stores : List Event := (List.range ROW_MAX).flatMap fun x => (List.range COL_MAX).map (.blanked x)

/-- Moving up the first `k` cells of a column. -/
theorem column_cells {x : ℕ} (inside : x < 80) (k i : ℕ) :
    (((List.range k).map (Event.moved x)).foldl (stored ink blank) cells) i =
      if i % 80 = x ∧ i / 80 < k then cells (i + 80) else cells i := by
  induction k generalizing i with
  | zero => simp
  | succ k ih =>
    simp only [List.range_succ, List.map_append, List.map_cons, List.map_nil, List.foldl_append, List.foldl_cons,
      List.foldl_nil, stored, ROW_MAX]
    by_cases here : i = x + k * 80
    · rw [here, Function.update_self, ih, if_neg (by omega), if_pos (by omega)]
      congr 1
      omega
    · rw [Function.update_of_ne here, ih]
      refine if_congr ?_ rfl rfl
      omega

theorem columns_cells {n : ℕ} (inside : n ≤ 80) (i : ℕ) :
    (((List.range n).flatMap fun x => (List.range 24).map (Event.moved x)).foldl (stored ink blank) cells) i =
      if i % 80 < n ∧ i / 80 < 24 then cells (i + 80) else cells i := by
  induction n generalizing i with
  | zero => simp
  | succ n ih =>
    rw [List.range_succ (n := n), List.flatMap_append, List.foldl_append]
    simp only [List.flatMap_cons, List.flatMap_nil, List.append_nil]
    rw [column_cells (by omega), ih (by omega), ih (by omega)]
    by_cases column : i % 80 = n
    · by_cases above : i / 80 < 24
      · rw [if_pos ⟨column, above⟩, if_neg (by omega), if_pos (by omega)]
      · rw [if_neg (by omega), if_neg (by omega), if_neg (by omega)]
    · rw [if_neg (by omega)]
      refine if_congr ?_ rfl rfl
      omega

theorem last_cells (n i : ℕ) :
    (((List.range n).map (Event.blanked · 24)).foldl (stored ink blank) cells) i =
      if 1920 ≤ i ∧ i < 1920 + n then blank else cells i := by
  induction n generalizing i with
  | zero => rw [if_neg (by omega)]; rfl
  | succ n ih =>
    simp only [List.range_succ, List.map_append, List.map_cons, List.map_nil, List.foldl_append, List.foldl_cons,
      List.foldl_nil, stored, ROW_MAX]
    by_cases here : i = n + 24 * 80
    · rw [here, Function.update_self, if_pos (by omega)]
    · rw [Function.update_of_ne here, ih]
      refine if_congr ?_ rfl rfl
      omega

/-- Every cell of the screen moves up a line, and the last line is blank. -/
theorem scroll_cells (i : ℕ) : (scroll_stores.foldl (stored ink blank) cells) i =
    if i < 1920 then cells (i + 80) else if i < 2000 then blank else cells i := by
  have moved : (move_stores.foldl (stored ink blank) cells) i =
      if i % 80 < 80 ∧ i / 80 < 24 then cells (i + 80) else cells i := columns_cells (Nat.le_refl 80) i
  rw [scroll_stores, List.foldl_append]
  show (((List.range 80).map (Event.blanked · 24)).foldl (stored ink blank) _) i = _
  rw [last_cells]
  by_cases last : 1920 ≤ i ∧ i < 1920 + 80
  · rw [if_pos last, if_neg (by omega), if_pos (by omega)]
  · rw [if_neg last]
    refine moved.trans ?_
    by_cases above : i < 1920
    · rw [if_pos (by omega), if_pos above]
    · rw [if_neg (by omega), if_neg above, if_neg (by omega)]

/-- A cell that is blank stays so while cells are blanked. -/
theorem blanked_keeps {stores : List Event} {i : ℕ} (all : ∀ e ∈ stores, ∃ x y, e = .blanked x y)
    (isBlank : cells i = blank) : (stores.foldl (stored ink blank) cells) i = blank := by
  induction stores generalizing cells with
  | nil => exact isBlank
  | cons e stores ih =>
    obtain ⟨x, y, rfl⟩ := all e List.mem_cons_self
    refine ih (fun e member => all e (List.mem_cons_of_mem _ member)) ?_
    by_cases here : i = x + y * ROW_MAX
    · subst here
      exact Function.update_self _ _ _
    · exact (Function.update_of_ne here _ _).trans isBlank

theorem clear_blanked : ∀ e ∈ clear_stores, ∃ x y, e = .blanked x y := by
  intro e member
  simp only [clear_stores, List.mem_flatMap, List.mem_map] at member
  obtain ⟨x, _, y, _, rfl⟩ := member
  exact ⟨x, y, rfl⟩

theorem clear_cells {i : ℕ} (inside : i < 2000) : (clear_stores.foldl (stored ink blank) cells) i = blank := by
  have all := clear_blanked
  have member : Event.blanked (i % 80) (i / 80) ∈ clear_stores := by
    simp only [clear_stores, List.mem_flatMap, List.mem_map, List.mem_range, ROW_MAX, COL_MAX]
    exact ⟨i % 80, by omega, i / 80, by omega, rfl⟩
  obtain ⟨before, after, split⟩ := List.append_of_mem member
  rw [split] at all ⊢
  rw [List.foldl_append, List.foldl_cons]
  refine blanked_keeps (fun e later => all e (List.mem_append_right _ (List.mem_cons_of_mem _ later))) ?_
  have here : i = i % 80 + i / 80 * ROW_MAX := by
    unfold ROW_MAX
    omega
  rw [stored, ← here]
  exact Function.update_self _ _ _

theorem scroll_inside : ∀ e ∈ scroll_stores, index e < 2000 := by
  intro e member
  simp only [scroll_stores, move_stores, last_stores, List.mem_append, List.mem_flatMap, List.mem_map, List.mem_range,
    ROW_MAX, COL_MAX] at member
  rcases member with ⟨x, less, y, above, rfl⟩ | ⟨x, less, rfl⟩
  · simp only [index, ROW_MAX]
    omega
  · simp only [index, ROW_MAX]
    omega

theorem clear_inside : ∀ e ∈ clear_stores, index e < 2000 := by
  intro e member
  simp only [clear_stores, List.mem_flatMap, List.mem_map, List.mem_range, ROW_MAX, COL_MAX] at member
  obtain ⟨x, less, y, above, rfl⟩ := member
  simp only [index, ROW_MAX]
  omega

end

/-! ### The loops of the terminal -/

/-- A terminal of 25 lines of 80 cells, with the default colour `d`. -/
structure Sized (d : vga_color) (t : Terminal) : Prop where
  row_max : t.row_max = ROW_MAX
  col_max : t.col_max = COL_MAX
  color : t.default_color = d

/-- One store, of a space where a cell is blanked. -/
def exec (d : vga_color) (ink : vga_char) (t : Terminal) (e : Event) : Terminal :=
  { t with buffer := stored ink (make_vga_char space d) t.buffer e, trace := e :: t.trace }

section
variable {d : vga_color} {ink : vga_char} {t : Terminal} {β : Type}

theorem exec_all (stores : List Event) (t : Terminal) : stores.foldl (exec d ink) t =
    { t with buffer := stores.foldl (stored ink (make_vga_char space d)) t.buffer, trace := stores.reverse ++ t.trace } := by
  induction stores generalizing t with
  | nil => rfl
  | cons e stores ih =>
    rw [List.foldl_cons, ih]
    simp [exec]

theorem Sized.exec_all (sized : Sized d t) (stores : List Event) : Sized d (stores.foldl (exec d ink) t) := by
  rw [Screen.exec_all]
  exact ⟨sized.row_max, sized.col_max, sized.color⟩

/-- A loop whose turns make stores makes the stores of all its turns. -/
theorem loop_exec {act : Terminal → β → Terminal} {stores : β → List Event}
    (turn : ∀ t b, Sized d t → act t b = (stores b).foldl (exec d ink) t) (bs : List β) (sized : Sized d t) :
    bs.foldl act t = (bs.flatMap stores).foldl (exec d ink) t := by
  induction bs generalizing t with
  | nil => rfl
  | cons b bs ih =>
    rw [List.foldl_cons, List.flatMap_cons, List.foldl_append, turn t b sized]
    exact ih (sized.exec_all _)

theorem scroll_terminal_eq (ink : vga_char) (sized : Sized d t) : scroll_terminal t =
    { t with buffer := scroll_stores.foldl (stored ink (make_vga_char space d)) t.buffer
             trace := scroll_stores.reverse ++ t.trace } := by
  have column : ∀ (t : Terminal) x, Sized d t → (List.range (t.col_max - 1)).foldl (fun t y => move_up x y t) t =
      ((List.range (COL_MAX - 1)).map (Event.moved x)).foldl (exec d ink) t := by
    intro t x sized
    have turn : ∀ (t : Terminal) y, Sized d t → move_up x y t = [Event.moved x y].foldl (exec d ink) t := by
      intro t y sized
      simp [move_up, exec, stored, sized.row_max]
    rw [sized.col_max, loop_exec turn _ sized, ← List.map_eq_flatMap]
  have last : ∀ (t : Terminal) x, Sized d t →
      terminal_put_char_at .blanked (make_vga_char space t.default_color) x (t.col_max - 1) t =
        [Event.blanked x (COL_MAX - 1)].foldl (exec d ink) t := by
    intro t x sized
    simp [terminal_put_char_at, exec, stored, sized.row_max, sized.col_max, sized.color]
  have moved : Sized d (move_stores.foldl (exec d ink) t) := sized.exec_all move_stores
  rw [scroll_terminal, sized.row_max, loop_exec column _ sized]
  show (List.range ((move_stores.foldl (exec d ink) t).row_max)).foldl _ (move_stores.foldl (exec d ink) t) = _
  rw [moved.row_max, loop_exec last _ moved, ← List.map_eq_flatMap]
  show last_stores.foldl (exec d ink) (move_stores.foldl (exec d ink) t) = _
  rw [← List.foldl_append, exec_all, sized.row_max]
  rfl

theorem clear_terminal_eq (ink : vga_char) (sized : Sized d t) : clear_terminal t =
    { t with buffer := clear_stores.foldl (stored ink (make_vga_char space d)) t.buffer
             trace := clear_stores.reverse ++ t.trace } := by
  have column : ∀ (t : Terminal) x, Sized d t → (List.range t.col_max).foldl (fun t y =>
      terminal_put_char_at .blanked (make_vga_char space t.default_color) x y t) t =
        ((List.range COL_MAX).map (Event.blanked x)).foldl (exec d ink) t := by
    intro t x sized
    have turn : ∀ (t : Terminal) y, Sized d t →
        terminal_put_char_at .blanked (make_vga_char space t.default_color) x y t =
          [Event.blanked x y].foldl (exec d ink) t := by
      intro t y sized
      simp [terminal_put_char_at, exec, stored, sized.row_max, sized.color]
    rw [sized.col_max, loop_exec turn _ sized, ← List.map_eq_flatMap]
  rw [clear_terminal, sized.row_max, loop_exec column _ sized, exec_all, sized.row_max]
  rfl

end

/-! ### Lines -/

abbrev Line := List UInt8

/-- What is printed: a glyph, a newline, or a tab that advances to the next multiple of 4. -/
inductive Item
  | glyph (c : UInt8)
  | newline
  | tab
  deriving DecidableEq, Repr

/-- The lines of the output, the last one apart. -/
structure Page where
  above : List Line
  last : Line
  deriving DecidableEq, Repr

namespace Page

def lines (p : Page) : List Line := p.above ++ [p.last]

/-- The last line ends and an empty one begins. -/
def break_line (p : Page) : Page := ⟨p.lines, []⟩

def put (p : Page) : Item → Page
  | .glyph c => if p.last.length + 1 = 80 then break_line ⟨p.above, p.last ++ [c]⟩ else ⟨p.above, p.last ++ [c]⟩
  | .newline => p.break_line
  | .tab =>
    let next := 4 * (p.last.length / 4 + 1)
    if next ≥ 80 then p.break_line else ⟨p.above, p.last ++ List.replicate (next - p.last.length) space⟩

def empty : Page := ⟨[], []⟩

/-- Line `y` of the last 25, empty behind the last of them. -/
def shown (p : Page) (y : ℕ) : Line := (p.lines.drop (p.lines.length - 25)).getD y []

end Page

/-- The buffer holds the last lines, padded with spaces, and the cursor stands
    at the end of the last one. -/
structure Shows (d : vga_color) (t : Terminal) (p : Page) : Prop extends Sized d t where
  cells : ∀ x < 80, ∀ y < 25, t.buffer (x + y * 80) = make_vga_char ((p.shown y).getD x space) d
  row : t.row = p.last.length
  col : t.col + 1 = min p.lines.length 25
  short : p.last.length < 80
  inside : ∀ e ∈ t.trace, index e < 2000

section
variable {d : vga_color} {t : Terminal} {p : Page}

theorem getD_snoc (above : List Line) (l : Line) (i : ℕ) :
    (above ++ [l]).getD i [] = if i = above.length then l else above.getD i [] := by
  rw [List.getD_eq_getElem?_getD, List.getD_eq_getElem?_getD, List.getElem?_append]
  by_cases same : i = above.length
  · subst same
    simp
  · by_cases before : i < above.length
    · simp [before, same]
    · have behind : i - above.length ≠ 0 := by omega
      simp [before, same, behind]

theorem shown_eq (p : Page) (y : ℕ) : p.shown y = p.lines.getD (p.lines.length - 25 + y) [] := by
  simp [Page.shown, List.getD_eq_getElem?_getD, List.getElem?_drop]

theorem lines_getD (p : Page) (i : ℕ) :
    p.lines.getD i [] = if i = p.above.length then p.last else p.above.getD i [] := getD_snoc p.above p.last i

theorem lines_length (p : Page) : p.lines.length = p.above.length + 1 := by simp [Page.lines]

/-- An empty line adds nothing to what a line number shows. -/
theorem break_line_getD (p : Page) (i : ℕ) : p.break_line.lines.getD i [] = p.lines.getD i [] := by
  show (p.lines ++ [[]]).getD i [] = _
  rw [getD_snoc]
  by_cases last : i = p.lines.length
  · rw [if_pos last, List.getD_eq_getElem?_getD, List.getElem?_eq_none (by omega)]
    rfl
  · rw [if_neg last]

/-- A newline, also where the cursor has left the line. -/
theorem print_newline_shows (sized : Sized d t)
    (cells : ∀ x < 80, ∀ y < 25, t.buffer (x + y * 80) = make_vga_char ((p.shown y).getD x space) d)
    (col : t.col + 1 = min p.lines.length 25) (inside : ∀ e ∈ t.trace, index e < 2000) :
    Shows d (print_newline t) p.break_line := by
  have length : p.break_line.lines.length = p.lines.length + 1 := by simp [Page.lines, Page.break_line]
  have positive := lines_length p
  obtain ⟨u, isU⟩ : ∃ u : Terminal, u = { t with row := 0, col := t.col + 1 } := ⟨_, rfl⟩
  have sizedU : Sized d u := by
    rw [isU]
    exact ⟨sized.row_max, sized.col_max, sized.color⟩
  by_cases full : t.col + 1 = 25
  · have scrolls : print_newline t = { scroll_terminal u with col := (scroll_terminal u).col - 1 } := by
      rw [print_newline, ← isU, if_pos (by rw [sizedU.col_max, isU]; exact full)]
    rw [scrolls, scroll_terminal_eq 0 sizedU, isU]
    refine ⟨⟨sized.row_max, sized.col_max, sized.color⟩, fun x left y above => ?_, rfl, ?_, ?_, ?_⟩
    · dsimp only
      rw [scroll_cells, shown_eq, break_line_getD, length]
      by_cases last : y = 24
      · have behind : p.lines.length ≤ p.lines.length + 1 - 25 + y := by omega
        have nothing : p.lines.getD (p.lines.length + 1 - 25 + y) [] = [] := by
          rw [List.getD_eq_getElem?_getD, List.getElem?_eq_none behind]
          rfl
        rw [if_neg (by omega), if_pos (by omega), nothing]
        simp
      · have place : x + y * 80 + 80 = x + (y + 1) * 80 := by omega
        have line : p.lines.length + 1 - 25 + y = p.lines.length - 25 + (y + 1) := by omega
        rw [if_pos (by omega), place, cells x left (y + 1) (by omega), shown_eq, line]
    · show t.col + 1 - 1 + 1 = _
      omega
    · show 0 < 80
      omega
    · intro e member
      rcases List.mem_append.mp member with new | old
      · exact scroll_inside e (List.mem_reverse.mp new)
      · exact inside e old
  · have stays : print_newline t = u := by
      rw [print_newline, ← isU, if_neg (by rw [sizedU.col_max, isU]; exact full)]
    rw [stays, isU]
    refine ⟨⟨sized.row_max, sized.col_max, sized.color⟩, fun x left y above => ?_, rfl, ?_, ?_, inside⟩
    · have line : p.lines.length + 1 - 25 + y = p.lines.length - 25 + y := by omega
      rw [shown_eq, break_line_getD, length, line, ← shown_eq]
      exact cells x left y above
    · show t.col + 1 + 1 = _
      omega
    · show 0 < 80
      omega

/-- A character stored at the cursor is shown behind the last line. -/
theorem glyph_cells (shows : Shows d t p) (c : UInt8) : ∀ x < 80, ∀ y < 25,
    Function.update t.buffer (t.row + t.col * 80) (make_vga_char c d) (x + y * 80) =
      make_vga_char (((⟨p.above, p.last ++ [c]⟩ : Page).shown y).getD x space) d := by
  intro x left y above
  have length := lines_length p
  have short := shows.short
  have row := shows.row
  have col := shows.col
  have count : (⟨p.above, p.last ++ [c]⟩ : Page).lines.length = p.lines.length := by simp [Page.lines]
  rw [shown_eq, count]
  show _ = make_vga_char (((p.above ++ [p.last ++ [c]]).getD _ []).getD x space) d
  rw [getD_snoc]
  by_cases line : y = t.col
  · have old := shows.cells x left y above
    rw [if_pos (by omega), List.getD_eq_getElem?_getD, List.getElem?_append]
    rw [shown_eq, lines_getD, if_pos (by omega)] at old
    by_cases here : x = t.row
    · subst here line
      rw [Function.update_self]
      simp [row]
    · rw [Function.update_of_ne (by omega), old]
      by_cases before : x < p.last.length
      · simp [before, List.getD_eq_getElem?_getD]
      · have behind : x - p.last.length ≠ 0 := by omega
        simp [before, behind, List.getD_eq_getElem?_getD]
  · rw [Function.update_of_ne (by omega), if_neg (by omega), shows.cells x left y above, shown_eq, lines_getD,
      if_neg (by omega)]

theorem terminal_put_char_shows (shows : Shows d t p) (c : UInt8) :
    Shows d (terminal_put_char (make_vga_char c d) t) (p.put (.glyph c)) := by
  have short := shows.short
  have row := shows.row
  have col := shows.col
  obtain ⟨q, isQ⟩ : ∃ q : Page, q = ⟨p.above, p.last ++ [c]⟩ := ⟨_, rfl⟩
  obtain ⟨u, isU⟩ : ∃ u : Terminal, u = advance (store_cell (make_vga_char c d) t) := ⟨_, rfl⟩
  have sized : Sized d u := by
    rw [isU]
    exact ⟨shows.row_max, shows.col_max, shows.color⟩
  have lengthQ : q.lines.length = p.lines.length := by simp [isQ, Page.lines]
  have buffer : u.buffer = Function.update t.buffer (t.row + t.col * 80) (make_vga_char c d) := by
    rw [isU, advance, store_cell, terminal_put_char_at, shows.row_max]
    rfl
  have cells : ∀ x < 80, ∀ y < 25, u.buffer (x + y * 80) = make_vga_char ((q.shown y).getD x space) d := by
    rw [buffer, isQ]
    exact glyph_cells shows c
  have inside : ∀ e ∈ u.trace, index e < 2000 := by
    intro e member
    rw [isU] at member
    rcases List.mem_cons.mp member with rfl | old
    · simp only [index, ROW_MAX]
      omega
    · exact shows.inside e old
  have colU : u.col + 1 = min q.lines.length 25 := by
    rw [lengthQ, isU]
    exact col
  by_cases full : p.last.length + 1 = 80
  · have wraps : terminal_put_char (make_vga_char c d) t = print_newline { u with row := 0 } := by
      rw [terminal_put_char, ← isU, if_pos (by rw [sized.row_max, isU, advance, store_cell, terminal_put_char_at, row]; exact full)]
      rfl
    rw [wraps, Page.put, if_pos full, ← isQ]
    exact print_newline_shows ⟨sized.row_max, sized.col_max, sized.color⟩ cells colU inside
  · have stays : terminal_put_char (make_vga_char c d) t = u := by
      rw [terminal_put_char, ← isU, if_neg (by rw [sized.row_max, isU, advance, store_cell, terminal_put_char_at, row]; exact full)]
    rw [stays, Page.put, if_neg full, ← isQ]
    refine ⟨sized, cells, ?_, colU, ?_, inside⟩
    · rw [isU, isQ]
      simp [advance, store_cell, terminal_put_char_at, row]
    · rw [isQ]
      simp only [List.length_append, List.length_singleton]
      omega

theorem put_char_spaces (k : ℕ) (shows : Shows d t p) (room : p.last.length + k < 80) :
    Shows d ((List.range k).foldl (fun t _ => terminal_put_char (make_vga_char space d) t) t)
      ⟨p.above, p.last ++ List.replicate k space⟩ := by
  induction k with
  | zero => simpa using shows
  | succ k ih =>
    have before := ih (by omega)
    have after := terminal_put_char_shows before space
    rw [Page.put, if_neg (by simp; omega)] at after
    rw [List.range_succ, List.foldl_append]
    simpa [List.replicate_succ', List.append_assoc] using after

theorem print_tab_shows (shows : Shows d t p) : Shows d (print_tab t) (p.put .tab) := by
  have row := shows.row
  have next : tab_space_num - t.row % tab_space_num + t.row = 4 * (p.last.length / 4 + 1) := by
    unfold tab_space_num
    omega
  by_cases full : 4 * (p.last.length / 4 + 1) ≥ 80
  · have breaks : print_tab t = print_newline t := by
      rw [print_tab, if_pos (by rw [next]; exact full)]
    rw [breaks, Page.put, if_pos full]
    exact print_newline_shows shows.toSized shows.cells shows.col shows.inside
  · have count : tab_space_num - t.row % tab_space_num = 4 * (p.last.length / 4 + 1) - p.last.length := by omega
    have pads : print_tab t = (List.range (4 * (p.last.length / 4 + 1) - p.last.length)).foldl
        (fun t _ => terminal_put_char (make_vga_char space d) t) t := by
      rw [print_tab, if_neg (by rw [next]; exact full), count, shows.color]
    rw [pads, Page.put, if_neg full]
    exact put_char_spaces _ shows (by omega)

/-- How the terminal prints an item. -/
def print_item (t : Terminal) : Item → Terminal
  | .glyph c => terminal_put_char (make_vga_char c t.default_color) t
  | .newline => print_newline t
  | .tab => print_tab t

theorem print_item_shows (shows : Shows d t p) (item : Item) : Shows d (print_item t item) (p.put item) := by
  cases item with
  | glyph c =>
    rw [print_item, shows.color]
    exact terminal_put_char_shows shows c
  | newline => exact print_newline_shows shows.toSized shows.cells shows.col shows.inside
  | tab => exact print_tab_shows shows

theorem print_items_shows (shows : Shows d t p) (items : List Item) :
    Shows d (items.foldl print_item t) (items.foldl Page.put p) := by
  induction items generalizing t p with
  | nil => exact shows
  | cons item items ih => exact ih (print_item_shows shows item)

/-- The cleared screen shows one empty line. -/
theorem clear_terminal_shows (buffer : ℕ → vga_char) :
    Shows (opened buffer).default_color (clear_terminal (opened buffer)) Page.empty := by
  have sized : Sized (opened buffer).default_color (opened buffer) := ⟨rfl, rfl, rfl⟩
  rw [clear_terminal_eq 0 sized]
  refine ⟨⟨rfl, rfl, rfl⟩, fun x left y above => ?_, rfl, rfl, by decide, fun e member => ?_⟩
  · dsimp only
    rw [clear_cells (by omega)]
    have nothing : Page.empty.shown y = [] := by
      rw [shown_eq, lines_getD]
      simp [Page.empty]
    rw [nothing]
    rfl
  · exact clear_inside e (by simpa [opened] using member)

end
end OsC.Screen
