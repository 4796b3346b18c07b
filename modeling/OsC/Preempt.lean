import OsC.Printing

/-!
The screen shared with the interrupt handlers. The main kernel prints a
character in steps, and between any two of them a handler may run a printing
call to its end. Characters stay on the screen and are not printed over as long
as a handler that interrupts on the character just stored, or past the end of
the line, begins with a line break (`run_sound_iff`).
-/
namespace OsC.Preempt
open OsC.Vga OsC.Printf OsC.Screen OsC.Printing

inductive Context
  | kernel
  | interrupt
  deriving DecidableEq, Repr

/-- Where the main kernel stands in `terminal_put_char`. -/
inductive Pc
  | idle
  | stored
  | incremented
  /-- The line was found full. -/
  | full
  deriving DecidableEq, Repr

/-- The stores so far, the newest first. -/
abbrev History := List (Context × Event)

structure State where
  terminal : Terminal
  pc : Pc
  history : History

/-- The state after a context has changed the terminal. -/
def State.after (s : State) (k : Context) (t : Terminal) (pc : Pc) : State where
  terminal := t
  pc := pc
  history := (t.trace.take (t.trace.length - s.terminal.trace.length)).map (k, ·) ++ s.history

/-- A step of the main kernel. -/
inductive KernelStep : State → State → Prop
  | store (c : vga_char) {s : State} (at_ : s.pc = .idle) : KernelStep s (s.after .kernel (store_cell c s.terminal) .stored)
  | increment {s : State} (at_ : s.pc = .stored) : KernelStep s (s.after .kernel (advance s.terminal) .incremented)
  | test_full {s : State} (at_ : s.pc = .incremented) (full : s.terminal.row = s.terminal.row_max) :
      KernelStep s { s with pc := .full }
  | test_room {s : State} (at_ : s.pc = .incremented) (room : s.terminal.row ≠ s.terminal.row_max) :
      KernelStep s { s with pc := .idle }
  | wrap {s : State} (at_ : s.pc = .full) : KernelStep s (s.after .kernel (wrap_line s.terminal) .idle)
  /-- A newline character of the kernel's own. -/
  | newline {s : State} (at_ : s.pc = .idle) : KernelStep s (s.after .kernel (print_newline s.terminal) .idle)

/-- A handler runs a printing call. -/
inductive Interrupt (call : Printing.Call) : State → State → Prop
  | run {s : State} {caller : Caller} {next_arg : ℕ} {outputs : List Output} {console : Console}
      (ran : call.perform caller ⟨s.terminal, next_arg, outputs⟩ = .ok () console) :
      Interrupt call s (s.after .interrupt console.terminal s.pc)

/-! ### What must hold of the stores -/

/-- Which context printed the character of each cell; scrolling moves it. -/
def owner (h : History) : ℕ → Option Context := h.foldr (fun e cells => stored (some e.1) none cells e.2) fun _ => none

/-- The cell lies on the screen. -/
def OnScreen : Event → Prop
  | .printed x y => x < 80 ∧ y < 25
  | .blanked x y => x < 80 ∧ y < 25
  | .moved x y => x < 80 ∧ y < 25

/-- A printed character is stored to no cell that holds one of the other context. -/
def Spares (k : Context) (older : History) : Event → Prop
  | .printed x y => ∀ j, owner older (x + y * 80) = some j → j = k
  | _ => True

/-- Every store is on the screen and spares the other context. -/
inductive Sound : History → Prop
  | empty : Sound []
  | store {k : Context} {e : Event} {older : History} (onScreen : OnScreen e) (spares : Spares k older e)
      (before : Sound older) : Sound ((k, e) :: older)

/-! ### When a handler may print -/

/-- The cursor stands on the character stored last, or past the end of the line. -/
def Blocked (t : Terminal) : Prop := t.trace.head? = some (.printed t.row t.col) ∨ t.row = t.row_max

/-- The item begins a new line at the cursor. -/
def Breaks (t : Terminal) : Item → Prop
  | .glyph _ => False
  | .newline => True
  | .tab => 80 ≤ 4 * (t.row / 4 + 1)

/-- What the call prints first, if anything, begins a new line where the cursor is blocked. -/
def Yields (t : Terminal) (call : Printing.Call) : Prop := Blocked t → ∀ item ∈ call.items.head?, Breaks t item

/-- The states of the runs from the cleared screen in which every call that interrupts is allowed. -/
inductive Run (allowed : Terminal → Printing.Call → Prop) : State → Prop
  | start (buffer : ℕ → vga_char) : Run allowed
      ⟨clear_terminal (opened buffer), .idle, (clear_terminal (opened buffer)).trace.map (.kernel, ·)⟩
  | kernel {s s' : State} (before : Run allowed s) (step : KernelStep s s') : Run allowed s'
  | interrupt {s s' : State} {call : Printing.Call} (before : Run allowed s) (permitted : allowed s.terminal call)
      (ran : Interrupt call s s') : Run allowed s'

/-- Calls whose format strings are literal text. -/
def Any (_ : Terminal) (call : Printing.Call) : Prop := call.Literal

/-- Of these, the calls that yield. -/
def Polite (t : Terminal) (call : Printing.Call) : Prop := call.Literal ∧ Yields t call

/-! ### Histories -/

section
variable {k : Context} {h : History} {events new : List Event} {t u : Terminal} {n : ℕ}

theorem owner_append (k : Context) (events : List Event) (h : History) :
    owner (events.reverse.map (k, ·) ++ h) = events.foldl (stored (some k) none) (owner h) := by
  induction events generalizing h with
  | nil => rfl
  | cons e events ih =>
    rw [List.reverse_cons, List.map_append, List.append_assoc]
    exact ih ((k, e) :: h)

theorem sound_older {new : History} (sound : Sound (new ++ h)) : Sound h := by
  induction new with
  | nil => exact sound
  | cons e new ih =>
    cases sound with
    | store _ _ before => exact ih before

/-- Stores that print nothing need only stay on the screen. -/
theorem sound_silent (silent : ∀ e ∈ events, OnScreen e ∧ ∀ x y, e ≠ .printed x y) (sound : Sound h) :
    Sound (events.map (k, ·) ++ h) := by
  induction events with
  | nil => exact sound
  | cons e events ih =>
    obtain ⟨onScreen, unprinted⟩ := silent e List.mem_cons_self
    refine .store onScreen ?_ (ih fun e member => silent e (List.mem_cons_of_mem _ member))
    cases e with
    | printed x y => exact absurd rfl (unprinted x y)
    | blanked x y => trivial
    | moved x y => trivial

theorem scroll_silent : ∀ e ∈ scroll_stores.reverse, OnScreen e ∧ ∀ x y, e ≠ .printed x y := by
  intro e member
  rw [List.mem_reverse] at member
  simp only [scroll_stores, move_stores, last_stores, List.mem_append, List.mem_flatMap, List.mem_map, List.mem_range,
    ROW_MAX, COL_MAX] at member
  rcases member with ⟨x, less, y, above, rfl⟩ | ⟨x, less, rfl⟩
  · exact ⟨⟨less, by omega⟩, by simp⟩
  · exact ⟨⟨less, by omega⟩, by simp⟩

theorem scroll_last : scroll_stores.reverse.head? = some (.blanked 79 24) := by
  have columns : List.range ROW_MAX = List.range 79 ++ [79] := List.range_succ
  rw [List.head?_reverse, scroll_stores, last_stores, columns]
  simp [COL_MAX]

theorem clear_silent : ∀ e ∈ clear_stores.reverse, OnScreen e ∧ ∀ x y, e ≠ .printed x y := by
  intro e member
  rw [List.mem_reverse] at member
  simp only [clear_stores, List.mem_flatMap, List.mem_map, List.mem_range, ROW_MAX, COL_MAX] at member
  obtain ⟨x, less, y, above, rfl⟩ := member
  exact ⟨⟨less, above⟩, by simp⟩

/-- The state after a context has added stores to the trace. -/
theorem after_eq {s : State} {pc : Pc} (traced : u.trace = new ++ s.terminal.trace) :
    s.after k u pc = ⟨u, pc, new.map (k, ·) ++ s.history⟩ := by
  have count : u.trace.length - s.terminal.trace.length = new.length := by
    rw [traced, List.length_append]
    omega
  rw [State.after, count, traced, List.take_left]

/-! ### The printed part of the screen -/

def cursor (t : Terminal) : ℕ := t.row + t.col * 80

/-- No character is printed from cell `n` on, and the stores are sound. -/
structure Placed (n : ℕ) (t : Terminal) (h : History) : Prop where
  sized : Sized t.default_color t
  line : t.col < 25
  free : ∀ i, n ≤ i → owner h i = none
  head : ∀ x y, t.trace.head? = some (.printed x y) → x + y * 80 < n
  sound : Sound h

theorem Placed.weaken {m : ℕ} (placed : Placed n t h) (le : n ≤ m) : Placed m t h where
  sized := placed.sized
  line := placed.line
  free := fun i behind => placed.free i (Nat.le_trans le behind)
  head := fun x y last => Nat.lt_of_lt_of_le (placed.head x y last) le
  sound := placed.sound

/-- A context changes the terminal and adds its stores to the history. -/
def Extends (k : Context) (t : Terminal) (h : History) (u : Terminal) (h' : History) : Prop :=
  ∃ new, u.trace = new ++ t.trace ∧ h' = new.map (k, ·) ++ h

theorem Extends.refl (k : Context) (t : Terminal) (h : History) : Extends k t h t h := ⟨[], rfl, rfl⟩

theorem Extends.trans {v : Terminal} {h' h'' : History} (first : Extends k t h u h') (second : Extends k u h' v h'') :
    Extends k t h v h'' := by
  obtain ⟨new, traced, rfl⟩ := first
  obtain ⟨new', traced', rfl⟩ := second
  exact ⟨new' ++ new, by rw [traced', traced, List.append_assoc], by rw [List.map_append, List.append_assoc]⟩

/-- Between calls of `terminal_put_char` the cursor stands at the first free cell of its line. -/
structure Ready (t : Terminal) (h : History) : Prop extends Placed (cursor t) t h where
  left : t.row < 80

/-- A newline is sound wherever the cursor stands in its line. -/
theorem newline_ready (k : Context) (placed : Placed n t h) (within : n ≤ (t.col + 1) * 80) :
    ∃ h', Extends k t h (print_newline t) h' ∧ Ready (print_newline t) h' := by
  have sized := placed.sized
  obtain ⟨u, isU⟩ : ∃ u : Terminal, u = { t with row := 0, col := t.col + 1 } := ⟨_, rfl⟩
  have sizedU : Sized t.default_color u := by
    rw [isU]
    exact ⟨sized.row_max, sized.col_max, rfl⟩
  by_cases full : t.col + 1 = 25
  · have scrolls : print_newline t = { scroll_terminal u with col := (scroll_terminal u).col - 1 } := by
      rw [print_newline, ← isU, if_pos (by rw [sizedU.col_max, isU]; exact full)]
    rw [scrolls, scroll_terminal_eq 0 sizedU, isU]
    refine ⟨scroll_stores.reverse.map (k, ·) ++ h, ⟨scroll_stores.reverse, rfl, rfl⟩, ⟨⟨?_, ?_, ?_, ?_, ?_⟩, ?_⟩⟩
    · exact ⟨sized.row_max, sized.col_max, rfl⟩
    · show t.col + 1 - 1 < 25
      omega
    · intro i behind
      have lower : 1920 ≤ i := by
        have : 0 + (t.col + 1 - 1) * 80 ≤ i := behind
        omega
      rw [owner_append, scroll_cells, if_neg (by omega)]
      by_cases last : i < 2000
      · rw [if_pos last]
      · rw [if_neg last]
        exact placed.free i (by omega)
    · intro x y last
      dsimp only at last
      rw [List.head?_append, scroll_last] at last
      cases last
    · exact sound_silent scroll_silent placed.sound
    · show 0 < 80
      omega
  · have stays : print_newline t = u := by
      rw [print_newline, ← isU, if_neg (by rw [sizedU.col_max, isU]; exact full)]
    have line := placed.line
    rw [stays, isU]
    have le : n ≤ cursor { t with row := 0, col := t.col + 1 } := by
      simp only [cursor]
      omega
    have weaker := placed.weaken le
    refine ⟨h, .refl k _ h, ⟨⟨⟨sized.row_max, sized.col_max, rfl⟩, ?_, weaker.free, weaker.head, weaker.sound⟩, ?_⟩⟩
    · show t.col + 1 < 25
      omega
    · show 0 < 80
      omega

/-- Storing a character at a free cursor. -/
theorem store_placed (k : Context) (c : vga_char) (ready : Ready t h) :
    Placed (cursor t + 1) (store_cell c t) ((k, .printed t.row t.col) :: h) := by
  have left := ready.left
  have line := ready.line
  refine ⟨⟨ready.sized.row_max, ready.sized.col_max, rfl⟩, line, ?_, ?_, .store ⟨left, line⟩ ?_ ready.sound⟩
  · intro i behind
    have other : i ≠ t.row + t.col * 80 := by
      have : t.row + t.col * 80 + 1 ≤ i := behind
      omega
    exact (Function.update_of_ne other _ _).trans (ready.free i (by omega))
  · intro x y last
    cases last
    exact Nat.lt_succ_self _
  · intro j owned
    have free := ready.free (t.row + t.col * 80) (Nat.le_refl _)
    rw [free] at owned
    cases owned

theorem glyph_ready (k : Context) (c : vga_char) (ready : Ready t h) :
    ∃ h', Extends k t h (terminal_put_char c t) h' ∧ Ready (terminal_put_char c t) h' := by
  have left := ready.left
  obtain ⟨u, isU⟩ : ∃ u : Terminal, u = advance (store_cell c t) := ⟨_, rfl⟩
  have placed : Placed (cursor u) u ((k, .printed t.row t.col) :: h) := by
    have stored := store_placed k c ready
    have le : cursor t + 1 = cursor u := by
      rw [isU]
      simp only [cursor, advance, store_cell, terminal_put_char_at]
      omega
    rw [← le, isU]
    exact ⟨⟨stored.sized.row_max, stored.sized.col_max, rfl⟩, stored.line, stored.free, stored.head, stored.sound⟩
  have extended : Extends k t h u ((k, .printed t.row t.col) :: h) := ⟨[.printed t.row t.col], by rw [isU]; rfl, rfl⟩
  have row : u.row = t.row + 1 := by rw [isU]; rfl
  have max : u.row_max = 80 := placed.sized.row_max
  by_cases full : u.row = u.row_max
  · have wraps : terminal_put_char c t = print_newline u := by
      rw [terminal_put_char, ← isU, if_pos full]
      rfl
    have within : cursor u ≤ (u.col + 1) * 80 := by
      unfold cursor
      omega
    obtain ⟨h', more, ready'⟩ := newline_ready k placed within
    rw [wraps]
    exact ⟨h', extended.trans more, ready'⟩
  · have stays : terminal_put_char c t = u := by rw [terminal_put_char, ← isU, if_neg full]
    rw [stays]
    exact ⟨_, extended, ⟨placed, by omega⟩⟩

theorem tab_newline (full : 80 ≤ 4 * (t.row / 4 + 1)) : print_tab t = print_newline t := by
  have next : tab_space_num - t.row % tab_space_num + t.row = 4 * (t.row / 4 + 1) := by
    unfold tab_space_num
    omega
  rw [print_tab, if_pos (by rw [next]; exact full)]

/-- A tab that stays in the line prints a space or more. -/
theorem tab_spaces (room : ¬ 80 ≤ 4 * (t.row / 4 + 1)) : ∃ k, print_tab t =
    (List.range k).foldl (fun u _ => terminal_put_char (make_vga_char space t.default_color) u)
      (terminal_put_char (make_vga_char space t.default_color) t) := by
  have next : tab_space_num - t.row % tab_space_num + t.row = 4 * (t.row / 4 + 1) := by
    unfold tab_space_num
    omega
  have some : tab_space_num - t.row % tab_space_num = (tab_space_num - t.row % tab_space_num - 1) + 1 := by
    unfold tab_space_num
    omega
  refine ⟨tab_space_num - t.row % tab_space_num - 1, ?_⟩
  rw [print_tab, if_neg (by rw [next]; exact room), some, List.range_succ_eq_map, List.foldl_cons, List.foldl_map,
    Nat.add_sub_cancel]

theorem spaces_ready (k : Context) (c : vga_char) (count : ℕ) (ready : Ready t h) :
    ∃ h', Extends k t h ((List.range count).foldl (fun u _ => terminal_put_char c u) t) h' ∧
      Ready ((List.range count).foldl (fun u _ => terminal_put_char c u) t) h' := by
  induction count with
  | zero => exact ⟨h, .refl k t h, ready⟩
  | succ count ih =>
    obtain ⟨h₁, extended, ready₁⟩ := ih
    obtain ⟨h₂, more, ready₂⟩ := glyph_ready k c ready₁
    rw [List.range_succ, List.foldl_append]
    exact ⟨h₂, extended.trans more, ready₂⟩

theorem Ready.within (ready : Ready t h) : cursor t ≤ (t.col + 1) * 80 := by
  have left := ready.left
  unfold cursor
  omega

theorem item_ready (k : Context) (item : Item) (ready : Ready t h) :
    ∃ h', Extends k t h (print_item t item) h' ∧ Ready (print_item t item) h' := by
  cases item with
  | glyph c => exact glyph_ready k _ ready
  | newline => exact newline_ready k ready.toPlaced ready.within
  | tab =>
    rw [print_item]
    by_cases full : 80 ≤ 4 * (t.row / 4 + 1)
    · rw [tab_newline full]
      exact newline_ready k ready.toPlaced ready.within
    · obtain ⟨count, spaces⟩ := tab_spaces full
      obtain ⟨h₁, extended, ready₁⟩ := glyph_ready k (make_vga_char space t.default_color) ready
      obtain ⟨h₂, more, ready₂⟩ := spaces_ready k (make_vga_char space t.default_color) count ready₁
      rw [spaces]
      exact ⟨h₂, extended.trans more, ready₂⟩

theorem items_ready (k : Context) (items : List Item) (ready : Ready t h) :
    ∃ h', Extends k t h (items.foldl print_item t) h' ∧ Ready (items.foldl print_item t) h' := by
  induction items generalizing t h with
  | nil => exact ⟨h, .refl k t h, ready⟩
  | cons item items ih =>
    obtain ⟨h₁, extended, ready₁⟩ := item_ready k item ready
    obtain ⟨h₂, more, ready₂⟩ := ih ready₁
    exact ⟨h₂, extended.trans more, ready₂⟩

/-- Items whose first one breaks the line make a blocked cursor ready. -/
theorem breaking_ready (k : Context) {item : Item} (items : List Item) (placed : Placed n t h)
    (within : n ≤ (t.col + 1) * 80) (breaks : Breaks t item) :
    ∃ h', Extends k t h ((item :: items).foldl print_item t) h' ∧ Ready ((item :: items).foldl print_item t) h' := by
  have newline : print_item t item = print_newline t := by
    cases item with
    | glyph c => exact breaks.elim
    | newline => rfl
    | tab => exact tab_newline breaks
  obtain ⟨h₁, extended, ready₁⟩ := newline_ready k placed within
  obtain ⟨h₂, more, ready₂⟩ := items_ready k items ready₁
  rw [List.foldl_cons, newline]
  exact ⟨h₂, extended.trans more, ready₂⟩

end

/-! ### The invariant of the runs -/

/-- The main kernel has just stored a character at the cursor. -/
structure Fresh (t : Terminal) (h : History) : Prop extends Placed (cursor t + 1) t h where
  left : t.row < 80
  last : t.trace.head? = some (.printed t.row t.col)
  own : owner h (cursor t) = some .kernel

/-- What holds where the main kernel stands. A handler that ran after the store
    has left the cursor ready. -/
def Safe (s : State) : Prop :=
  match s.pc with
  | .idle => Ready s.terminal s.history
  | .stored => Ready s.terminal s.history ∨ Fresh s.terminal s.history
  | .incremented => Placed (cursor s.terminal) s.terminal s.history ∧ s.terminal.row ≤ 80
  | .full => Placed (cursor s.terminal) s.terminal s.history ∧ s.terminal.row ≤ 80

section
variable {s s' : State} {call : Printing.Call}

theorem Safe.of_ready {t : Terminal} {h : History} (ready : Ready t h) (pc : Pc) : Safe ⟨t, pc, h⟩ := by
  have row : t.row ≤ 80 := Nat.le_of_lt ready.left
  cases pc with
  | idle => exact ready
  | stored => exact .inl ready
  | incremented => exact ⟨ready.toPlaced, row⟩
  | full => exact ⟨ready.toPlaced, row⟩

theorem Safe.sound (safe : Safe s) : Sound s.history := by
  obtain ⟨t, pc, h⟩ := s
  cases pc with
  | idle => exact Ready.toPlaced safe |>.sound
  | stored =>
    rcases safe with ready | fresh
    · exact ready.sound
    · exact fresh.sound
  | incremented => exact safe.1.sound
  | full => exact safe.1.sound

/-- A cursor that is not ready is blocked, at the end of what has been printed. -/
theorem Safe.cases (safe : Safe s) : Ready s.terminal s.history ∨
    Blocked s.terminal ∧ ∃ n ≤ (s.terminal.col + 1) * 80, Placed n s.terminal s.history := by
  obtain ⟨t, pc, h⟩ := s
  have at_end : Placed (cursor t) t h ∧ t.row ≤ 80 →
      Ready t h ∨ Blocked t ∧ ∃ n ≤ (t.col + 1) * 80, Placed n t h := by
    rintro ⟨placed, row⟩
    by_cases full : t.row = 80
    · refine .inr ⟨.inr (full.trans placed.sized.row_max.symm), cursor t, ?_, placed⟩
      unfold cursor
      omega
    · exact .inl ⟨placed, by omega⟩
  cases pc with
  | idle => exact .inl safe
  | stored =>
    rcases safe with ready | fresh
    · exact .inl ready
    · refine .inr ⟨.inl fresh.last, cursor t + 1, ?_, fresh.toPlaced⟩
      have left : t.row < 80 := fresh.left
      show t.row + t.col * 80 + 1 ≤ (t.col + 1) * 80
      omega
  | incremented => exact at_end safe
  | full => exact at_end safe

theorem Extends.after {k : Context} {u : Terminal} {h' : History} (extended : Extends k s.terminal s.history u h')
    (pc : Pc) : s.after k u pc = ⟨u, pc, h'⟩ := by
  obtain ⟨new, traced, rfl⟩ := extended
  exact after_eq traced

/-- A screen to which spaces only were stored. -/
theorem blank_ready {k : Context} {t : Terminal} {stores : List Event} (sized : Sized t.default_color t) (line : t.col < 25)
    (left : t.row < 80) (traced : t.trace = stores.reverse) (blank : ∀ e ∈ stores, ∃ x y, e = .blanked x y)
    (silent : ∀ e ∈ stores.reverse, OnScreen e ∧ ∀ x y, e ≠ .printed x y) : Ready t (t.trace.map (k, ·)) := by
  have owned := owner_append k stores []
  have sound := sound_silent (k := k) silent .empty
  rw [List.append_nil, ← traced] at owned sound
  refine ⟨⟨sized, line, fun i _ => ?_, fun x y last => ?_, sound⟩, left⟩
  · rw [owned]
    exact blanked_keeps blank rfl
  · rw [traced] at last
    exact absurd rfl ((silent _ (List.mem_of_mem_head? last)).2 x y)

theorem start_safe (buffer : ℕ → vga_char) : Safe
    ⟨clear_terminal (opened buffer), .idle, (clear_terminal (opened buffer)).trace.map (.kernel, ·)⟩ := by
  have sized : Sized (opened buffer).default_color (opened buffer) := ⟨rfl, rfl, rfl⟩
  have eq := clear_terminal_eq 0 sized
  have cleared : ∀ t : Terminal, t = clear_terminal (opened buffer) → Ready t (t.trace.map (.kernel, ·)) := by
    intro t isT
    rw [eq] at isT
    have traced : t.trace = clear_stores.reverse := by
      rw [isT]
      exact List.append_nil _
    have sizedT : Sized t.default_color t := by
      rw [isT]
      exact ⟨rfl, rfl, rfl⟩
    have corner : t.col = 0 ∧ t.row = 0 := by
      rw [isT]
      exact ⟨rfl, rfl⟩
    exact blank_ready sizedT (by omega) (by omega) traced clear_blanked clear_silent
  exact .of_ready (cleared _ rfl) .idle

theorem kernel_safe (safe : Safe s) (step : KernelStep s s') : Safe s' := by
  obtain ⟨t, pc, h⟩ := s
  cases step with
  | store c at_ =>
    cases at_
    have ready : Ready t h := safe
    have stores : Extends .kernel t h (store_cell c t) ((.kernel, .printed t.row t.col) :: h) :=
      ⟨[.printed t.row t.col], rfl, rfl⟩
    rw [stores.after]
    exact .inr ⟨store_placed .kernel c ready, ready.left, rfl, Function.update_self _ _ _⟩
  | increment at_ =>
    cases at_
    have silent : Extends .kernel t h (advance t) h := ⟨[], rfl, rfl⟩
    have further : cursor (advance t) = cursor t + 1 := by
      simp only [cursor, advance]
      omega
    have placed : Placed (cursor t + 1) t h ∧ t.row < 80 := by
      rcases safe with ready | fresh
      · exact ⟨ready.toPlaced.weaken (Nat.le_succ _), ready.left⟩
      · exact ⟨fresh.toPlaced, fresh.left⟩
    rw [silent.after]
    refine ⟨?_, placed.2⟩
    rw [further]
    exact ⟨⟨placed.1.sized.row_max, placed.1.sized.col_max, rfl⟩, placed.1.line, placed.1.free, placed.1.head,
      placed.1.sound⟩
  | test_full at_ full =>
    cases at_
    exact safe
  | test_room at_ room =>
    cases at_
    have max : t.row_max = 80 := safe.1.sized.row_max
    have row : t.row ≤ 80 := safe.2
    have other : t.row ≠ t.row_max := room
    have left : t.row < 80 := by omega
    exact ⟨safe.1, left⟩
  | wrap at_ =>
    cases at_
    have row : t.row ≤ 80 := safe.2
    have within : cursor t ≤ (t.col + 1) * 80 := by
      unfold cursor
      omega
    obtain ⟨h', extended, ready⟩ := newline_ready .kernel safe.1 within
    have wraps : wrap_line t = print_newline t := rfl
    rw [wraps, extended.after]
    exact ready
  | newline at_ =>
    cases at_
    obtain ⟨h', extended, ready⟩ := newline_ready .kernel (Ready.toPlaced safe) (Ready.within safe)
    rw [extended.after]
    exact ready

/-- What a handler printed. -/
theorem interrupt_items (literal : call.Literal) (ran : Interrupt call s s') :
    s' = s.after .interrupt (call.items.foldl print_item s.terminal) s.pc := by
  cases ran with
  | run ran =>
    rename_i caller next_arg outputs console
    obtain ⟨console', ran', printed⟩ := perform_items caller literal ⟨s.terminal, next_arg, outputs⟩
    rw [ran] at ran'
    cases ran'
    rw [printed]

theorem interrupt_safe (safe : Safe s) (polite : Polite s.terminal call) (ran : Interrupt call s s') : Safe s' := by
  obtain ⟨literal, yields⟩ := polite
  rw [interrupt_items literal ran]
  by_cases empty : call.items = []
  · have silent : Extends .interrupt s.terminal s.history s.terminal s.history := .refl _ _ _
    rw [empty, List.foldl_nil, silent.after]
    exact safe
  · obtain ⟨item, items, split⟩ := List.exists_cons_of_ne_nil empty
    obtain ⟨h', extended, ready⟩ : ∃ h', Extends .interrupt s.terminal s.history
        (call.items.foldl print_item s.terminal) h' ∧ Ready (call.items.foldl print_item s.terminal) h' := by
      rcases safe.cases with ready | ⟨blocked, n, within, placed⟩
      · exact items_ready .interrupt call.items ready
      · have breaks := yields blocked item (by rw [split]; rfl)
        rw [split]
        exact breaking_ready .interrupt items placed within breaks
    rw [extended.after]
    exact .of_ready ready s.pc

theorem run_safe (run : Run Polite s) : Safe s := by
  induction run with
  | start buffer => exact start_safe buffer
  | kernel before step ih => exact kernel_safe ih step
  | interrupt before polite ran ih => exact interrupt_safe ih polite ran

/-! ### Handlers that do not yield -/

theorem foldl_grows {β : Type} {act : Terminal → β → Terminal} (turn : ∀ t b, t.trace <:+ (act t b).trace) (bs : List β)
    (t : Terminal) : t.trace <:+ (bs.foldl act t).trace := by
  induction bs generalizing t with
  | nil => exact List.suffix_rfl
  | cons b bs ih => exact (turn t b).trans (ih (act t b))

theorem newline_grows (t : Terminal) : t.trace <:+ (print_newline t).trace := by
  have scrolls : ∀ t : Terminal, t.trace <:+ (scroll_terminal t).trace := by
    intro t
    have moves : ∀ (t : Terminal) x,
        t.trace <:+ ((List.range (t.col_max - 1)).foldl (fun t y => move_up x y t) t).trace :=
      fun t x => foldl_grows (fun t y => List.suffix_cons _ _) _ t
    exact (foldl_grows moves _ t).trans (foldl_grows (fun t x => List.suffix_cons _ _) _ _)
  rw [print_newline]
  split
  · exact scrolls { t with row := 0, col := t.col + 1 }
  · exact List.suffix_rfl

/-- The character goes to the cell under the cursor, whatever follows. -/
theorem glyph_grows (c : vga_char) (t : Terminal) :
    .printed t.row t.col :: t.trace <:+ (terminal_put_char c t).trace := by
  rw [terminal_put_char]
  split
  · exact newline_grows (advance (store_cell c t))
  · exact List.suffix_rfl

theorem spaces_grow (c : vga_char) (count : ℕ) (t : Terminal) :
    t.trace <:+ ((List.range count).foldl (fun u _ => terminal_put_char c u) t).trace :=
  foldl_grows (fun t _ => (List.suffix_cons _ _).trans (glyph_grows c t)) _ t

/-- An item that does not break the line stores to the cell under the cursor first. -/
theorem item_stores {t : Terminal} {item : Item} (stays : ¬ Breaks t item) :
    .printed t.row t.col :: t.trace <:+ (print_item t item).trace := by
  cases item with
  | glyph c => exact glyph_grows _ t
  | newline => exact absurd trivial stays
  | tab =>
    obtain ⟨count, spaces⟩ := tab_spaces stays
    rw [print_item, spaces]
    exact (glyph_grows _ t).trans (spaces_grow _ count _)

theorem item_grows (t : Terminal) (item : Item) : t.trace <:+ (print_item t item).trace := by
  by_cases breaks : Breaks t item
  · cases item with
    | glyph c => exact breaks.elim
    | newline => exact newline_grows t
    | tab =>
      rw [print_item, tab_newline breaks]
      exact newline_grows t
  · exact (List.suffix_cons _ _).trans (item_stores breaks)

/-- A blocked cursor stands behind the line or on a character of the main kernel. -/
theorem Safe.blocked (safe : Safe s) (blocked : Blocked s.terminal) :
    s.terminal.row = 80 ∨ owner s.history (cursor s.terminal) = some .kernel := by
  have not_ready : ∀ {t h}, Ready t h → ¬ Blocked t := by
    intro t h ready blocked
    rcases blocked with last | full
    · exact absurd (ready.head _ _ last) (Nat.lt_irrefl _)
    · have max : t.row_max = 80 := ready.sized.row_max
      have left := ready.left
      omega
  obtain ⟨t, pc, h⟩ := s
  have at_end : Placed (cursor t) t h → t.row = 80 := by
    intro placed
    rcases blocked with last | full
    · exact absurd (placed.head _ _ last) (Nat.lt_irrefl _)
    · exact full.trans placed.sized.row_max
  cases pc with
  | idle => exact absurd blocked (not_ready safe)
  | stored =>
    rcases safe with ready | fresh
    · exact absurd blocked (not_ready ready)
    · exact .inr fresh.own
  | incremented => exact .inl (at_end safe.1)
  | full => exact .inl (at_end safe.1)

/-- A handler whose first item stays in the line stores to the cell under the cursor. -/
theorem interrupt_stores (literal : call.Literal) {item : Item} (first : call.items.head? = some item)
    (stays : ¬ Breaks s.terminal item) (ran : Interrupt call s s') :
    ∃ new, s'.history = new ++ (.interrupt, .printed s.terminal.row s.terminal.col) :: s.history := by
  obtain ⟨items, split⟩ := List.head?_eq_some_iff.mp first
  obtain ⟨new, traced⟩ := (item_stores stays).trans (foldl_grows item_grows items (print_item s.terminal item))
  have extended : Extends .interrupt s.terminal s.history (call.items.foldl print_item s.terminal)
      ((new ++ [Event.printed s.terminal.row s.terminal.col]).map (.interrupt, ·) ++ s.history) := by
    refine ⟨_, ?_, rfl⟩
    rw [split, List.foldl_cons, ← traced, List.append_assoc]
    rfl
  rw [interrupt_items literal ran, extended.after, List.map_append, List.append_assoc]
  exact ⟨_, rfl⟩

theorem interrupt_unsound (safe : Safe s) (literal : call.Literal) (unyielding : ¬ Yields s.terminal call)
    (ran : Interrupt call s s') : ¬ Sound s'.history := by
  have ⟨blocked, item, first, stays⟩ : Blocked s.terminal ∧ ∃ item ∈ call.items.head?, ¬ Breaks s.terminal item := by
    simpa [Yields] using unyielding
  obtain ⟨new, stored⟩ := interrupt_stores literal first stays ran
  rw [stored]
  intro sound
  cases sound_older sound with
  | store onScreen spares before =>
    rcases safe.blocked blocked with full | own
    · have left : s.terminal.row < 80 := onScreen.1
      omega
    · cases spares _ own

/-! ### The steps make up the calls -/

/-- The steps of the main kernel, if nothing interrupts them, make up `terminal_put_char`. -/
theorem put_char_steps (c : vga_char) {s : State} (idle : s.pc = .idle) : ∃ h, Relation.ReflTransGen KernelStep s
    ⟨terminal_put_char c s.terminal, .idle, h⟩ := by
  have stores := KernelStep.store c idle
  obtain ⟨s₁, first⟩ : ∃ s₁, s₁ = s.after .kernel (store_cell c s.terminal) .stored := ⟨_, rfl⟩
  have at₁ : s₁.pc = .stored ∧ s₁.terminal = store_cell c s.terminal := by rw [first]; exact ⟨rfl, rfl⟩
  have advances := KernelStep.increment at₁.1
  obtain ⟨s₂, second⟩ : ∃ s₂, s₂ = s₁.after .kernel (advance s₁.terminal) .incremented := ⟨_, rfl⟩
  have at₂ : s₂.pc = .incremented ∧ s₂.terminal = advance (store_cell c s.terminal) := by
    rw [second, ← at₁.2]
    exact ⟨rfl, rfl⟩
  have both : Relation.ReflTransGen KernelStep s s₂ := by
    rw [← first] at stores
    rw [← second] at advances
    exact .tail (.single stores) advances
  rw [terminal_put_char, ← at₂.2]
  by_cases full : s₂.terminal.row = s₂.terminal.row_max
  · rw [if_pos full]
    exact ⟨_, (both.tail (.test_full at₂.1 full)).tail (.wrap rfl)⟩
  · rw [if_neg full]
    exact ⟨_, both.tail (.test_room at₂.1 full)⟩

theorem Run.steps {allowed : Terminal → Printing.Call → Prop} (run : Run allowed s)
    (steps : Relation.ReflTransGen KernelStep s s') : Run allowed s' := by
  induction steps with
  | refl => exact run
  | tail _ step ih => exact .kernel ih step

/-- In every run whose handlers yield no store leaves the screen and neither
    context prints over the other; a handler that then does not yield does so. The
    kernel's next steps, if nothing interrupts them, print a character so. -/
theorem run_sound_iff (run : Run Polite s) : Sound s.history ∧
    (∀ (call : Printing.Call) (s' : State), call.Literal →
      Interrupt call s s' → (Sound s'.history ↔ Yields s.terminal call)) ∧
    ∀ c, s.pc = .idle → ∃ s', Run Polite s' ∧ s'.terminal = terminal_put_char c s.terminal ∧ s'.pc = .idle ∧ Sound s'.history := by
  have safe := run_safe run
  refine ⟨safe.sound, fun call s' literal ran => ⟨fun sound => ?_, fun yields => ?_⟩, fun c idle => ?_⟩
  · by_contra unyielding
    exact interrupt_unsound safe literal unyielding ran sound
  · exact (interrupt_safe safe ⟨literal, yields⟩ ran).sound
  · obtain ⟨h, steps⟩ := put_char_steps c idle
    have later := run.steps steps
    exact ⟨_, later, rfl, rfl, (run_safe later).sound⟩

end

/-! ### Calls that disturb -/

theorem blocked_store (c : vga_char) (t : Terminal) : Blocked (store_cell c t) := .inl rfl

theorem interrupt_runs {call : Printing.Call} (literal : call.Literal) (s : State) : ∃ s', Interrupt call s s' := by
  obtain ⟨console, ran, _⟩ := perform_items nothing literal ⟨s.terminal, 0, []⟩
  exact ⟨_, .run ran⟩

/-- The timer's handler. -/
def timer_print : Printing.Call := .terminal_printf (chars "T")

theorem timer_literal : timer_print.Literal := by
  show ∀ c ∈ chars "T", c ≠ backslash ∧ c ≠ code '%'
  decide +kernel

/-- The cleared screen, and the stores of the main kernel that cleared it. -/
def cleared : State where
  terminal := clear_terminal (opened fun _ => 0)
  pc := .idle
  history := (clear_terminal (opened fun _ => 0)).trace.map (.kernel, ·)

/-- A handler may break the line between two characters of the main kernel. -/
theorem run_sound_iff_break : ∃ s, Run Polite s ∧ s.pc = .stored ∧ Sound s.history ∧
    ∀ s', Interrupt timer_print s s' → (Sound s'.history ↔ Yields s.terminal timer_print) := by
  obtain ⟨s₁, first⟩ : ∃ s₁, s₁ = cleared.after .kernel (store_cell 97 cleared.terminal) .stored := ⟨_, rfl⟩
  have literal : Printing.Call.print_newline.Literal := trivial
  obtain ⟨s₂, ran⟩ := interrupt_runs literal s₁
  have stores : KernelStep cleared s₁ := by
    rw [first]
    exact .store 97 rfl
  have at_ : s₂.pc = .stored := by
    cases ran
    rw [first]
    rfl
  have yields : Yields s₁.terminal .print_newline := fun _ item head => by
    cases head
    trivial
  have run : Run Polite s₂ := .interrupt (.kernel (.start _) stores) ⟨literal, yields⟩ ran
  obtain ⟨sound, iff, -⟩ := run_sound_iff run
  exact ⟨s₂, run, at_, sound, fun s' again => iff timer_print s' timer_literal again⟩

/-- The timer prints over the character that the main kernel has just stored, and
    behind the 80 cells of a line that the main kernel has just filled. -/
theorem timer_disturbs : (∃ s, Run Any s ∧ ¬ Sound s.history) ∧ ∃ s, Run Any s ∧ ∃ e ∈ s.history, ¬ OnScreen e.2 := by
  constructor
  · obtain ⟨s₁, first⟩ : ∃ s₁, s₁ = cleared.after .kernel (store_cell 97 cleared.terminal) .stored := ⟨_, rfl⟩
    obtain ⟨s₂, ran⟩ := interrupt_runs timer_literal s₁
    have stores : KernelStep cleared s₁ := by
      rw [first]
      exact .store 97 rfl
    have safe : Safe s₁ := kernel_safe (start_safe _) stores
    have blocked : Blocked s₁.terminal := by
      rw [first]
      exact blocked_store 97 cleared.terminal
    have unyielding : ¬ Yields s₁.terminal timer_print := by
      intro yields
      exact yields blocked (.glyph (code 'T')) rfl
    exact ⟨s₂, .interrupt (.kernel (.start _) stores) timer_literal ran,
      interrupt_unsound safe timer_literal unyielding ran⟩
  · have literal : (Printing.Call.print_text (List.replicate 79 97)).Literal := trivial
    obtain ⟨s₁, ran⟩ := interrupt_runs literal cleared
    have eq := interrupt_items literal ran
    have at₁ : s₁.pc = .idle ∧ s₁.terminal.row = 79 := by
      rw [eq]
      exact ⟨rfl, by decide +kernel⟩
    obtain ⟨s₂, second⟩ : ∃ s₂, s₂ = s₁.after .kernel (store_cell 97 s₁.terminal) .stored := ⟨_, rfl⟩
    have stores : KernelStep s₁ s₂ := by
      rw [second]
      exact .store 97 at₁.1
    have at₂ : s₂.pc = .stored ∧ s₂.terminal.row = 79 := by
      rw [second]
      exact ⟨rfl, at₁.2⟩
    obtain ⟨s₃, third⟩ : ∃ s₃, s₃ = s₂.after .kernel (advance s₂.terminal) .incremented := ⟨_, rfl⟩
    have advances : KernelStep s₂ s₃ := by
      rw [third]
      exact .increment at₂.1
    have at₃ : s₃.terminal.row = 80 := by
      rw [third]
      exact congrArg (· + 1) at₂.2
    obtain ⟨s₄, prints⟩ := interrupt_runs timer_literal s₃
    have run : Run Any s₄ :=
      .interrupt (.kernel (.kernel (.interrupt (.start _) literal ran) stores) advances) timer_literal prints
    obtain ⟨new, stored⟩ := interrupt_stores timer_literal rfl id prints
    refine ⟨s₄, run, (.interrupt, .printed s₃.terminal.row s₃.terminal.col), ?_, ?_⟩
    · rw [stored]
      exact List.mem_append_right _ List.mem_cons_self
    · intro onScreen
      have left : s₃.terminal.row < 80 := onScreen.1
      omega

end OsC.Preempt
