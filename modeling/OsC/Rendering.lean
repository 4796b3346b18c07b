import OsC.HexDigits
import OsC.Printing

/-!
What `terminal_printf` puts on the screen. With any format and any arguments,
also where an assertion fails, it prints items like the other printers, so that
the buffer keeps showing the last lines (`printing_keeps_screen`). For a format
of pieces the items are known exactly (`rendered`, `printf_shows_rendered`).
-/
namespace OsC.Rendering
open OsC.Loop OsC.Word OsC.Vga OsC.Printf OsC.PrintfLoop OsC.Screen OsC.Printing OsC.Conversions OsC.HexDigits

/-! ### Any format -/

/-- The console that a routine leaves, with a result or at a fault. -/
def ended {α : Type} : EStateM.Result Fault Console α → Console
  | .ok _ s => s
  | .error _ s => s

/-- From every console the routine prints some items, and nothing else. -/
def Prints {α : Type} (x : Print α) : Prop :=
  ∀ s, ∃ items : List Item, (ended (x s)).terminal = items.foldl print_item s.terminal

section
variable {α β : Type} {x : Print α} {caller : Caller} {str : List UInt8}

theorem Prints.pure (a : α) : Prints (Pure.pure a) := fun _ => ⟨[], rfl⟩

theorem Prints.throw (fault : Fault) : Prints (throw fault : Print α) := fun _ => ⟨[], rfl⟩

theorem Prints.record (output : Output) : Prints (record output) := fun _ => ⟨[], rfl⟩

theorem Prints.onTerminal {act : Terminal → Terminal} (acts : ∀ t, ∃ items : List Item, act t = items.foldl print_item t) :
    Prints (onTerminal act) := fun s => acts s.terminal

theorem Prints.bind {f : α → Print β} (first : Prints x) (rest : ∀ a, Prints (f a)) : Prints (x >>= f) := by
  intro s
  obtain ⟨before, printed⟩ := first s
  cases ran : x s with
  | error fault s₁ =>
    rw [ran] at printed
    refine ⟨before, ?_⟩
    rw [bind_error ran]
    exact printed
  | ok a s₁ =>
    rw [ran] at printed
    obtain ⟨behind, printed'⟩ := rest a s₁
    refine ⟨before ++ behind, ?_⟩
    rw [bind_ok ran, printed', List.foldl_append, ← printed]
    rfl

theorem Prints.ite {condition : Prop} [Decidable condition] {y : Print α} (yes : Prints x) (no : Prints y) :
    Prints (if condition then x else y) := by
  by_cases holds : condition
  · rw [if_pos holds]
    exact yes
  · rw [if_neg holds]
    exact no

/-! The parsers print nothing. -/

theorem char_prints (str : List UInt8) (i : ℕ) : Prints (char str i) := by
  unfold char
  split
  · exact .pure _
  · split
    · exact .pure _
    · exact .throw _

theorem assert_prints (holds : Bool) (text : String) : Prints (assert holds text) := by
  unfold assert
  split
  · exact .pure _
  · exact .throw _

theorem get_flags_prints (f : printf_format) (str : List UInt8) (start : ℕ) : Prints (get_flags f str start) := by
  refine (char_prints str start).bind fun c => ?_
  split_ifs
  all_goals exact .pure _

theorem read_digits_prints (str : List UInt8) (start fuel i : ℕ) (d power : ℤ) :
    Prints (read_digits str start fuel i d power) := by
  induction fuel generalizing i d power with
  | zero => exact .throw _
  | succ fuel ih =>
    refine (char_prints str _).bind fun c => ?_
    split
    · exact ih _ _ _
    · exact .pure _

theorem get_width_prints (f : printf_format) (str : List UInt8) (start : ℕ) : Prints (get_width f str start) := by
  refine (char_prints str start).bind fun c => ?_
  split
  · exact .pure _
  · exact (read_digits_prints str start _ 0 0 1).bind fun _ => .pure _

theorem get_precision_prints (f : printf_format) (str : List UInt8) (start : ℕ) : Prints (get_precision f str start) := by
  refine (char_prints str start).bind fun c => ?_
  split
  · exact .pure _
  · refine (char_prints str _).bind fun _ => ?_
    exact (read_digits_prints str _ _ 1 0 1).bind fun _ => .pure _

theorem get_length_prints (str : List UInt8) (start : ℕ) : Prints (get_length str start) := by
  -- A letter that may be doubled.
  have doubled : ∀ (c : UInt8) (twice once : ℕ × types),
      Prints (char str (start + 1) >>= fun d => if d = c then Pure.pure twice else Pure.pure once) := by
    intro c twice once
    refine (char_prints str _).bind fun d => ?_
    split
    · exact .pure _
    · exact .pure _
  refine (char_prints str start).bind fun c => ?_
  split
  · exact doubled _ _ _
  split
  · exact doubled _ _ _
  split_ifs
  all_goals exact .pure _

theorem get_length_and_specifier_prints (f : printf_format) (str : List UInt8) (start : ℕ) :
    Prints (get_length_and_specifier f str start) := by
  refine (get_length_prints str start).bind fun length => ?_
  refine (char_prints str _).bind fun c => ?_
  dsimp only
  -- At most two assertions are checked, whatever the specifier.
  split_ifs
  all_goals first
    | exact .pure _
    | exact (assert_prints _ _).bind fun _ => .pure _
    | exact (assert_prints _ _).bind fun _ => (assert_prints _ _).bind fun _ => .pure _

theorem get_format_prints (f : printf_format) (str : List UInt8) (start : ℕ) : Prints (get_format f str start) := by
  refine (get_flags_prints f str start).bind fun flags => ?_
  refine (get_width_prints _ str _).bind fun width => ?_
  refine (get_precision_prints _ str _).bind fun precision => ?_
  exact (get_length_and_specifier_prints _ str _).bind fun _ => .pure _

/-! What prints, prints items. -/

theorem text_prints (text : List UInt8) : Prints (onTerminal (print_text text)) :=
  .onTerminal fun t => ⟨_, print_text_items text t⟩

theorem plain_prints (c : UInt8) : Prints (onTerminal (put_plain c)) :=
  .onTerminal fun t => ⟨[plain_item c], put_plain_item c t⟩

theorem buf_write_prints (buf : List UInt8) (i : ℤ) (c : UInt8) : Prints (buf_write buf i c) := by
  unfold buf_write
  split
  · exact .pure _
  · exact .throw _

theorem write_digits_prints (offset : UInt8) (fuel : ℕ) (buf : List UInt8) (i : ℤ) (num : ℕ) :
    Prints (write_digits offset fuel buf i num) := by
  induction fuel generalizing buf i num with
  | zero => exact .throw _
  | succ fuel ih =>
    rw [write_digits]
    split
    · exact (buf_write_prints _ _ _).bind fun _ => ih _ _ _
    · exact .pure _

theorem print_integer_as_hex_prints (caller : Caller) (f : printf_format) (num : ℕ) :
    Prints (print_integer_as_hex caller f num) := by
  -- The digits come from the buffer, or from the stack beside it.
  have digits : ∀ (inside : Prop) [Decidable inside] (text : List UInt8) (i : ℤ),
      Prints (if inside then onTerminal (print_text text) else do
        record (.outside i)
        onTerminal (print_text (caller.stack i))) := by
    intro inside _ text i
    split
    · exact text_prints _
    · exact (Prints.record _).bind fun _ => text_prints _
  refine (write_digits_prints _ _ _ _ _).bind fun buf => ?_
  refine Prints.ite ?_ ?_
  · refine (text_prints _).bind fun _ => ?_
    exact digits _ _ _
  · exact digits _ _ _

theorem print_integer_prints (caller : Caller) (f : printf_format) (num : ℕ) : Prints (print_integer caller f num) := by
  refine (Prints.record _).bind fun _ => ?_
  split
  · exact print_integer_as_hex_prints caller f num
  · exact .pure _

theorem string_items (text : List UInt8) (t : Terminal) :
    text.foldl (fun t c => terminal_put_char (make_vga_char c t.default_color) t) t = (text.map Item.glyph).foldl print_item t := by
  rw [List.foldl_map]
  rfl

theorem va_arg_prints (caller : Caller) : Prints (va_arg caller) := fun _ => ⟨[], rfl⟩

/-- A slot is taken, and what is made of it printed. -/
theorem fetch_prints {print : ℕ → Print Unit} (prints : ∀ slot, Prints (print slot)) : Prints (va_arg caller >>= print) :=
  (va_arg_prints caller).bind prints

theorem print_conversion_prints (caller : Caller) (f : printf_format) : Prints (print_conversion caller f) := by
  have integer : ∀ value : ℕ → ℕ, Prints (va_arg caller >>= fun slot => print_integer caller f (value slot)) :=
    fun value => fetch_prints fun slot => print_integer_prints caller f (value slot)
  unfold print_conversion
  cases f.type with
  | INT =>
    refine fetch_prints fun slot => ?_
    split
    · exact print_integer_prints caller f _
    · exact print_integer_prints caller f _
  | CHAR =>
    refine fetch_prints fun slot => ?_
    split
    · refine (Prints.record _).bind fun _ => ?_
      exact .onTerminal fun t => ⟨_, string_items _ t⟩
    · refine (Prints.record _).bind fun _ => ?_
      exact .onTerminal fun t => ⟨[.glyph _], rfl⟩
  | SHORT_INT => exact integer _
  | LONG_INT => exact integer _
  | LONG_LONG_INT => exact integer _
  | INTMAX_T => exact integer _
  | SIZE_T => exact integer id
  | PTRDIFF_T => exact integer _
  | WCHAR_T => exact fetch_prints fun _ => .pure _
  | VOID => exact assert_prints _ _
  | NO_FORMAT => exact .pure _
  | S_CHAR => exact .pure _
  | LONG_DOUBLE => exact .pure _
  | WINT_T => exact .pure _
  | DOUBLE => exact .pure _

theorem take_argument_prints (caller : Caller) (n : ℤ) : Prints (take_argument caller n) := by
  unfold take_argument
  split
  · exact (va_arg_prints caller).bind fun _ => .pure _
  · exact .pure _

theorem turn_prints (caller : Caller) (str : List UInt8) (i : ℕ) : Prints (printf_turn caller str i) := by
  -- One character, and on behind it.
  have single : ∀ (c : UInt8) (j : ℕ), Prints (onTerminal (put_plain c) >>= fun _ => Pure.pure j) :=
    fun c j => (plain_prints c).bind fun _ => .pure j
  refine (char_prints str i).bind fun c => ?_
  split
  · refine (char_prints str _).bind fun d => ?_
    exact single _ _
  split
  · refine (char_prints str _).bind fun d => ?_
    split
    · refine (Prints.record _).bind fun _ => ?_
      refine (get_format_prints _ str _).bind fun parsed => ?_
      refine (take_argument_prints caller _).bind fun width => ?_
      refine (take_argument_prints caller _).bind fun precision => ?_
      exact (print_conversion_prints caller _).bind fun _ => .pure _
    · exact single _ _
  · exact single _ _

theorem loop_prints (caller : Caller) (str : List UInt8) (fuel i : ℕ) : Prints (printf_loop caller str fuel i) := by
  induction fuel generalizing i with
  | zero => exact .throw _
  | succ fuel ih =>
    rw [printf_loop]
    split
    · refine (turn_prints caller str i).bind fun j => ?_
      exact ih (j + 1)
    · exact .pure _

theorem terminal_printf_prints (caller : Caller) (str : List UInt8) : Prints (terminal_printf caller str) := by
  have start : Prints (modify fun s => { s with next_arg := 0 }) := fun _ => ⟨[], rfl⟩
  exact start.bind fun _ => loop_prints caller str _ _

theorem perform_prints (caller : Caller) (c : Call) : Prints (c.perform caller) := by
  cases c with
  | print_text text => exact text_prints text
  | terminal_print_char c => exact .onTerminal fun t => ⟨[char_item c], print_char_item c t⟩
  | print_newline => exact .onTerminal fun _ => ⟨[.newline], rfl⟩
  | terminal_printf str => exact terminal_printf_prints caller str

/-- Calls one behind the other, each with what its caller passes. -/
def perform_all (calls : List (Caller × Call)) : Print Unit := calls.forM fun c => c.2.perform c.1

theorem perform_all_prints (calls : List (Caller × Call)) : Prints (perform_all calls) := by
  induction calls with
  | nil => exact .pure _
  | cons c calls ih => exact (perform_prints c.1 c.2).bind fun _ => ih

/-- From a cleared screen any calls of the printing functions, with any formats,
    arguments, strings and stack contents, leave the screen as the last 25 lines
    of some output, up to a fault or to their end. -/
theorem printing_keeps_screen (calls : List (Caller × Call)) (buffer : ℕ → vga_char) (s : Console) : ∃ items : List Item,
    Shows (opened buffer).default_color
      (ended (perform_all calls { s with terminal := clear_terminal (opened buffer) })).terminal (page items) := by
  have shows := clear_terminal_shows buffer
  revert shows
  generalize clear_terminal (opened buffer) = t
  intro shows
  obtain ⟨items, printed⟩ := perform_all_prints calls { s with terminal := t }
  refine ⟨items, ?_⟩
  rw [printed]
  exact print_items_shows shows items

end

/-! ### A format of pieces -/

/-- The value that reaches the printing routine for an integer in a slot. -/
def Modifier.value (slot : ℕ) : Modifier → ℕ
  | .none => slot % 2 ^ 32
  | .h => wrap (signed 16 slot)
  | _ => slot

theorem Modifier.value_lt {slot : ℕ} (fits : slot < 2 ^ 64) (modifier : Modifier) : Modifier.value slot modifier < 2 ^ 64 := by
  cases modifier with
  | none => exact Nat.lt_of_lt_of_le (Nat.mod_lt _ (by decide)) (by decide)
  | h => exact wrap_lt _
  | hh => exact fits
  | l => exact fits
  | ll => exact fits
  | j => exact fits
  | z => exact fits
  | t => exact fits

/-- The text of a number behind the prefix: the end of the buffer, or what lies outside it. -/
def hex_text (caller : Caller) (f : printf_format) (num : ℕ) : List UInt8 :=
  if 0 ≤ first_index f num ∧ first_index f num < 17 then
    (padded (offset_for_hex f) num).drop (first_index f num).toNat
  else caller.stack (first_index f num)

/-- What is printed for a conversion with a format, if its slot has this value:
    nothing for a character, whose specifier has no branch of its own. -/
def Spec.items (caller : Caller) (f : printf_format) (slot : ℕ) : Spec → List Item
  | .hex _ .hh => []
  | .hex _ modifier => (hex_lead f ++ hex_text caller f (Modifier.value slot modifier)).map char_item
  | .char => []
  | .string => (caller.strings (wrap (signed 32 slot))).map .glyph

/-- The format that a conversion is printed with. -/
def Conversion.printed (caller : Caller) (j : ℕ) (v : Conversion) : printf_format :=
  { v.parsed with width := Width.used caller j v.width }

/-- What a format prints, with `j` the next slot. -/
def rendered (caller : Caller) : ℕ → List Piece → List Item
  | _, [] => []
  | j, .plain c _ :: pieces => plain_item c :: rendered caller j pieces
  | j, .escaped c :: pieces => plain_item c :: rendered caller j pieces
  | j, .percent :: pieces => .glyph (code '%') :: rendered caller j pieces
  | j, .conversion v :: pieces =>
    Spec.items caller (Conversion.printed caller j v) (caller.args (j + v.width.taken)).toNat v.spec ++
      rendered caller (j + v.width.taken + v.spec.slots) pieces

/-- From one console to another some slots were taken, and items printed. -/
structure Puts (s s' : Console) (slots : ℕ) (items : List Item) : Prop where
  next : s'.next_arg = s.next_arg + slots
  screen : s'.terminal = items.foldl print_item s.terminal

section
variable {s s₁ s₂ : Console} {j k : ℕ} {a b : List Item} {caller : Caller}

theorem Puts.trans (first : Puts s s₁ j a) (second : Puts s₁ s₂ k b) : Puts s s₂ (j + k) (a ++ b) :=
  ⟨by rw [second.next, first.next, Nat.add_assoc], by rw [second.screen, first.screen, List.foldl_append]⟩

theorem Puts.plain (s : Console) (c : UInt8) : Puts s (shown s (put_plain c)) 0 [plain_item c] :=
  ⟨rfl, put_plain_item c s.terminal⟩

theorem Puts.text (s : Console) (text : List UInt8) : Puts s (shown s (print_text text)) 0 (text.map char_item) :=
  ⟨rfl, print_text_items text s.terminal⟩

theorem print_integer_as_hex_puts (caller : Caller) (f : printf_format) {num : ℕ} (fits : num < 2 ^ 64) (s : Console) : ∃ s',
    print_integer_as_hex caller f num s = .ok () s' ∧ Puts s s' 0 ((hex_lead f ++ hex_text caller f num).map char_item) := by
  have lead := Puts.text s (hex_lead f)
  refine ⟨_, hex_run caller f fits s, ?_⟩
  rw [List.map_append, hex_text]
  split
  · exact lead.trans (Puts.text (prefixed f s) _)
  · have all := lead.trans (Puts.text (prefixed f s) (caller.stack (first_index f num)))
    exact ⟨all.next, all.screen⟩

theorem print_integer_puts (caller : Caller) (f : printf_format) {num : ℕ} (fits : num < 2 ^ 64) (s : Console) : ∃ s',
    print_integer caller f num s = .ok () s' ∧ Puts s s' 0
      (if f.specifier = code 'X' ∨ f.specifier = code 'x' then (hex_lead f ++ hex_text caller f num).map char_item else []) := by
  have recorded : record (.integer f.specifier num) s = .ok () { s with trace := .integer f.specifier num :: s.trace } := rfl
  rw [print_integer, bind_ok recorded]
  split
  · obtain ⟨s', ran, puts⟩ := print_integer_as_hex_puts caller f fits { s with trace := .integer f.specifier num :: s.trace }
    exact ⟨s', ran, puts.next, puts.screen⟩
  · exact ⟨_, rfl, rfl, rfl⟩

/-- A slot is fetched and what is made of it printed. -/
theorem fetch_puts {print : ℕ → Print Unit} {items : List Item}
    (prints : ∀ s₁, ∃ s', print (caller.args s.next_arg).toNat s₁ = .ok () s' ∧ Puts s₁ s' 0 items) :
    ∃ s', (va_arg caller >>= print) s = .ok () s' ∧ Puts s s' 1 items := by
  obtain ⟨s', ran, puts⟩ := prints { s with next_arg := s.next_arg + 1, trace := .took s.next_arg :: s.trace }
  exact ⟨s', ran, puts.next, puts.screen⟩

theorem print_string_puts (caller : Caller) (data : ℕ) (s : Console) : ∃ s',
    print_string caller data s = .ok () s' ∧ Puts s s' 0 ((caller.strings data).map .glyph) :=
  ⟨_, rfl, rfl, string_items _ _⟩

theorem print_conversion_puts (caller : Caller) (spec : Spec) (f : printf_format) (s : Console) : ∃ s',
    print_conversion caller (spec.parsed f) s = .ok () s' ∧
      Puts s s' spec.slots (Spec.items caller (spec.parsed f) (caller.args s.next_arg).toNat spec) := by
  have small := slot_lt caller s.next_arg
  have whole := wrap_signed_64 small
  cases spec with
  | hex upper modifier =>
    have letter : ((Spec.hex upper modifier).parsed f).specifier = code 'X' ∨
        ((Spec.hex upper modifier).parsed f).specifier = code 'x' := by
      cases upper with
      | true => exact .inl rfl
      | false => exact .inr rfl
    have number : ∀ {num : ℕ}, num < 2 ^ 64 → ∀ s₁, ∃ s',
        print_integer caller ((Spec.hex upper modifier).parsed f) num s₁ = .ok () s' ∧
          Puts s₁ s' 0 ((hex_lead ((Spec.hex upper modifier).parsed f) ++
            hex_text caller ((Spec.hex upper modifier).parsed f) num).map char_item) := by
      intro num fits s₁
      have puts := print_integer_puts caller ((Spec.hex upper modifier).parsed f) fits s₁
      rw [if_pos letter] at puts
      exact puts
    cases modifier with
    | none => exact fetch_puts fun s₁ => number (Nat.lt_of_lt_of_le (Nat.mod_lt _ (by decide)) (by decide)) s₁
    | hh => exact ⟨s, rfl, rfl, rfl⟩
    | h => exact fetch_puts fun s₁ => number (wrap_lt _) s₁
    | l =>
      refine fetch_puts fun s₁ => ?_
      simp only [print_long_int, whole]
      exact number small s₁
    | ll =>
      refine fetch_puts fun s₁ => ?_
      simp only [print_long_long_int, whole]
      exact number small s₁
    | j =>
      refine fetch_puts fun s₁ => ?_
      simp only [print_intmax_t, whole]
      exact number small s₁
    | z => exact fetch_puts fun s₁ => number small s₁
    | t =>
      refine fetch_puts fun s₁ => ?_
      simp only [print_ptrdiff_t, whole]
      exact number small s₁
  | char =>
    refine fetch_puts fun s₁ => ?_
    exact print_integer_puts caller (Spec.char.parsed f) (wrap_lt (signed 32 (caller.args s.next_arg).toNat)) s₁
  | string => exact fetch_puts fun s₁ => print_string_puts caller _ s₁

/-- What is put on the screen for a piece. -/
def Draws (caller : Caller) (s s' : Console) (piece : Piece) : Prop :=
  ∃ slots items, Puts s s' slots items ∧
    ∀ pieces, rendered caller s.next_arg (piece :: pieces) = items ++ rendered caller s'.next_arg pieces

theorem draws_rule (caller : Caller) : Rule caller (Draws caller) where
  plain s c _ := ⟨0, _, .plain s c, fun _ => rfl⟩
  escaped s c := ⟨0, _, .plain s c, fun _ => rfl⟩
  percent s := ⟨0, _, .plain s (code '%'), fun _ => rfl⟩
  conversion s v := by
    obtain ⟨s₁, takes, added, same⟩ := take_argument_run caller v.width { s with trace := .conversion :: s.trace }
    obtain ⟨s', prints, printed⟩ := print_conversion_puts caller v.spec
      { (default : printf_format) with flags := v.flag.bits, width := Width.used caller s.next_arg v.width, precision := NONE } s₁
    have taken : Puts s s₁ v.width.taken [] := ⟨added.next, same⟩
    have all := taken.trans printed
    refine ⟨_, s₁, s', takes, prints, _, _, all, fun pieces => ?_⟩
    rw [rendered, all.next, taken.next, ← Nat.add_assoc]
    rfl

theorem Each.draws {pieces : List Piece} (each : Each (Draws caller) s s₁ pieces) :
    ∃ slots, Puts s s₁ slots (rendered caller s.next_arg pieces) := by
  induction each with
  | nil s => exact ⟨0, rfl, rfl⟩
  | cons first rest ih =>
    obtain ⟨slots, items, puts, split⟩ := first
    obtain ⟨more, puts'⟩ := ih
    refine ⟨slots + more, ?_⟩
    rw [split]
    exact puts.trans puts'

/-- The routine comes to its end and has printed these items. -/
def Renders (x : Print Unit) (items : List Item) : Prop :=
  ∀ s, ∃ s', x s = .ok () s' ∧ s'.terminal = items.foldl print_item s.terminal

theorem Renders.bind {x y : Print Unit} {before behind : List Item} (first : Renders x before) (second : Renders y behind) :
    Renders (x >>= fun _ => y) (before ++ behind) := by
  intro s
  obtain ⟨s₁, ran, printed⟩ := first s
  obtain ⟨s₂, ran', printed'⟩ := second s₁
  exact ⟨s₂, (bind_ok ran _).trans ran', by rw [printed', printed, List.foldl_append]⟩

/-- A call with a format of these pieces prints what the pieces and the arguments say. -/
theorem printf_renders (caller : Caller) (pieces : List Piece) :
    Renders (terminal_printf caller (format pieces)) (rendered caller 0 pieces) := by
  intro s
  obtain ⟨s', ran, each⟩ := (draws_rule caller).printf pieces s
  obtain ⟨_, puts⟩ := Each.draws each
  exact ⟨s', ran, puts.screen⟩

/-- Calls with formats of pieces, each with what its caller passes. -/
def printf_all (calls : List (Caller × List Piece)) : Print Unit := calls.forM fun c => terminal_printf c.1 (format c.2)

theorem printf_all_renders (calls : List (Caller × List Piece)) :
    Renders (printf_all calls) (calls.flatMap fun c => rendered c.1 0 c.2) := by
  induction calls with
  | nil => exact fun s => ⟨s, rfl, rfl⟩
  | cons c calls ih => exact (printf_renders c.1 c.2).bind ih

/-- A hexadecimal conversion with a width from 0 to 15 prints its value, in one digit more than the
    width asks for, or in more where the number has more. -/
theorem rendered_number {v : Conversion} {upper : Bool} {modifier : Modifier} (caller : Caller) (j : ℕ)
    (spec : v.spec = .hex upper modifier) (long : modifier ≠ .hh) (low : 0 ≤ Width.used caller j v.width)
    (high : Width.used caller j v.width ≤ 15) : ∃ text,
      rendered caller j [.conversion v] = (hex_lead (Conversion.printed caller j v) ++ text).map char_item ∧
        Numeral upper (Modifier.value (caller.args (j + v.width.taken)).toNat modifier) text ∧
        (text.length : ℤ) = max (significant (Modifier.value (caller.args (j + v.width.taken)).toNat modifier) : ℤ)
          (Width.used caller j v.width + 1) := by
  have fits := Modifier.value_lt (caller.args (j + v.width.taken)).toNat_lt modifier
  have specifier : (Conversion.printed caller j v).specifier = if upper then code 'X' else code 'x' := by
    rw [Conversion.printed, Conversion.parsed, spec]
    rfl
  generalize number : Modifier.value (caller.args (j + v.width.taken)).toNat modifier = num at fits ⊢
  change 0 ≤ (Conversion.printed caller j v).width at low
  change (Conversion.printed caller j v).width ≤ 15 at high
  have inside := (inside_iff fits (by omega) (by omega) (Conversion.printed caller j v) rfl).mpr ⟨by omega, high⟩
  have items : rendered caller j [.conversion v] = (hex_lead (Conversion.printed caller j v) ++
      hex_text caller (Conversion.printed caller j v) num).map char_item := by
    rw [rendered, rendered, List.append_nil, spec, ← number]
    cases modifier with
    | hh => exact absurd rfl long
    | none => rfl
    | h => rfl
    | l => rfl
    | ll => rfl
    | j => rfl
    | z => rfl
    | t => rfl
  rw [hex_text, if_pos inside] at items
  refine ⟨_, items, padded_numeral fits specifier (first_index_early fits low high), ?_⟩
  rw [List.length_drop, padded_length _ fits]
  exact first_index_rest fits low high

/-- From a cleared screen any calls with formats of pieces come to their end, and
    the screen shows the last 25 lines of what the pieces and the arguments say:
    numbers in digits that read back as their values, where the width is from 0 to 15. -/
theorem printf_shows_rendered (calls : List (Caller × List Piece)) (buffer : ℕ → vga_char) (s : Console) :
    (∃ s', printf_all calls { s with terminal := clear_terminal (opened buffer) } = .ok () s' ∧
      Shows (opened buffer).default_color s'.terminal (page (calls.flatMap fun c => rendered c.1 0 c.2))) ∧
    ∀ caller j v upper modifier, v.spec = .hex upper modifier → modifier ≠ .hh → 0 ≤ Width.used caller j v.width →
      Width.used caller j v.width ≤ 15 → ∃ text,
        rendered caller j [.conversion v] = (hex_lead (Conversion.printed caller j v) ++ text).map char_item ∧
          Numeral upper (Modifier.value (caller.args (j + v.width.taken)).toNat modifier) text ∧
          (text.length : ℤ) = max (significant (Modifier.value (caller.args (j + v.width.taken)).toNat modifier) : ℤ)
            (Width.used caller j v.width + 1) := by
  refine ⟨?_, fun caller j v upper modifier => rendered_number caller j⟩
  have shows := clear_terminal_shows buffer
  revert shows
  generalize clear_terminal (opened buffer) = t
  intro shows
  obtain ⟨s', ran, printed⟩ := printf_all_renders calls { s with terminal := t }
  refine ⟨s', ran, ?_⟩
  rw [printed]
  exact print_items_shows shows _

end

end OsC.Rendering
