import OsC.Conversions

/-!
Format strings that end anywhere. The loop of `terminal_printf` and the parsers
look ahead, but every look ahead stops at the NUL, except that of a precision
whose point is the last character of the string (`reads_inside_iff`).
-/
namespace OsC.Truncated
open OsC.Loop OsC.Word OsC.Vga OsC.Printf OsC.PrintfLoop OsC.Conversions

/-- The rest of a format string comes, behind characters, escapes and conversions
    that are printed, to a conversion that is cut off behind its point. -/
inductive Cut : List UInt8 → Prop
  | ordinary {c : UInt8} {rest : List UInt8} (ordinary : Ordinary c) (cut : Cut rest) : Cut (c :: rest)
  | escaped {c : UInt8} {rest : List UInt8} (cut : Cut rest) : Cut (backslash :: c :: rest)
  | percent {rest : List UInt8} (cut : Cut rest) : Cut (code '%' :: code '%' :: rest)
  | conversion {v : Shape} {rest : List UInt8} (ends : v.Ends rest) (prints : v.letter ≠ code 'p') (cut : Cut rest) :
    Cut (code '%' :: (v.chars ++ rest))
  | point {flag : Flag} {width : Width} (unambiguous : flag = .none → ∀ digits, width ≠ .literal (0 :: digits)) :
    Cut (code '%' :: (flag.chars ++ (width.chars ++ [code '.'])))

/-- The call returns or an assertion fails; it reads nothing behind the NUL. -/
def Inside (caller : Caller) (str : List UInt8) (s : Console) : Prop :=
  (∃ s', terminal_printf caller str s = .ok () s') ∨ ∃ message s', terminal_printf caller str s = .error (.assertion message) s'

section
variable {caller : Caller} {before rest text : List UInt8} {s : Console} {c : UInt8} {fuel : ℕ}

/-! ### Printing a conversion -/

theorem fetch_ok {print : ℕ → Print Unit} (prints : ∀ s₁, ∃ s', print (caller.args s.next_arg).toNat s₁ = .ok () s') :
    ∃ s', (va_arg caller >>= print) s = .ok () s' := by
  obtain ⟨s₁, fetches, -⟩ := va_arg_run caller s
  obtain ⟨s₂, ran⟩ := prints s₁
  exact ⟨s₂, (bind_ok fetches _).trans ran⟩

theorem print_integer_ok (caller : Caller) (f : printf_format) {num : ℕ} (fits : num < 2 ^ 64) (s : Console) :
    ∃ s', print_integer caller f num s = .ok () s' := by
  obtain ⟨s', ran, -⟩ := print_integer_run caller f fits s
  exact ⟨s', ran⟩

/-- Only a conversion of a pointer fails, on an assertion. -/
theorem print_conversion_ok (caller : Caller) (f : printf_format) (notVoid : f.type ≠ .VOID) (s : Console) :
    ∃ s', print_conversion caller f s = .ok () s' := by
  rw [print_conversion]
  cases type : f.type with
  | NO_FORMAT => exact ⟨s, rfl⟩
  | S_CHAR => exact ⟨s, rfl⟩
  | LONG_DOUBLE => exact ⟨s, rfl⟩
  | WINT_T => exact ⟨s, rfl⟩
  | DOUBLE => exact ⟨s, rfl⟩
  | VOID => exact absurd type notVoid
  | INT =>
    refine fetch_ok fun s₁ => ?_
    split
    · exact print_integer_ok caller f (Nat.lt_of_lt_of_le (Nat.mod_lt _ (by simp)) (by simp)) s₁
    · exact print_integer_ok caller f (wrap_lt _) s₁
  | CHAR =>
    refine fetch_ok fun s₁ => ?_
    split
    · exact ⟨_, rfl⟩
    · exact ⟨_, rfl⟩
  | SHORT_INT => exact fetch_ok fun s₁ => print_integer_ok caller f (wrap_lt _) s₁
  | LONG_INT => exact fetch_ok fun s₁ => print_integer_ok caller f (wrap_lt _) s₁
  | LONG_LONG_INT => exact fetch_ok fun s₁ => print_integer_ok caller f (wrap_lt _) s₁
  | INTMAX_T => exact fetch_ok fun s₁ => print_integer_ok caller f (wrap_lt _) s₁
  | SIZE_T => exact fetch_ok fun s₁ => print_integer_ok caller f (slot_lt caller s.next_arg) s₁
  | PTRDIFF_T => exact fetch_ok fun s₁ => print_integer_ok caller f (wrap_lt _) s₁
  | WCHAR_T => exact fetch_ok fun s₁ => ⟨s₁, rfl⟩

theorem take_argument_ok (caller : Caller) (n : ℤ) (s : Console) : ∃ w s', take_argument caller n s = .ok w s' := by
  rw [take_argument]
  split
  · exact ⟨_, _, rfl⟩
  · exact ⟨_, _, rfl⟩

theorem argument_type_void (v : Shape) : argument_type v.length.type v.letter = .VOID ↔ v.letter = code 'p' := by
  have plain : v.length.type ≠ .VOID := by
    cases v.length with
    | long_double => simp [Length.type]
    | modifier m => cases m <;> simp [Length.type, Modifier.type]
  constructor
  · intro void
    by_contra other
    simp only [argument_type, if_neg other] at void
    split at void
    · split at void
      · simp at void
      · exact plain void
    · split at void
      · split at void
        · simp at void
        · exact plain void
      · split at void
        · split at void
          · simp at void
          · simp at void
        · exact plain void
  · intro pointer
    rw [pointer]
    rfl

/-! ### A turn at a percent sign -/

/-- The console with the mark of a conversion. -/
def marked (s : Console) : Console := { s with trace := .conversion :: s.trace }

theorem turn_parses (caller : Caller) (begins : text.headD 0 ≠ code '%') : ∀ {n : ℕ} {f : printf_format},
    get_format default (before ++ code '%' :: text) (before.length + 1) (marked s) = .ok (n, f) (marked s) →
    ∃ w p s', printf_turn caller (before ++ code '%' :: text) before.length s =
      (do print_conversion caller { f with width := w, precision := p }; pure (before.length + 1 + n)) s' := by
  intro n f parsed
  obtain ⟨w, s₁, width⟩ := take_argument_ok caller f.width (marked s)
  obtain ⟨p, s₂, precision⟩ := take_argument_ok caller f.precision s₁
  refine ⟨w, p, s₂, ?_⟩
  rw [turn_format caller before begins]
  refine (bind_ok parsed _).trans ?_
  refine (bind_ok width _).trans ?_
  exact bind_ok precision _

theorem turn_fails {e : Fault} (begins : text.headD 0 ≠ code '%')
    (failed : get_format default (before ++ code '%' :: text) (before.length + 1) (marked s) = .error e (marked s)) :
    printf_turn caller (before ++ code '%' :: text) before.length s = .error e (marked s) := by
  rw [turn_format _ before begins]
  exact bind_error failed _

theorem turn_run (caller : Caller) (before : List UInt8) {v : Shape} (ends : v.Ends rest) (s : Console) : ∃ w p s',
    printf_turn caller (before ++ code '%' :: (v.chars ++ rest)) before.length s =
      (do print_conversion caller { v.parsed with width := w, precision := p }
          pure (before.length + v.chars.length)) s' := by
  have parsed := get_format_run default v (behind_percent before (v.chars ++ rest)) ends (marked s)
  obtain ⟨w, p, s', ran⟩ := turn_parses caller (shape_begins v rest) parsed
  have position : before.length + 1 + (v.chars.length - 1) = before.length + v.chars.length := by
    have := shape_length v
    omega
  rw [position] at ran
  exact ⟨w, p, s', ran⟩

/-- An accepted conversion is printed, and the turn ends at its letter. -/
theorem turn_shape (caller : Caller) (before : List UInt8) {v : Shape} (ends : v.Ends rest) (prints : v.letter ≠ code 'p')
    (s : Console) : ∃ s', printf_turn caller (before ++ code '%' :: (v.chars ++ rest)) before.length s =
      .ok (before.length + v.chars.length) s' := by
  obtain ⟨w, p, s₁, ran⟩ := turn_run caller before ends s
  obtain ⟨s₂, printed⟩ := print_conversion_ok caller { v.parsed with width := w, precision := p }
    (fun void => prints ((argument_type_void v).mp void)) s₁
  exact ⟨s₂, ran.trans (bind_ok printed _)⟩

/-- A pointer is not printed. -/
theorem turn_pointer (caller : Caller) (before : List UInt8) {v : Shape} (ends : v.Ends rest) (pointer : v.letter = code 'p')
    (s : Console) : ∃ message s', printf_turn caller (before ++ code '%' :: (v.chars ++ rest)) before.length s =
      .error (.assertion message) s' := by
  obtain ⟨w, p, s₁, ran⟩ := turn_run caller before ends s
  have void : v.parsed.type = .VOID := (argument_type_void v).mpr pointer
  have failed : print_conversion caller { v.parsed with width := w, precision := p } s₁ = .error (.assertion "0!=0") s₁ := by
    rw [print_conversion, void]
    rfl
  exact ⟨_, s₁, ran.trans (bind_error failed _)⟩

/-- A conversion that is cut off behind its point is read to behind the NUL. -/
theorem turn_point (caller : Caller) (before : List UInt8) {flag : Flag} {width : Width}
    (unambiguous : flag = .none → ∀ digits, width ≠ .literal (0 :: digits)) (s : Console) : ∃ i s',
    printf_turn caller (before ++ code '%' :: (flag.chars ++ (width.chars ++ [code '.']))) before.length s =
      .error (.index i) s' := by
  have begins : (flag.chars ++ (width.chars ++ [code '.'])).headD 0 ≠ code '%' := by
    have all : ∀ c ∈ flag.chars ++ (width.chars ++ [code '.']), c ≠ code '%' := by
      intro c member
      simp only [List.mem_append, List.mem_singleton] at member
      rcases member with flagged | wide | rfl
      · exact flag_percent flag c flagged
      · exact width_percent width c wide
      · decide
    cases text : flag.chars ++ (width.chars ++ [code '.']) with
    | nil => simp at text
    | cons c rest =>
      rw [text] at all
      exact all c List.mem_cons_self
  exact ⟨_, _, turn_fails begins (get_format_cut default unambiguous (behind_percent before _) (marked s))⟩

/-! ### The loop -/

theorem loop_fails {str : List UInt8} {i : ℕ} {e : Fault} {s' : Console} (less : i < str.length)
    (failed : printf_turn caller str i s = .error e s') : printf_loop caller str (fuel + 1) i s = .error e s' := by
  rw [printf_loop, if_pos less, bind_error failed]

theorem loop_behind {str : List UInt8} {i : ℕ} (behind : str.length ≤ i) :
    printf_loop caller str (fuel + 1) i s = .ok () s := by
  rw [printf_loop, if_neg (by omega)]
  rfl

/-- The loop goes on behind what a turn used. -/
theorem loop_goes (front : List UInt8) {s' : Console} (used : 0 < front.length)
    (ran : printf_turn caller (before ++ (front ++ rest)) before.length s = .ok (before.length + front.length - 1) s') :
    printf_loop caller (before ++ (front ++ rest)) (fuel + 1) before.length s =
      printf_loop caller ((before ++ front) ++ rest) fuel (before ++ front).length s' := by
  have inside : before.length < (before ++ (front ++ rest)).length := by
    simp only [List.length_append]
    omega
  have position : before.length + front.length - 1 + 1 = (before ++ front).length := by
    rw [List.length_append]
    omega
  rw [loop_turn inside ran, position, List.append_assoc]

/-- A string that is cut off so is read behind its NUL. -/
theorem cut_reads (cut : Cut rest) (before : List UInt8) (fuel : ℕ) (s : Console) (enough : rest.length < fuel) :
    ∃ i s', printf_loop caller (before ++ rest) fuel before.length s = .error (.index i) s' := by
  induction cut generalizing before fuel s with
  | @ordinary c rest ordinary cut ih =>
    obtain ⟨fuel, rfl⟩ : ∃ n, fuel = n + 1 := ⟨fuel - 1, by omega⟩
    obtain ⟨i, s', failed⟩ := ih (before ++ [c]) fuel (shown s (put_plain c)) (by simp at enough; omega)
    exact ⟨i, s', (loop_goes [c] (by simp) (turn_ordinary ordinary)).trans failed⟩
  | @escaped c rest cut ih =>
    obtain ⟨fuel, rfl⟩ : ∃ n, fuel = n + 1 := ⟨fuel - 1, by omega⟩
    obtain ⟨i, s', failed⟩ := ih (before ++ [backslash, c]) fuel (shown s (put_plain c)) (by simp at enough; omega)
    exact ⟨i, s', (loop_goes [backslash, c] (by simp) turn_escaped).trans failed⟩
  | @percent rest cut ih =>
    obtain ⟨fuel, rfl⟩ : ∃ n, fuel = n + 1 := ⟨fuel - 1, by omega⟩
    obtain ⟨i, s', failed⟩ := ih (before ++ [code '%', code '%']) fuel (shown s (put_plain (code '%')))
      (by simp at enough; omega)
    exact ⟨i, s', (loop_goes [code '%', code '%'] (by simp) turn_percent).trans failed⟩
  | @conversion v rest ends prints cut ih =>
    obtain ⟨fuel, rfl⟩ : ∃ n, fuel = n + 1 := ⟨fuel - 1, by omega⟩
    obtain ⟨s₁, ran⟩ := turn_shape caller before ends prints s
    obtain ⟨i, s', failed⟩ := ih (before ++ code '%' :: v.chars) fuel s₁ (by simp at enough; omega)
    exact ⟨i, s', (loop_goes (code '%' :: v.chars) (by simp) ran).trans failed⟩
  | @point flag width unambiguous =>
    obtain ⟨fuel, rfl⟩ : ∃ n, fuel = n + 1 := ⟨fuel - 1, by omega⟩
    obtain ⟨i, s', failed⟩ := turn_point caller before unambiguous s
    exact ⟨i, s', loop_fails (by simp) failed⟩

/-- How the loop may end. -/
def Outcome (rest : List UInt8) (r : EStateM.Result Fault Console Unit) : Prop :=
  Cut rest ∨ (∃ s', r = .ok () s') ∨ ∃ message s', r = .error (.assertion message) s'

theorem loop_outcome (n : ℕ) (rest : List UInt8) (most : rest.length ≤ n) (before : List UInt8) (fuel : ℕ) (s : Console)
    (enough : rest.length < fuel) : Outcome rest (printf_loop caller (before ++ rest) fuel before.length s) := by
  induction n generalizing rest before fuel s with
  | zero =>
    obtain rfl : rest = [] := List.eq_nil_of_length_eq_zero (by omega)
    obtain ⟨fuel, rfl⟩ : ∃ n, fuel = n + 1 := ⟨fuel - 1, by omega⟩
    exact .inr (.inl ⟨s, loop_behind (by simp)⟩)
  | succ n ih =>
    obtain ⟨fuel, rfl⟩ : ∃ n, fuel = n + 1 := ⟨fuel - 1, by omega⟩
    -- A turn that uses some characters leaves the outcome to the others.
    have goOn : ∀ front rest' s', rest = front ++ rest' → 0 < front.length →
        printf_turn caller (before ++ (front ++ rest')) before.length s = .ok (before.length + front.length - 1) s' →
        (Cut rest' → Cut rest) → Outcome rest (printf_loop caller (before ++ rest) (fuel + 1) before.length s) := by
      rintro front rest' s' rfl used ran extends_
      rw [List.length_append] at most enough
      rw [loop_goes front used ran]
      exact (ih rest' (by omega) (before ++ front) fuel s' (by omega)).imp_left extends_
    cases rest with
    | nil => exact .inr (.inl ⟨s, loop_behind (by simp)⟩)
    | cons c rest =>
      by_cases escape : c = backslash
      · obtain rfl := escape
        cases rest with
        | nil =>
          -- The escaped character is the NUL, and the turn ends there.
          have ran : printf_turn caller (before ++ [backslash]) before.length s = .ok (before.length + 1) (shown s (put_plain 0)) := by
            have second : Printf.char (before ++ [backslash]) (before.length + 1) s = .ok 0 s :=
              (begins_append before [backslash]).second s
            rw [printf_turn, bind_ok (char_at before backslash [] s), if_pos rfl, bind_ok second]
            rfl
          obtain ⟨fuel, rfl⟩ : ∃ n, fuel = n + 1 := ⟨fuel - 1, by simp at enough; omega⟩
          refine .inr (.inl ⟨_, (loop_turn (by simp) ran).trans (loop_behind ?_)⟩)
          simp
        | cons d rest => exact goOn [backslash, d] rest _ rfl (by simp) turn_escaped .escaped
      · by_cases percent : c = code '%'
        · obtain rfl := percent
          by_cases twice : rest.headD 0 = code '%'
          · cases rest with
            | nil => exact absurd twice (by decide)
            | cons d rest =>
              obtain rfl : d = code '%' := twice
              exact goOn [code '%', code '%'] rest _ rfl (by simp) turn_percent .percent
          · obtain ⟨v, tail, rfl, ends⟩ | ⟨flag, width, unambiguous, rfl⟩ | ⟨message, failed⟩ :=
              get_format_cases default (behind_percent before rest) (marked s)
            · by_cases pointer : v.letter = code 'p'
              · obtain ⟨message, s', failed⟩ := turn_pointer caller before ends pointer s
                exact .inr (.inr ⟨message, s', loop_fails (by simp) failed⟩)
              · obtain ⟨s', ran⟩ := turn_shape caller before ends pointer s
                exact goOn (code '%' :: v.chars) tail s' rfl (by simp) ran (.conversion ends pointer)
            · exact .inl (.point unambiguous)
            · exact .inr (.inr ⟨message, _, loop_fails (by simp) (turn_fails twice failed)⟩)
        · exact goOn [c] rest _ rfl (by simp) (turn_ordinary ⟨escape, percent⟩) (.ordinary ⟨escape, percent⟩)

/-- The string is read inside exactly if it does not end, behind conversions that
    are printed, with one that is cut off behind its point. -/
theorem reads_inside_iff (caller : Caller) (str : List UInt8) (s : Console) : Inside caller str s ↔ ¬ Cut str := by
  constructor
  · intro inside cut
    obtain ⟨i, s', failed⟩ : ∃ i s', terminal_printf caller str s = .error (.index i) s' :=
      cut_reads cut [] (str.length + 1) { s with next_arg := 0 } (Nat.lt_succ_self _)
    rcases inside with ⟨s'', ran⟩ | ⟨message, s'', ran⟩
    · rw [failed] at ran
      cases ran
    · rw [failed] at ran
      cases ran
  · intro uncut
    have outcome : Outcome str (terminal_printf caller str s) :=
      loop_outcome str.length str (le_refl _) [] (str.length + 1) { s with next_arg := 0 } (Nat.lt_succ_self _)
    exact outcome.resolve_left uncut

end

/-- `"%."` is read behind its NUL. -/
theorem point_reads : ¬ Inside ⟨fun _ => 0, fun _ => [], fun _ => []⟩ [code '%', code '.'] ⟨opened fun _ => 0, 0, []⟩ := by
  have failed : terminal_printf ⟨fun _ => 0, fun _ => [], fun _ => []⟩ [code '%', code '.'] ⟨opened fun _ => 0, 0, []⟩ =
      .error (.index 3) (marked ⟨opened fun _ => 0, 0, []⟩) := rfl
  rintro (⟨s', ran⟩ | ⟨message, s', ran⟩)
  · rw [failed] at ran
    cases ran
  · rw [failed] at ran
    cases ran

end OsC.Truncated
