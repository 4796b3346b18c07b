import OsC.Rendering
import OsC.Dispatch

/-!
The reports of the exception handlers. A handler gets the address of what the
processor pushed and prints its words as the fields of a structure, in digits
that read back as the words. The reports of the faults without an error code and
of the page fault show the interrupted state (`faults_reported`); the double fault has
an error code that its structure does not, and all fields are shown one place
too late (`double_fault_misreported`).
-/
namespace OsC.Exceptions
open OsC.Loop OsC.Vga OsC.Printf OsC.PrintfLoop OsC.Screen OsC.Printing OsC.Conversions OsC.HexDigits OsC.Rendering
open OsC.Shim OsC.Dispatch

/-! ### The handlers -/

structure exception_info where
  instruction_ptr : UInt64
  code_segement : UInt64
  flags : UInt64
  stack_ptr : UInt64
  stack_segement : UInt64
  deriving DecidableEq, Repr

structure exception_info_with_error where
  error_code : UInt64
  info : exception_info
  deriving DecidableEq, Repr

/-- The packed structures at an address. -/
def exception_info.at (m : Ram) (a : UInt64) : exception_info :=
  ⟨load m a, load m (a + 8), load m (a + 8 + 8), load m (a + 8 + 8 + 8), load m (a + 8 + 8 + 8 + 8)⟩

def exception_info_with_error.at (m : Ram) (a : UInt64) : exception_info_with_error :=
  ⟨load m a, exception_info.at m (a + 8)⟩

def ex_divide_by_zero : ℕ := 0
def ex_debug : ℕ := 1
def ex_breakpont : ℕ := 3
def ex_double_fault : ℕ := 8
def ex_page_fault : ℕ := 0xe

/-- The vectors of `enum exception_id`. -/
def exception_ids : List ℕ := [ex_divide_by_zero, ex_debug, ex_breakpont, 4, 5, 6, 7, ex_double_fault, 9, 0xa, 0xb, 0xc, 0xd,
  ex_page_fault, 0x10, 0x11, 0x12, 0x13, 0x14, 0x1e]

def exception_id_strings : List String := ["divide_by_zero", "debug", "--pic--", "breakpont", "overflow",
  "bound_range_exceeded", "invalid_opcode", "device_not_available", "double_fault", "coprocessor_segement_overrun",
  "invalid_tss", "segement_not_present", "stack_segement_fault", "general_protection_fault", "page_fault",
  "x87_fpu_exception", "alignment_check", "machine_check", "simd_fp", "vx"]

/-- A call with these arguments, over what the registers and the stack hold. -/
def passing (args : List UInt64) (caller : Caller) : Caller := { caller with args := fun j => args.getD j (caller.args j) }

/-- The printing that the handlers have in common. `callers` is what each call finds. -/
def print_info (callers : ℕ → Caller) (id : ℕ) (info : exception_info) : Print Unit := do
  terminal_printf (callers 0) (chars (exception_id_strings.getD id ""))
  terminal_printf (passing [info.instruction_ptr, info.code_segement, info.flags] (callers 1))
    (chars "iptr: %#zX \t code_seg: %#zX \t flags: %#zX\n")
  terminal_printf (passing [info.stack_ptr, info.stack_segement] (callers 2)) (chars "Stackptr: %#zX \t Stackseg: %#zX\n")

def divide_by_zero_handler (callers : ℕ → Caller) (m : Ram) (info : UInt64) : Print Unit :=
  print_info callers ex_divide_by_zero (exception_info.at m info)

def debug_handler (callers : ℕ → Caller) (m : Ram) (info : UInt64) : Print Unit :=
  print_info callers ex_debug (exception_info.at m info)

def breakpont_handler (callers : ℕ → Caller) (m : Ram) (info : UInt64) : Print Unit :=
  print_info callers ex_breakpont (exception_info.at m info)

def double_fault_handler (callers : ℕ → Caller) (m : Ram) (info : UInt64) : Print Unit :=
  print_info callers ex_double_fault (exception_info.at m info)

def page_fault_handler (callers : ℕ → Caller) (m : Ram) (info : UInt64) : Print Unit := do
  print_info callers ex_page_fault (exception_info_with_error.at m info).info
  terminal_printf (passing [(exception_info_with_error.at m info).error_code] (callers 3)) (chars "Error code: %#zX\n")

/-- The registrations, in order. -/
def init_exception_handlers (address : ℕ → ℕ) : List (ℕ × ℕ) := exception_ids.map fun id => (id, address id)

/-! ### Their texts -/

/-- The significant digits, at least one. -/
def number_text (n : ℕ) : List UInt8 := if n = 0 then [code '0'] else digits_text 0x37 n

/-- A text of uppercase digits that is a number. -/
def Numeral (text : List UInt8) (n : ℕ) : Prop := (∀ c ∈ text, c ∈ letters true) ∧ read_back true text = n

theorem number_text_numeral (n : ℕ) : Numeral (number_text n) n := by
  by_cases zero : n = 0
  · obtain ⟨letter, value⟩ := digit_letter true 0 (by decide)
    rw [number_text, if_pos zero, zero]
    refine ⟨fun c member => ?_, ?_⟩
    · rw [List.mem_singleton.mp member]
      exact letter
    · rw [read_back, List.foldl_cons, List.foldl_nil]
      exact congrArg (16 * 0 + ·) value
  · have below : ∀ d ∈ Nat.digits 16 n, d < 16 := fun d member => Nat.digits_lt_base (by decide) member
    rw [number_text, if_neg zero]
    have value : read_back true (digits_text 0x37 n) = Nat.ofDigits 16 (Nat.digits 16 n) := read_back_digits below
    refine ⟨fun c member => ?_, value.trans (Nat.ofDigits_digits 16 n)⟩
    simp only [digits_text, List.mem_map, List.mem_reverse] at member
    obtain ⟨d, among, rfl⟩ := member
    exact (digit_letter true d (below d among)).1

instance (c : UInt8) : Decidable (Ordinary c) := inferInstanceAs (Decidable (_ ∧ _))

/-- The ordinary characters of a text as pieces. -/
def text_pieces (text : List UInt8) : List Piece :=
  text.filterMap fun c => if ordinary : Ordinary c then some (.plain c ordinary) else none

/-- `%#zX`. -/
def field : Piece := .conversion ⟨.hash, .literal [], .hex true .z, nofun⟩

def text_items (text : String) : List Item := (chars text).map plain_item

def number_items (n : UInt64) : List Item := (chars "0X" ++ number_text n.toNat).map char_item

section
variable {caller : Caller} {j : ℕ} {text : List UInt8} {pieces : List Piece}

theorem text_pieces_cons {c : UInt8} (ordinary : Ordinary c) : text_pieces (c :: text) = .plain c ordinary :: text_pieces text :=
  List.filterMap_cons_some (dif_pos ordinary)

theorem format_text (ordinary : ∀ c ∈ text, Ordinary c) : format (text_pieces text ++ pieces) = text ++ format pieces := by
  induction text with
  | nil => rfl
  | cons c text ih =>
    rw [text_pieces_cons (ordinary c List.mem_cons_self)]
    exact congrArg (c :: ·) (ih fun d member => ordinary d (List.mem_cons_of_mem c member))

theorem rendered_text (ordinary : ∀ c ∈ text, Ordinary c) :
    rendered caller j (text_pieces text ++ pieces) = text.map plain_item ++ rendered caller j pieces := by
  induction text with
  | nil => rfl
  | cons c text ih =>
    rw [text_pieces_cons (ordinary c List.mem_cons_self)]
    exact congrArg (plain_item c :: ·) (ih fun d member => ordinary d (List.mem_cons_of_mem c member))

/-- A width of 0 asks for no more than the digits. -/
theorem hex_text_unpadded {f : printf_format} (width : f.width = 0) (upper : f.specifier = code 'X') {n : ℕ} (fits : n < 2 ^ 64) :
    hex_text caller f n = number_text n := by
  have small := significant_le fits
  have offset : offset_for_hex f = 0x37 := if_pos upper
  have index : first_index f n = if n = 0 then 15 else (16 - significant n : ℕ) := by
    rw [first_index, width, Printf.min]
    have fifteen : int (15 - 0) = 15 := by decide
    rw [fifteen]
    by_cases zero : n = 0
    · rw [if_pos zero, zero, significant_zero]
      rfl
    · have some := significant_pos (Nat.pos_of_ne_zero zero)
      rw [if_neg zero]
      split <;> omega
  rw [hex_text, number_text, index, offset]
  by_cases zero : n = 0
  · rw [if_pos zero, if_pos zero, if_pos (by decide), zero, padded, digits_text, significant_zero]
    simp
  · rw [if_neg zero, if_neg zero, if_pos (by omega), padded]
    simp

theorem hex_lead_hash {f : printf_format} (flags : f.flags = ALWAYS_SHOW_0x_OR_DECIMAL_POINT) (upper : f.specifier = code 'X') :
    hex_lead f = chars "0X" := by
  rw [hex_lead, flags, if_pos (by decide), if_pos upper]

theorem rendered_field : rendered caller j (field :: pieces) = number_items (caller.args j) ++ rendered caller (j + 1) pieces := by
  have taken : (Width.literal []).taken = 0 := by decide
  have used : Width.used caller j (.literal []) = 0 := by
    rw [Width.used, taken, if_neg (by decide)]
    decide
  rw [field, rendered]
  dsimp only
  rw [taken]
  have whole : Modifier.value (caller.args j).toNat .z = (caller.args j).toNat := rfl
  rw [Spec.items, Nat.add_zero, whole, hex_text_unpadded used rfl (caller.args j).toNat_lt, hex_lead_hash rfl rfl]
  · rfl
  · intro same
    cases same

/-! ### The reports -/

/-- A line of numbers, each behind a label. -/
def line_items (fields : List (String × UInt64)) : List Item :=
  fields.flatMap (fun x => text_items x.1 ++ number_items x.2) ++ text_items "\n"

/-- What the handlers print of the fields. -/
def info_items (id : ℕ) (info : exception_info) : List Item :=
  text_items (exception_id_strings.getD id "") ++
    (line_items [("iptr: ", info.instruction_ptr), (" \t code_seg: ", info.code_segement), (" \t flags: ", info.flags)] ++
      line_items [("Stackptr: ", info.stack_ptr), (" \t Stackseg: ", info.stack_segement)])

def error_items (error_code : UInt64) : List Item := line_items [("Error code: ", error_code)]

theorem text_renders (caller : Caller) {text : String} (ordinary : ∀ c ∈ chars text, Ordinary c) :
    Renders (terminal_printf caller (chars text)) (text_items text) := by
  have renders := printf_renders caller (text_pieces (chars text) ++ [])
  rw [format_text ordinary, rendered_text ordinary] at renders
  simpa [format, rendered, text_items] using renders

/-- The pieces of a line. -/
def line_pieces (labels : List String) : List Piece :=
  labels.flatMap (fun label => text_pieces (chars label) ++ [field]) ++ text_pieces (chars "\n")

theorem newline_ordinary : ∀ c ∈ chars "\n", Ordinary c := by simp [chars, Ordinary, code, backslash]

theorem line_format {labels : List String} (ordinary : ∀ label ∈ labels, ∀ c ∈ chars label, Ordinary c) :
    format (line_pieces labels) = labels.flatMap (fun label => chars label ++ chars "%#zX") ++ chars "\n" := by
  unfold line_pieces
  induction labels with
  | nil =>
    have last : format (text_pieces (chars "\n") ++ []) = chars "\n" ++ format [] := format_text newline_ordinary
    rw [List.append_nil] at last
    exact last.trans (List.append_nil _)
  | cons label labels ih =>
    have rest := ih fun l member => ordinary l (List.mem_cons_of_mem label member)
    simp only [List.flatMap_cons, List.append_assoc] at rest ⊢
    rw [format_text (ordinary label List.mem_cons_self), List.cons_append, List.nil_append]
    have spelled : field.chars = chars "%#zX" := by simp [chars]; decide
    have percent : ∀ pieces, format (field :: pieces) = chars "%#zX" ++ format pieces := by
      intro pieces
      rw [← spelled]
      rfl
    rw [percent, rest]

theorem line_rendered {fields : List (String × UInt64)} (ordinary : ∀ x ∈ fields, ∀ c ∈ chars x.1, Ordinary c)
    (passed : ∀ k < fields.length, caller.args (j + k) = (fields.map Prod.snd).getD k 0) :
    rendered caller j (line_pieces (fields.map Prod.fst)) = line_items fields := by
  unfold line_pieces line_items
  induction fields generalizing j with
  | nil =>
    have last : rendered caller j (text_pieces (chars "\n") ++ []) = text_items "\n" ++ rendered caller j [] :=
      rendered_text newline_ordinary
    rw [List.append_nil] at last
    exact last.trans (List.append_nil _)
  | cons x fields ih =>
    have first : caller.args j = x.2 := passed 0 (by simp)
    have rest := ih (j := j + 1) (fun y member => ordinary y (List.mem_cons_of_mem x member)) fun k less => by
      have shifted := passed (k + 1) (by simpa using less)
      rw [Nat.add_assoc, Nat.add_comm 1 k]
      exact shifted
    simp only [List.map_cons, List.flatMap_cons, List.append_assoc, List.cons_append, List.nil_append] at rest ⊢
    rw [rendered_text (ordinary x List.mem_cons_self), rendered_field, first, rest]
    rfl

/-- A call with a line's format and its numbers. -/
theorem line_renders (caller : Caller) (labels : List String) (args : List UInt64) (same : labels.length = args.length)
    (ordinary : ∀ label ∈ labels, ∀ c ∈ chars label, Ordinary c) {str : List UInt8}
    (spelled : str = labels.flatMap (fun label => chars label ++ chars "%#zX") ++ chars "\n") :
    Renders (terminal_printf (passing args caller) str) (line_items (labels.zip args)) := by
  have first : (labels.zip args).map Prod.fst = labels := List.map_fst_zip (le_of_eq same)
  have second : (labels.zip args).map Prod.snd = args := List.map_snd_zip (le_of_eq same.symm)
  have passed : ∀ k < (labels.zip args).length, (passing args caller).args (0 + k) =
      ((labels.zip args).map Prod.snd).getD k 0 := by
    intro k less
    have inside : k < args.length := by
      rw [List.length_zip] at less
      omega
    rw [second, Nat.zero_add, passing]
    simp [List.getD_eq_getElem?_getD, List.getElem?_eq_getElem inside]
  have items := line_rendered (fun x member => ordinary x.1 (List.of_mem_zip member).1) passed
  rw [first] at items
  rw [spelled, ← line_format ordinary, ← items]
  exact printf_renders _ _

theorem names_ordinary (id : ℕ) : ∀ c ∈ chars (exception_id_strings.getD id ""), Ordinary c := by
  have all : ∀ name ∈ exception_id_strings ++ [""], ∀ c ∈ chars name, Ordinary c := by
    simp [exception_id_strings, chars, Ordinary, code, backslash]
  refine all _ ?_
  rw [List.getD_eq_getElem?_getD]
  cases found : exception_id_strings[id]? with
  | none => simp
  | some name => exact List.mem_append_left _ (List.mem_of_getElem? found)

theorem print_info_renders (callers : ℕ → Caller) (id : ℕ) (info : exception_info) :
    Renders (print_info callers id info) (info_items id info) := by
  refine (text_renders (callers 0) (names_ordinary id)).bind (Renders.bind ?_ ?_)
  · refine line_renders (callers 1) ["iptr: ", " \t code_seg: ", " \t flags: "] _ rfl ?_ (by simp [chars])
    simp [chars, Ordinary, code, backslash]
  · refine line_renders (callers 2) ["Stackptr: ", " \t Stackseg: "] _ rfl ?_ (by simp [chars])
    simp [chars, Ordinary, code, backslash]

theorem page_fault_renders (callers : ℕ → Caller) (m : Ram) (a : UInt64) : Renders (page_fault_handler callers m a)
    (info_items ex_page_fault (exception_info.at m (a + 8)) ++ error_items (load m a)) :=
  (print_info_renders callers ex_page_fault _).bind
    (line_renders (callers 3) ["Error code: "] _ rfl (by simp [chars, Ordinary, code, backslash]) (by simp [chars]))

/-! ### Reading a report -/

/-- Two texts that go on as long as a property holds are equal with what follows them. -/
theorem append_while {α : Type} {P : α → Bool} {xs ys rest rest' : List α} (left : ∀ x ∈ xs, P x)
    (right : ∀ y ∈ ys, P y) (ends : ∀ z ∈ rest.head?, ¬ P z) (ends' : ∀ z ∈ rest'.head?, ¬ P z)
    (same : xs ++ rest = ys ++ rest') : xs = ys ∧ rest = rest' := by
  have none : ∀ zs : List α, (∀ z ∈ zs.head?, ¬ P z) → zs.takeWhile P = [] := by
    intro zs stops
    cases zs with
    | nil => rfl
    | cons z zs => exact List.takeWhile_cons_of_neg (stops z rfl)
  have taken := congrArg (List.takeWhile P) same
  rw [List.takeWhile_append_of_pos left, List.takeWhile_append_of_pos right, none rest ends, none rest' ends',
    List.append_nil, List.append_nil] at taken
  rw [taken] at same
  exact ⟨taken, List.append_cancel_left same⟩

/-- A digit on the screen. -/
def is_numeral : Item → Bool
  | .glyph c => c ∈ letters true
  | _ => false

theorem number_text_glyphs (n : ℕ) : ∀ x ∈ (number_text n).map char_item, is_numeral x := by
  intro x member
  obtain ⟨c, among, rfl⟩ := List.mem_map.mp member
  have letter := (number_text_numeral n).1 c among
  have noBreak : ∀ c ∈ letters true, c ≠ newline := by simp [letters, chars, newline]
  rw [char_item, if_neg (noBreak c letter)]
  exact decide_eq_true letter

/-- The character of a glyph. -/
def of_item : Item → UInt8
  | .glyph c => c
  | _ => 0

theorem number_text_back (n : ℕ) : ((number_text n).map char_item).map of_item = number_text n := by
  have back : ∀ c ∈ letters true, of_item (char_item c) = c := by simp [letters, chars, char_item, newline, of_item]
  rw [List.map_map]
  exact (List.map_congr_left fun c among => back c ((number_text_numeral n).1 c among)).trans (List.map_id _)

/-- A number and what follows it can be told from the items. -/
theorem number_items_tell {a b : UInt64} {rest rest' : List Item} (ends : ∀ z ∈ rest.head?, ¬ is_numeral z)
    (ends' : ∀ z ∈ rest'.head?, ¬ is_numeral z) (same : number_items a ++ rest = number_items b ++ rest') :
    a = b ∧ rest = rest' := by
  simp only [number_items, List.map_append, List.append_assoc] at same
  obtain ⟨texts, behind⟩ := append_while (number_text_glyphs _) (number_text_glyphs _) ends ends' (List.append_cancel_left same)
  have digits := number_text_back a.toNat
  rw [texts, number_text_back] at digits
  have values := (number_text_numeral a.toNat).2
  rw [← digits, (number_text_numeral b.toNat).2] at values
  exact ⟨(UInt64.toNat_inj.mp values).symm, behind⟩

theorem text_ends (text : String) (apart : (text_items text).head?.any fun z => !is_numeral z) (rest : List Item) :
    ∀ z ∈ (text_items text ++ rest).head?, ¬ is_numeral z := by
  cases items : text_items text with
  | nil => simp [items] at apart
  | cons y ys => simpa [items] using apart

/-- The texts behind the numbers do not go on with a digit. -/
theorem labels_apart : ∀ text ∈ [" \t code_seg: ", " \t flags: ", " \t Stackseg: ", "\n"],
    (text_items text).head?.any fun z => !is_numeral z := by
  simp [text_items, chars, plain_item, is_numeral, letters, newline, tab]

/-- No two states of a processor give the same report. -/
theorem info_items_tell {id : ℕ} {info info' : exception_info} {rest rest' : List Item}
    (same : info_items id info ++ rest = info_items id info' ++ rest') : info = info' ∧ rest = rest' := by
  obtain ⟨a₁, a₂, a₃, a₄, a₅⟩ := info
  obtain ⟨b₁, b₂, b₃, b₄, b₅⟩ := info'
  simp only [info_items, line_items, List.flatMap_cons, List.flatMap_nil, List.append_assoc, List.nil_append] at same
  have segment := text_ends " \t code_seg: " (labels_apart _ (by simp))
  have flags := text_ends " \t flags: " (labels_apart _ (by simp))
  have stack := text_ends " \t Stackseg: " (labels_apart _ (by simp))
  have last := text_ends "\n" (labels_apart _ (by simp))
  have same := List.append_cancel_left (List.append_cancel_left same)
  obtain ⟨instruction, same⟩ := number_items_tell (segment _) (segment _) same
  obtain ⟨code, same⟩ := number_items_tell (flags _) (flags _) (List.append_cancel_left same)
  obtain ⟨bits, same⟩ := number_items_tell (last _) (last _) (List.append_cancel_left same)
  have same := List.append_cancel_left (List.append_cancel_left same)
  obtain ⟨pointer, same⟩ := number_items_tell (stack _) (stack _) same
  obtain ⟨segement, same⟩ := number_items_tell (last _) (last _) (List.append_cancel_left same)
  exact ⟨by rw [instruction, code, bits, pointer, segement], List.append_cancel_left same⟩

/-! ### Exceptions of a running kernel -/

/-- The interrupted state as the fields that a handler reads. -/
def interrupted_info (p : Processor) : exception_info := ⟨p.here.rip, p.here.cs, p.here.rflags, p.cpu.rsp, p.here.ss⟩

/-- What a handler reads of the words that are pushed without an error code. -/
theorem info_at {m : Ram} {a : UInt64} {f : Interrupted} {rsp : UInt64} (holds : Holds m a (pushed f rsp none)) :
    exception_info.at m a = ⟨f.rip, f.cs, f.rflags, rsp, f.ss⟩ := by
  obtain ⟨rip, cs, rflags, stack, ss, -⟩ := holds
  rw [exception_info.at, rip, cs, rflags, stack, ss]

/-- Nobody else registers for the vectors of the exceptions. -/
theorem init_registers {address : ℕ → ℕ} {later : List (ℕ × ℕ)} {v : ℕ} (member : v ∈ exception_ids)
    (kept : ∀ c ∈ later, c.1 ∉ exception_ids) :
    Idt.last_registered v (init_exception_handlers address ++ later) = some (address v) := by
  have none : later.filter (·.1 = v) = [] :=
    List.filter_eq_nil_iff.mpr fun c among => by
      have other : c.1 ≠ v := fun same => kept c among (same ▸ member)
      simpa using other
  have one : (init_exception_handlers address).filter (·.1 = v) = [(v, address v)] := by
    have nodup : exception_ids.Nodup := by decide
    have single : exception_ids.filter (· = v) = [v] := by
      rw [List.filter_eq, List.count_eq_one_of_mem nodup member]
      rfl
    rw [init_exception_handlers, List.filter_map]
    exact congrArg (List.map fun id => (id, address id)) single
  rw [Idt.last_registered, List.filter_append, none, one]
  rfl

end

section
variable {k : Code} {boot : Idt.Cpu} {p : Processor} {address : ℕ → ℕ} {later : List (ℕ × ℕ)}

/-- An exception of a kernel that registered the handlers calls the vector's own. -/
theorem exception_called (loaded : Idt.Loaded k.image k.shims boot.mem)
    (reached : Reached k boot (init_exception_handlers address ++ later) p) (kept : ∀ c ∈ later, c.1 ∉ exception_ids)
    (room : Room k p.cpu) {v : ℕ} (member : v ∈ exception_ids) (error_code : Option UInt64) : ∃ run,
      interrupt k v error_code p = some run ∧ run.handler = UInt64.ofNat (address v) ∧
        Holds run.called.mem (run.called.reg .rdi) (pushed p.here p.cpu.rsp error_code) := by
  have small : ∀ id ∈ exception_ids, id < 256 := by decide
  obtain ⟨run, ran, handler, holds, -⟩ := (reached.wired loaded).interrupt (small v member) room error_code
  rw [init_registers member kept] at handler
  exact ⟨run, ran, handler, holds⟩

/-- In every run, the handlers of the faults without an error code and of the page
    fault report the interrupted state, and no other state gives the same report. -/
theorem faults_reported (loaded : Idt.Loaded k.image k.shims boot.mem)
    (reached : Reached k boot (init_exception_handlers address ++ later) p) (kept : ∀ c ∈ later, c.1 ∉ exception_ids)
    (room : Room k p.cpu) :
    (∀ x ∈ [(ex_divide_by_zero, divide_by_zero_handler), (ex_debug, debug_handler), (ex_breakpont, breakpont_handler)],
      ∃ run, interrupt k x.1 none p = some run ∧ run.handler = UInt64.ofNat (address x.1) ∧
        ∀ callers, Renders (x.2 callers run.called.mem (run.called.reg .rdi)) (info_items x.1 (interrupted_info p))) ∧
    (∀ error_code, ∃ run, interrupt k ex_page_fault (some error_code) p = some run ∧
      run.handler = UInt64.ofNat (address ex_page_fault) ∧
        ∀ callers, Renders (page_fault_handler callers run.called.mem (run.called.reg .rdi))
          (info_items ex_page_fault (interrupted_info p) ++ error_items error_code)) ∧
    ∀ id info error_code error_code', info_items id info ++ error_items error_code =
      info_items id (interrupted_info p) ++ error_items error_code' → info = interrupted_info p ∧ error_code = error_code' := by
  refine ⟨fun x member => ?_, fun error_code => ?_, fun id info error_code error_code' same => ?_⟩
  · have id : x.1 ∈ exception_ids := by
      simp only [List.mem_cons, List.not_mem_nil, or_false] at member
      rcases member with rfl | rfl | rfl <;> decide
    obtain ⟨run, ran, handler, holds⟩ := exception_called loaded reached kept room id none
    refine ⟨run, ran, handler, fun callers => ?_⟩
    have read : exception_info.at run.called.mem (run.called.reg .rdi) = interrupted_info p := info_at holds
    rw [← read]
    simp only [List.mem_cons, List.not_mem_nil, or_false] at member
    rcases member with rfl | rfl | rfl
    · exact print_info_renders callers ex_divide_by_zero _
    · exact print_info_renders callers ex_debug _
    · exact print_info_renders callers ex_breakpont _
  · obtain ⟨run, ran, handler, holds⟩ :=
      exception_called loaded reached kept room (by decide : ex_page_fault ∈ exception_ids) (some error_code)
    refine ⟨run, ran, handler, fun callers => ?_⟩
    have printed := page_fault_renders callers run.called.mem (run.called.reg .rdi)
    have frame : Holds run.called.mem (run.called.reg .rdi + 8) (pushed p.here p.cpu.rsp none) := holds.2
    have code : load run.called.mem (run.called.reg .rdi) = error_code := holds.1
    rw [info_at frame, code] at printed
    exact printed
  · obtain ⟨infos, codes⟩ := info_items_tell same
    simp only [error_items, line_items, List.flatMap_cons, List.flatMap_nil, List.append_nil, List.append_assoc] at codes
    have last := text_ends "\n" (labels_apart _ (by simp)) []
    rw [List.append_nil] at last
    exact ⟨infos, (number_items_tell last last (List.append_cancel_left codes)).1⟩

/-- The handler of the double fault, whose structure has no place for the error
    code that the processor pushes, shows the code as the instruction pointer, each word
    under the label of the next one, and not the stack segment. -/
theorem double_fault_misreported (loaded : Idt.Loaded k.image k.shims boot.mem)
    (reached : Reached k boot (init_exception_handlers address ++ later) p) (kept : ∀ c ∈ later, c.1 ∉ exception_ids)
    (room : Room k p.cpu) (error_code : UInt64) : ∃ run,
      interrupt k ex_double_fault (some error_code) p = some run ∧ run.handler = UInt64.ofNat (address ex_double_fault) ∧
        ∀ callers, Renders (double_fault_handler callers run.called.mem (run.called.reg .rdi))
          (info_items ex_double_fault ⟨error_code, p.here.rip, p.here.cs, p.here.rflags, p.cpu.rsp⟩) := by
  obtain ⟨run, ran, handler, holds⟩ :=
    exception_called loaded reached kept room (by decide : ex_double_fault ∈ exception_ids) (some error_code)
  refine ⟨run, ran, handler, fun callers => ?_⟩
  have words : exception_info.at run.called.mem (run.called.reg .rdi) =
      ⟨error_code, p.here.rip, p.here.cs, p.here.rflags, p.cpu.rsp⟩ := by
    obtain ⟨code, rip, cs, rflags, stack, -⟩ := holds
    rw [exception_info.at, code, rip, cs, rflags, stack]
  rw [double_fault_handler, words]
  exact print_info_renders callers ex_double_fault _

end

/-- The handlers behind each other, and the keyboard's. -/
def handler_address (id : ℕ) : ℕ := 0x108000 + 0x80 * id

/-- The kernel with the tables of `linked_code`, when everything is registered. -/
theorem registered_reached : ∃ p,
    Reached linked_code booting (init_exception_handlers handler_address ++ [(0x21, 0x107000)]) p ∧ Room linked_code p.cpu := by
  have valid : ∀ r ∈ init_exception_handlers handler_address ++ [(0x21, 0x107000)], r.1 < 256 ∧ r.2 < 2 ^ 64 := by decide
  obtain ⟨p, reached, room⟩ := linked_reached
  obtain ⟨p', registered, rsp⟩ := reached.registers valid
  exact ⟨p', registered, by rw [rsp]; exact room.low, by rw [rsp]; exact room.apart⟩

theorem keyboard_kept : ∀ c ∈ [(0x21, 0x107000)], c.1 ∉ exception_ids := by decide

theorem faults_reported_linked : ∃ p,
    (∀ x ∈ [(ex_divide_by_zero, divide_by_zero_handler), (ex_debug, debug_handler), (ex_breakpont, breakpont_handler)],
      ∃ run, interrupt linked_code x.1 none p = some run ∧ run.handler = UInt64.ofNat (handler_address x.1) ∧
        ∀ callers, Renders (x.2 callers run.called.mem (run.called.reg .rdi)) (info_items x.1 (interrupted_info p))) ∧
    (∀ error_code, ∃ run, interrupt linked_code ex_page_fault (some error_code) p = some run ∧
      run.handler = UInt64.ofNat (handler_address ex_page_fault) ∧
        ∀ callers, Renders (page_fault_handler callers run.called.mem (run.called.reg .rdi))
          (info_items ex_page_fault (interrupted_info p) ++ error_items error_code)) ∧
    ∀ id info error_code error_code', info_items id info ++ error_items error_code =
      info_items id (interrupted_info p) ++ error_items error_code' → info = interrupted_info p ∧ error_code = error_code' := by
  obtain ⟨p, reached, room⟩ := registered_reached
  exact ⟨p, faults_reported code_loaded reached keyboard_kept room⟩

theorem double_fault_misreported_linked : ∃ p run,
    interrupt linked_code ex_double_fault (some 0) p = some run ∧ run.handler = UInt64.ofNat (handler_address ex_double_fault) ∧
      ∀ callers, Renders (double_fault_handler callers run.called.mem (run.called.reg .rdi))
        (info_items ex_double_fault ⟨0, p.here.rip, p.here.cs, p.here.rflags, p.cpu.rsp⟩) := by
  obtain ⟨p, reached, room⟩ := registered_reached
  exact ⟨p, double_fault_misreported code_loaded reached keyboard_kept room 0⟩

end OsC.Exceptions
