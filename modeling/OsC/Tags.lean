import OsC.Conversions
import OsC.Bytes

/-!
The tag loop of `parse_multiboot_data` on the bytes of a Multiboot block. It
visits the tags that were laid out in the block (`tag_loop_visits`), and it
trusts the block: it ends, reads inside the block and counts memory-map entries
only as far as the tags are well formed (`tag_loop_safe_iff`).

The walk records the tags that it visits, what it reads of the memory, also
where `terminal_printf` prints a string, and the sizes from which it counts.
-/
namespace OsC.Tags
open OsC.Bytes OsC.Word OsC.Loop OsC.Vga OsC.Printf OsC.PrintfLoop OsC.Conversions

def multiboot_end_tag : ℕ := 0
def multiboot_boot_command_line_tag : ℕ := 1
def multiboot_boot_load_name_tag : ℕ := 2
def multiboot_modules_tag : ℕ := 3
def multiboot_memory_info_tag : ℕ := 4
def multiboot_bios_boot_device_tag : ℕ := 5
def multiboot_memory_map_tag : ℕ := 6
def multiboot_vbe_info_tag : ℕ := 7
def multiboot_framebuffer_info_tag : ℕ := 8
def multiboot_elf_symbols_tag : ℕ := 9
def multiboot_apm_table_tag : ℕ := 10
def multiboot_EFI32_system_table_tag : ℕ := 11
def multiboot_EFI64_system_table_tag : ℕ := 12
def multiboot_SMSBIOS_tables_tag : ℕ := 13
def multiboot_ACPI_old_RSDP_tag : ℕ := 14
def multiboot_ACPI_new_RSDP_tag : ℕ := 15
def multiboot_networking_information_tag : ℕ := 16
def multiboot_EFI_memory_map_tag : ℕ := 17
def multiboot_EFI_boot_services_tag : ℕ := 18
def multiboot_EFI32_image_ptr_tag : ℕ := 19
def multiboot_EFI64_image_ptr_tag : ℕ := 20
def multiboot_image_load_base_phys_addr_tag : ℕ := 21

inductive Fault
  | division
  /-- A string has no end. -/
  | endless
  | print (fault : Printf.Fault)
  | stuck
  deriving DecidableEq

/-- The pointers that the walk sets; the last two are fields of `data`. -/
structure Globals where
  info : ℕ
  name : ℕ
  device : ℕ
  command_line : ℕ
  symbols : ℕ
  maps : ℕ
  memory_map : ℕ
  elf_symbols : ℕ
  deriving DecidableEq, Repr

/-- The tags visited, the reads (address and length) and the sizes counted, each the newest first. -/
structure State where
  globals : Globals
  terminal : Terminal
  visited : List ℕ
  reads : List (ℕ × ℕ)
  counted : List ℕ

abbrev Walk := EStateM Fault State

def log (a n : ℕ) : Walk Unit := modify fun s => { s with reads := (a, n) :: s.reads }

def load (m : Memory) (a n : ℕ) : Walk ℕ := do
  log a n
  pure (read m a n)

/-- The characters before the first NUL, if there is one in the given number of bytes. -/
def c_string (m : Memory) : ℕ → ℕ → Option (List UInt8)
  | 0, _ => none
  | fuel + 1, a => if m a = 0 then some [] else (c_string m fuel (wrap (a + 1))).map (m a :: ·)

def load_string (m : Memory) (a : ℕ) : Walk Unit :=
  match c_string m (2 ^ 64) a with
  | some str => log a (str.length + 1)
  | none => throw .endless

/-- A call that passes the arguments. -/
def passing (m : Memory) (args : List ℕ) : Caller where
  args := fun j => UInt64.ofNat (args.getD j 0)
  strings := fun a => (c_string m (2 ^ 64) a).getD []
  stack := fun _ => []

def pointer : Output → Option ℕ
  | .string data => some data
  | _ => none

/-- `terminal_printf`, with the strings that it reads. -/
def printf (m : Memory) (str : String) (args : List ℕ) : Walk Unit := do
  let s ← get
  match terminal_printf (passing m args) (chars str) ⟨s.terminal, 0, []⟩ with
  | .error fault _ => throw (.print fault)
  | .ok _ console =>
    (console.trace.reverse.filterMap pointer).forM (load_string m)
    modify fun s => { s with terminal := console.terminal }

def set_globals (act : Globals → Globals) : Walk Unit := modify fun s => { s with globals := act s.globals }

/-- The tags for which nothing is done but to print a text. -/
def tag_texts : List (ℕ × String) :=
  [(multiboot_end_tag, "End tag\n"),
    (multiboot_modules_tag, "Modules tag\n"),
    (multiboot_apm_table_tag, "APM table tag\n"),
    (multiboot_vbe_info_tag, "VBE info tag\n"),
    (multiboot_framebuffer_info_tag, "Framebuffer tag\n"),
    (multiboot_EFI32_system_table_tag, "EFI32_system_table_tag tag\n"),
    (multiboot_EFI64_system_table_tag, "EFI64_system_table_tag tag\n"),
    (multiboot_SMSBIOS_tables_tag, "SMSBIOS_tables_tag tag\n"),
    (multiboot_ACPI_old_RSDP_tag, "ACPI_old_RSDP_tag tag\n"),
    (multiboot_ACPI_new_RSDP_tag, "ACPI_new_RSDP_tag tag\n"),
    (multiboot_networking_information_tag, "networking_information_tag tag\n"),
    (multiboot_EFI_memory_map_tag, "EFI_memory_map_tag tag\n"),
    (multiboot_EFI_boot_services_tag, "EFI_boot_services_tag tag\n"),
    (multiboot_EFI32_image_ptr_tag, "EFI32_image_ptr_tag tag\n"),
    (multiboot_EFI64_image_ptr_tag, "EFI64_image_ptr_tag tag\n"),
    (multiboot_image_load_base_phys_addr_tag, "image_load_base_phys_add tag\n")]

def tag_text (type : ℕ) : Option String := (tag_texts.find? (·.1 = type)).map (·.2)

/-- The address of `maps->memory_maps[i]`. -/
def memory_maps (maps i : ℕ) : ℕ := wrap (maps + 16 + 24 * i)

/-- The entry is copied whole. -/
def print_entry (m : Memory) (maps i : ℕ) : Walk Unit := do
  let entry := memory_maps maps i
  log entry 24
  printf m "Addr: %#zx \t Length: %#zx\n" [read m entry 8, read m (entry + 8) 8]

/-- `int num_of_maps`. -/
def num_of_maps (size entry_size : ℕ) : ℤ := int (wrap ((size : ℤ) - 16) / entry_size : ℕ)

def count_maps (m : Memory) (maps : ℕ) : Walk ℤ := do
  let size ← load m (wrap (maps + 4)) 4
  let entry_size ← load m (wrap (maps + 8)) 4
  modify fun s => { s with counted := size :: s.counted }
  if entry_size = 0 then throw .division
  pure (num_of_maps size entry_size)

/-- The switch. -/
def parse_tag (m : Memory) (curr_tag type : ℕ) : Walk Unit :=
  if type = multiboot_memory_info_tag then do
    printf m "Mem info tag\n" []
    set_globals ({ · with info := curr_tag })
    let mem_lower ← load m (wrap (curr_tag + 8)) 4
    let mem_upper ← load m (wrap (curr_tag + 12)) 4
    printf m "mem_lower: %#zx \t mem_upper: %#zx\n" [mem_lower, mem_upper]
  else if type = multiboot_boot_load_name_tag then do
    set_globals ({ · with name := curr_tag })
    printf m "boot load name: %s\n" [wrap (curr_tag + 8)]
  else if type = multiboot_bios_boot_device_tag then do
    printf m "Bios boot device\n" []
    set_globals ({ · with device := curr_tag })
  else if type = multiboot_boot_command_line_tag then do
    set_globals ({ · with command_line := curr_tag })
    printf m "Boot command line: %s\n" [wrap (curr_tag + 8)]
  else if type = multiboot_elf_symbols_tag then do
    printf m "Elf symbols\n" []
    set_globals ({ · with symbols := curr_tag, elf_symbols := curr_tag })
  else if type = multiboot_memory_map_tag then do
    printf m "Memory map tag\n" []
    set_globals ({ · with maps := curr_tag, memory_map := curr_tag })
    let num_of_maps ← count_maps m curr_tag
    (List.range num_of_maps.toNat).forM (print_entry m curr_tag)
  else
    match tag_text type with
    | some text => printf m text []
    | none => do
      let size ← load m (wrap (curr_tag + 4)) 4
      printf m "Failed with tag: %#zx \t Type: %#zx \t Size: %#zx\n" [curr_tag, type, size]

/-- The address behind a tag of the given size, rounded up to a multiple of 8. -/
def next_tag (curr_tag size : ℕ) : ℕ :=
  let next_tag := wrap (curr_tag + size)
  if next_tag % 8 ≠ 0 then wrap (next_tag + (8 - next_tag % 8)) else next_tag

/-- 0 is NULL. -/
def find_next_tag_address (m : Memory) (curr_tag : ℕ) : Walk ℕ := do
  let type ← load m curr_tag 4
  if type ≠ 0 then
    let size ← load m (wrap (curr_tag + 4)) 4
    pure (next_tag curr_tag size)
  else pure 0

/-- A turn of the loop, with the address that its condition computes. -/
def turn (m : Memory) (curr_tag : ℕ) : Walk ℕ := do
  modify fun s => { s with visited := curr_tag :: s.visited }
  let type ← load m curr_tag 4
  parse_tag m curr_tag type
  find_next_tag_address m curr_tag

/-- The loop of `parse_multiboot_data`, on at most the given number of turns. -/
def tag_loop (m : Memory) : ℕ → ℕ → Walk Unit
  | 0, _ => throw .stuck
  | fuel + 1, curr_tag => do
    let curr_tag ← turn m curr_tag
    if curr_tag ≠ 0 then tag_loop m fuel curr_tag else pure ()

/-- The first tag follows the 8 bytes of `multiboot_start`. -/
def first_tag (pstart : ℕ) : ℕ := wrap (pstart + 8)

/-! ### Printing -/

/-- What an action does to the state, the terminal apart. -/
structure Moves (s s' : State) (act : Globals → Globals) (reads : List (ℕ × ℕ)) (counted : List ℕ) : Prop where
  globals : s'.globals = act s.globals
  visited : s'.visited = s.visited
  reads : s'.reads = reads ++ s.reads
  counted : s'.counted = counted ++ s.counted

section
variable {m : Memory} {s s₁ s₂ : State} {f g : Globals → Globals} {new new' : List (ℕ × ℕ)} {sizes sizes' : List ℕ}
  {str : String} {args : List ℕ} {pieces : List Piece} {p : ℕ}

theorem Moves.trans (first : Moves s s₁ f new sizes) (second : Moves s₁ s₂ g new' sizes') :
    Moves s s₂ (g ∘ f) (new' ++ new) (sizes' ++ sizes) where
  globals := by rw [second.globals, first.globals]; rfl
  visited := second.visited.trans first.visited
  reads := by rw [second.reads, first.reads, List.append_assoc]
  counted := by rw [second.counted, first.counted, List.append_assoc]

/-- The addresses of the strings that a call prints. -/
def pointers (m : Memory) (args : List ℕ) (pieces : List Piece) : List ℕ :=
  (actual (passing m args) 0 pieces).filterMap pointer

theorem printf_eq (m : Memory) (args : List ℕ) (spells : format pieces = chars str) (s : State) : ∃ t, printf m str args s =
    ((pointers m args pieces).forM (load_string m) >>= fun _ => modify fun s => { s with terminal := t }) s := by
  obtain ⟨console, new, ran, traced, filtered⟩ := terminal_printf_run (passing m args) pieces ⟨s.terminal, 0, []⟩
  have strings : console.trace.reverse.filterMap pointer = pointers m args pieces := by
    rw [traced, List.append_nil, pointers, ← filtered, List.filterMap_filter]
    congr 1
    funext output
    cases output <;> rfl
  refine ⟨console.terminal, ?_⟩
  rw [spells] at ran
  rw [← strings]
  have got : (get : Walk State) s = .ok s s := rfl
  rw [printf, bind_ok got, ran]

/-- A call without strings. -/
theorem printf_plain (spells : format pieces = chars str) (none : pointers m args pieces = []) (s : State) :
    ∃ s', printf m str args s = .ok () s' ∧ Moves s s' id [] [] := by
  obtain ⟨t, eq⟩ := printf_eq m args spells s
  rw [none] at eq
  exact ⟨_, eq, rfl, rfl, rfl, rfl⟩

/-- A call with one string. -/
theorem printf_string {found : List UInt8} (spells : format pieces = chars str) (one : pointers m args pieces = [p])
    (isString : c_string m (2 ^ 64) p = some found) (s : State) :
    ∃ s', printf m str args s = .ok () s' ∧ Moves s s' id [(p, found.length + 1)] [] := by
  obtain ⟨t, eq⟩ := printf_eq m args spells s
  have loads : load_string m p s = .ok () { s with reads := (p, found.length + 1) :: s.reads } := by
    rw [load_string, isString]
    rfl
  rw [one] at eq
  have all : [p].forM (load_string m) s = .ok () { s with reads := (p, found.length + 1) :: s.reads } := bind_ok loads _
  exact ⟨_, eq.trans (bind_ok all _), rfl, rfl, rfl, rfl⟩

theorem printf_endless (spells : format pieces = chars str) (one : pointers m args pieces = [p])
    (noString : c_string m (2 ^ 64) p = none) (s : State) : printf m str args s = .error .endless s := by
  obtain ⟨t, eq⟩ := printf_eq m args spells s
  have fails : load_string m p s = .error .endless s := by
    rw [load_string, noString]
    rfl
  rw [one] at eq
  have all : [p].forM (load_string m) s = .error .endless s := bind_error fails _
  exact eq.trans (bind_error all _)

/-! ### The formats -/

instance (c : UInt8) : Decidable (Ordinary c) := inferInstanceAs (Decidable (_ ∧ _))

def text (str : String) : List Piece :=
  (chars str).filterMap fun c => if ordinary : Ordinary c then some (.plain c ordinary) else none

theorem hash_unambiguous : Flag.hash = .none → ∀ digits, Width.literal [] ≠ .literal (0 :: digits) := by
  intro unflagged
  cases unflagged

theorem none_unambiguous : Flag.none = .none → ∀ digits, Width.literal [] ≠ .literal (0 :: digits) := by
  intro _ digits same
  cases same

/-- `%#zx` and `%s`. -/
def hexz : Piece := .conversion ⟨.hash, .literal [], .hex false .z, hash_unambiguous⟩
def string : Piece := .conversion ⟨.none, .literal [], .string, none_unambiguous⟩

theorem actual_text (caller : Caller) (j : ℕ) (str : String) (pieces : List Piece) :
    actual caller j (text str ++ pieces) = actual caller j pieces := by
  rw [text]
  induction chars str with
  | nil => rfl
  | cons c cs ih =>
    by_cases ordinary : Ordinary c
    · rw [List.filterMap_cons_some (b := .plain c ordinary) (by simp [ordinary])]
      exact ih
    · rw [List.filterMap_cons_none (by simp [ordinary])]
      exact ih

theorem actual_hexz (caller : Caller) (j : ℕ) (pieces : List Piece) : (actual caller j (hexz :: pieces)).filterMap pointer =
    (actual caller (j + 1) pieces).filterMap pointer := by
  rfl

theorem actual_string (caller : Caller) (j : ℕ) (pieces : List Piece) : (actual caller j (string :: pieces)).filterMap pointer =
    wrap (signed 32 (caller.args j).toNat) :: (actual caller (j + 1) pieces).filterMap pointer := by
  rfl

def entry_format : List Piece := text "Addr: " ++ hexz :: (text " \t Length: " ++ hexz :: text "\n")
def memory_format : List Piece := text "mem_lower: " ++ hexz :: (text " \t mem_upper: " ++ hexz :: text "\n")
def unknown_format : List Piece :=
  text "Failed with tag: " ++ hexz :: (text " \t Type: " ++ hexz :: (text " \t Size: " ++ hexz :: text "\n"))
def name_format : List Piece := text "boot load name: " ++ string :: text "\n"
def command_format : List Piece := text "Boot command line: " ++ string :: text "\n"

theorem entry_spells : format entry_format = chars "Addr: %#zx \t Length: %#zx\n" := by decide +kernel
theorem memory_spells : format memory_format = chars "mem_lower: %#zx \t mem_upper: %#zx\n" := by decide +kernel
theorem unknown_spells : format unknown_format = chars "Failed with tag: %#zx \t Type: %#zx \t Size: %#zx\n" := by decide +kernel
theorem name_spells : format name_format = chars "boot load name: %s\n" := by decide +kernel
theorem command_spells : format command_format = chars "Boot command line: %s\n" := by decide +kernel

theorem actual_text_last (caller : Caller) (j : ℕ) (str : String) : actual caller j (text str) = [] := by
  have all := actual_text caller j str []
  rw [List.append_nil] at all
  exact all

theorem entry_pointers (args : List ℕ) : pointers m args entry_format = [] := by
  rw [pointers, entry_format, actual_text, actual_hexz, actual_text, actual_hexz, actual_text_last]
  rfl

theorem memory_pointers (args : List ℕ) : pointers m args memory_format = [] := by
  rw [pointers, memory_format, actual_text, actual_hexz, actual_text, actual_hexz, actual_text_last]
  rfl

theorem unknown_pointers (args : List ℕ) : pointers m args unknown_format = [] := by
  rw [pointers, unknown_format, actual_text, actual_hexz, actual_text, actual_hexz, actual_text, actual_hexz,
    actual_text_last]
  rfl

theorem text_pointers (args : List ℕ) (str : String) : pointers m args (text str) = [] := by
  rw [pointers, actual_text_last]
  rfl

/-- Where `terminal_printf` reads the string of a tag. -/
def string_address (a : ℕ) : ℕ := wrap (signed 32 (wrap (a + 8)))

theorem slot_eq (a : ℕ) : ((passing m [wrap (a + 8)]).args 0).toNat = wrap (a + 8) := by
  have small := wrap_lt (a + 8)
  exact Nat.mod_eq_of_lt small

theorem name_pointers (a : ℕ) : pointers m [wrap (a + 8)] name_format = [string_address a] := by
  rw [pointers, name_format, actual_text, actual_string, actual_text_last, slot_eq]
  rfl

theorem command_pointers (a : ℕ) : pointers m [wrap (a + 8)] command_format = [string_address a] := by
  rw [pointers, command_format, actual_text, actual_string, actual_text_last, slot_eq]
  rfl

end

/-! ### A turn -/

section
variable {m : Memory} {s : State} {a : ℕ}

def tag_type (m : Memory) (a : ℕ) : ℕ := read m a 4
def tag_size (m : Memory) (a : ℕ) : ℕ := read m (wrap (a + 4)) 4
def tag_entry_size (m : Memory) (a : ℕ) : ℕ := read m (wrap (a + 8)) 4

/-- The string of a tag, as it is printed. -/
def tag_string (m : Memory) (a : ℕ) : Option (List UInt8) := c_string m (2 ^ 64) (string_address a)

/-- The entries that the loop of a memory map prints. -/
def entries (m : Memory) (a : ℕ) : List (ℕ × ℕ) :=
  (List.range (num_of_maps (tag_size m a) (tag_entry_size m a)).toNat).map fun i => (memory_maps a i, 24)

/-- The read of a tag's string. -/
def string_reads (m : Memory) (a : ℕ) : List (ℕ × ℕ) :=
  ((tag_string m a).map fun str => (string_address a, str.length + 1)).toList

/-- What the switch reads after the type. -/
def tag_reads (m : Memory) (a : ℕ) : List (ℕ × ℕ) :=
  if tag_type m a = multiboot_memory_info_tag then [(wrap (a + 12), 4), (wrap (a + 8), 4)]
  else if tag_type m a = multiboot_boot_load_name_tag then string_reads m a
  else if tag_type m a = multiboot_bios_boot_device_tag then []
  else if tag_type m a = multiboot_boot_command_line_tag then string_reads m a
  else if tag_type m a = multiboot_elf_symbols_tag then []
  else if tag_type m a = multiboot_memory_map_tag then (entries m a).reverse ++ [(wrap (a + 8), 4), (wrap (a + 4), 4)]
  else if (tag_text (tag_type m a)).isSome then []
  else [(wrap (a + 4), 4)]

/-- The pointers that the switch sets for a tag. -/
def parsed (type a : ℕ) : Globals → Globals :=
  if type = multiboot_memory_info_tag then ({ · with info := a })
  else if type = multiboot_boot_load_name_tag then ({ · with name := a })
  else if type = multiboot_bios_boot_device_tag then ({ · with device := a })
  else if type = multiboot_boot_command_line_tag then ({ · with command_line := a })
  else if type = multiboot_elf_symbols_tag then ({ · with symbols := a, elf_symbols := a })
  else if type = multiboot_memory_map_tag then ({ · with maps := a, memory_map := a })
  else id

def tag_counted (m : Memory) (a : ℕ) : List ℕ :=
  if tag_type m a = multiboot_memory_map_tag then [tag_size m a] else []

/-- The switch neither divides by zero nor reads a string without end. -/
structure Parsable (m : Memory) (a : ℕ) : Prop where
  named : tag_type m a = multiboot_boot_load_name_tag → (tag_string m a).isSome
  commanded : tag_type m a = multiboot_boot_command_line_tag → (tag_string m a).isSome
  divisible : tag_type m a = multiboot_memory_map_tag → tag_entry_size m a ≠ 0

theorem load_run (a n : ℕ) (s : State) : ∃ s', load m a n s = .ok (read m a n) s' ∧ Moves s s' id [(a, n)] [] :=
  ⟨_, rfl, rfl, rfl, rfl, rfl⟩

theorem set_globals_run (act : Globals → Globals) (s : State) :
    ∃ s', set_globals act s = .ok () s' ∧ Moves s s' act [] [] :=
  ⟨_, rfl, rfl, rfl, rfl, rfl⟩

theorem print_entry_run (maps i : ℕ) (s : State) :
    ∃ s', print_entry m maps i s = .ok () s' ∧ Moves s s' id [(memory_maps maps i, 24)] [] := by
  obtain ⟨s₁, isS₁⟩ : ∃ s₁ : State, s₁ = { s with reads := (memory_maps maps i, 24) :: s.reads } := ⟨_, rfl⟩
  have logs : log (memory_maps maps i) 24 s = .ok () s₁ := by rw [isS₁]; rfl
  have first : Moves s s₁ id [(memory_maps maps i, 24)] [] := by
    rw [isS₁]
    exact ⟨rfl, rfl, rfl, rfl⟩
  obtain ⟨s₂, ran, second⟩ := printf_plain entry_spells (entry_pointers _) s₁
  refine ⟨s₂, ?_, first.trans second⟩
  rw [print_entry]
  exact (bind_ok logs _).trans ran

theorem print_entries_run (maps : ℕ) (is : List ℕ) (s : State) : ∃ s', is.forM (print_entry m maps) s = .ok () s' ∧
    Moves s s' id (is.map fun i => (memory_maps maps i, 24)).reverse [] := by
  induction is generalizing s with
  | nil => exact ⟨s, rfl, rfl, rfl, rfl, rfl⟩
  | cons i is ih =>
    obtain ⟨s₁, ran, first⟩ := print_entry_run (m := m) maps i s
    obtain ⟨s₂, ran', second⟩ := ih s₁
    refine ⟨s₂, (bind_ok ran _).trans ran', ?_⟩
    rw [List.map_cons, List.reverse_cons]
    exact first.trans second

theorem count_maps_run (divisible : tag_entry_size m a ≠ 0) (s : State) :
    ∃ s', count_maps m a s = .ok (num_of_maps (tag_size m a) (tag_entry_size m a)) s' ∧
      Moves s s' id [(wrap (a + 8), 4), (wrap (a + 4), 4)] [tag_size m a] := by
  obtain ⟨s₁, loads, first⟩ := load_run (m := m) (wrap (a + 4)) 4 s
  obtain ⟨s₂, loads', second⟩ := load_run (m := m) (wrap (a + 8)) 4 s₁
  obtain ⟨s₃, isS₃⟩ : ∃ s₃ : State, s₃ = { s₂ with counted := tag_size m a :: s₂.counted } := ⟨_, rfl⟩
  have third : Moves s₂ s₃ id [] [tag_size m a] := by
    rw [isS₃]
    exact ⟨rfl, rfl, rfl, rfl⟩
  refine ⟨s₃, ?_, (first.trans second).trans third⟩
  rw [count_maps]
  refine (bind_ok loads _).trans ((bind_ok loads' _).trans ?_)
  rw [isS₃]
  have go : ¬ read m (wrap (a + 8)) 4 = 0 := divisible
  refine (bind_ok rfl _).trans ?_
  rw [if_neg go]
  rfl

theorem count_maps_fails (zero : tag_entry_size m a = 0) (s : State) :
    ∃ s', count_maps m a s = .error .division s' := by
  obtain ⟨s₁, loads, _⟩ := load_run (m := m) (wrap (a + 4)) 4 s
  obtain ⟨s₂, loads', _⟩ := load_run (m := m) (wrap (a + 8)) 4 s₁
  have stop : read m (wrap (a + 8)) 4 = 0 := zero
  refine ⟨{ s₂ with counted := read m (wrap (a + 4)) 4 :: s₂.counted }, ?_⟩
  rw [count_maps]
  refine (bind_ok loads _).trans ((bind_ok loads' _).trans ((bind_ok rfl _).trans ?_))
  rw [if_pos stop]
  rfl

theorem text_format {str : String} (ordinary : ∀ c ∈ chars str, Ordinary c) : format (text str) = chars str := by
  rw [format, text]
  generalize chars str = cs at ordinary ⊢
  induction cs with
  | nil => rfl
  | cons c cs ih =>
    have first := ordinary c List.mem_cons_self
    rw [List.filterMap_cons_some (b := .plain c first) (by simp [first])]
    exact congrArg (c :: ·) (ih fun d member => ordinary d (List.mem_cons_of_mem c member))

theorem tag_text_ordinary {type : ℕ} {str : String} (isText : tag_text type = some str) : ∀ c ∈ chars str, Ordinary c := by
  have all : ∀ p ∈ tag_texts, ∀ c ∈ chars p.2, Ordinary c := by decide +kernel
  obtain ⟨p, found, rfl⟩ := Option.map_eq_some_iff.mp isText
  exact all p (List.mem_of_find?_eq_some found)

theorem print_text_run (m : Memory) (str : String) (ordinary : ∀ c ∈ chars str, Ordinary c) (s : State) :
    ∃ s', printf m str [] s = .ok () s' ∧ Moves s s' id [] [] :=
  printf_plain (text_format ordinary) (text_pointers [] str) s

theorem string_run {str : String} {pieces : List Piece} (spells : format pieces = chars str)
    (one : pointers m [wrap (a + 8)] pieces = [string_address a]) (ended : (tag_string m a).isSome) (s : State) :
    ∃ s', printf m str [wrap (a + 8)] s = .ok () s' ∧ Moves s s' id (string_reads m a) [] := by
  obtain ⟨found, isString⟩ := Option.isSome_iff_exists.mp ended
  rw [string_reads, isString]
  exact printf_string spells one isString s

/-- A text is printed and globals are set. -/
theorem text_then_set {str : String} (ordinary : ∀ c ∈ chars str, Ordinary c) (act : Globals → Globals) (s : State) :
    ∃ s', (printf m str [] >>= fun _ => set_globals act) s = .ok () s' ∧ Moves s s' act [] [] := by
  obtain ⟨s₁, ran₁, first⟩ := print_text_run m str ordinary s
  obtain ⟨s₂, ran₂, second⟩ := set_globals_run act s₁
  exact ⟨s₂, (bind_ok ran₁ _).trans ran₂, first.trans second⟩

/-- Globals are set and the string of a tag is printed. -/
theorem set_then_string {str : String} {pieces : List Piece} (spells : format pieces = chars str)
    (one : pointers m [wrap (a + 8)] pieces = [string_address a]) (ended : (tag_string m a).isSome) (act : Globals → Globals)
    (s : State) : ∃ s', (set_globals act >>= fun _ => printf m str [wrap (a + 8)]) s = .ok () s' ∧
      Moves s s' act (string_reads m a) [] := by
  obtain ⟨s₁, ran₁, first⟩ := set_globals_run act s
  obtain ⟨s₂, ran₂, second⟩ := string_run spells one ended s₁
  have both := first.trans second
  rw [List.append_nil] at both
  exact ⟨s₂, (bind_ok ran₁ _).trans ran₂, both⟩

theorem parse_tag_run (parsable : Parsable m a) (s : State) : ∃ s', parse_tag m a (tag_type m a) s = .ok () s' ∧
    Moves s s' (parsed (tag_type m a) a) (tag_reads m a) (tag_counted m a) := by
  have uncounted : tag_type m a ≠ multiboot_memory_map_tag → tag_counted m a = [] := fun other => if_neg other
  by_cases info : tag_type m a = multiboot_memory_info_tag
  · obtain ⟨s₁, ran₁, first⟩ := print_text_run m "Mem info tag\n" (by decide +kernel) s
    obtain ⟨s₂, ran₂, second⟩ := set_globals_run ({ · with info := a }) s₁
    obtain ⟨s₃, ran₃, third⟩ := load_run (m := m) (wrap (a + 8)) 4 s₂
    obtain ⟨s₄, ran₄, fourth⟩ := load_run (m := m) (wrap (a + 12)) 4 s₃
    obtain ⟨s₅, ran₅, fifth⟩ := printf_plain memory_spells (memory_pointers _) s₄
    rw [parse_tag, if_pos info, parsed, if_pos info, tag_reads, if_pos info, uncounted (by rw [info]; decide)]
    refine ⟨s₅, ?_, (((first.trans second).trans third).trans fourth).trans fifth⟩
    exact (bind_ok ran₁ _).trans ((bind_ok ran₂ _).trans ((bind_ok ran₃ _).trans ((bind_ok ran₄ _).trans ran₅)))
  by_cases name : tag_type m a = multiboot_boot_load_name_tag
  · simp only [parse_tag, parsed, tag_reads, if_neg info, if_pos name, uncounted (by rw [name]; decide)]
    exact set_then_string name_spells (name_pointers a) (parsable.named name) ({ · with name := a }) s
  by_cases device : tag_type m a = multiboot_bios_boot_device_tag
  · simp only [parse_tag, parsed, tag_reads, if_neg info, if_neg name, if_pos device, uncounted (by rw [device]; decide)]
    exact text_then_set (by decide +kernel) ({ · with device := a }) s
  by_cases command : tag_type m a = multiboot_boot_command_line_tag
  · simp only [parse_tag, parsed, tag_reads, if_neg info, if_neg name, if_neg device, if_pos command,
      uncounted (by rw [command]; decide)]
    exact set_then_string command_spells (command_pointers a) (parsable.commanded command) ({ · with command_line := a }) s
  by_cases elf : tag_type m a = multiboot_elf_symbols_tag
  · simp only [parse_tag, parsed, tag_reads, if_neg info, if_neg name, if_neg device, if_neg command, if_pos elf,
      uncounted (by rw [elf]; decide)]
    exact text_then_set (by decide +kernel) ({ · with symbols := a, elf_symbols := a }) s
  by_cases map : tag_type m a = multiboot_memory_map_tag
  · obtain ⟨s₁, ran₁, first⟩ := print_text_run m "Memory map tag\n" (by decide +kernel) s
    obtain ⟨s₂, ran₂, second⟩ := set_globals_run ({ · with maps := a, memory_map := a }) s₁
    obtain ⟨s₃, ran₃, third⟩ := count_maps_run (parsable.divisible map) s₂
    obtain ⟨s₄, ran₄, fourth⟩ := print_entries_run (m := m) a
      (List.range (num_of_maps (tag_size m a) (tag_entry_size m a)).toNat) s₃
    simp only [parse_tag, parsed, tag_reads, tag_counted, if_neg info, if_neg name, if_neg device, if_neg command,
      if_neg elf, if_pos map]
    refine ⟨s₄, ?_, ((first.trans second).trans third).trans fourth⟩
    exact (bind_ok ran₁ _).trans ((bind_ok ran₂ _).trans ((bind_ok ran₃ _).trans ran₄))
  simp only [parse_tag, parsed, tag_reads, uncounted map, if_neg info, if_neg name, if_neg device, if_neg command,
    if_neg elf, if_neg map]
  cases isText : tag_text (tag_type m a) with
  | some str =>
    obtain ⟨s₁, ran, moves⟩ := print_text_run m str (tag_text_ordinary isText) s
    exact ⟨s₁, ran, moves⟩
  | none =>
    obtain ⟨s₁, ran₁, first⟩ := load_run (m := m) (wrap (a + 4)) 4 s
    obtain ⟨s₂, ran₂, second⟩ := printf_plain unknown_spells (unknown_pointers _) s₁
    exact ⟨s₂, (bind_ok ran₁ _).trans ran₂, first.trans second⟩

theorem parse_tag_fails (unparsable : ¬ Parsable m a) (s : State) :
    ∃ fault s', parse_tag m a (tag_type m a) s = .error fault s' := by
  have endless : ¬ (tag_string m a).isSome → c_string m (2 ^ 64) (string_address a) = none := by
    intro none
    simpa [tag_string] using none
  by_cases named : tag_type m a = multiboot_boot_load_name_tag → (tag_string m a).isSome
  · by_cases commanded : tag_type m a = multiboot_boot_command_line_tag → (tag_string m a).isSome
    · have map : tag_type m a = multiboot_memory_map_tag ∧ tag_entry_size m a = 0 := by
        by_contra other
        refine unparsable ⟨named, commanded, fun map zero => other ⟨map, zero⟩⟩
      obtain ⟨s₁, ran₁, _⟩ := print_text_run m "Memory map tag\n" (by decide +kernel) s
      obtain ⟨s₂, ran₂, _⟩ := set_globals_run ({ · with maps := a, memory_map := a }) s₁
      obtain ⟨s₃, fails⟩ := count_maps_fails map.2 s₂
      rw [map.1, parse_tag, if_neg (by decide), if_neg (by decide), if_neg (by decide), if_neg (by decide),
        if_neg (by decide), if_pos rfl]
      exact ⟨_, s₃, (bind_ok ran₁ _).trans ((bind_ok ran₂ _).trans (bind_error fails _))⟩
    · obtain ⟨command, none⟩ := Classical.not_imp.mp commanded
      obtain ⟨s₁, ran, _⟩ := set_globals_run ({ · with command_line := a }) s
      rw [command, parse_tag, if_neg (by decide), if_neg (by decide), if_neg (by decide), if_pos rfl]
      exact ⟨_, s₁, (bind_ok ran _).trans (printf_endless command_spells (command_pointers a) (endless none) s₁)⟩
  · obtain ⟨name, none⟩ := Classical.not_imp.mp named
    obtain ⟨s₁, ran, _⟩ := set_globals_run ({ · with name := a }) s
    rw [name, parse_tag, if_neg (by decide), if_pos rfl]
    exact ⟨_, s₁, (bind_ok ran _).trans (printf_endless name_spells (name_pointers a) (endless none) s₁)⟩

/-- The address that the condition of the loop computes. -/
def following (m : Memory) (a : ℕ) : ℕ := if tag_type m a ≠ 0 then next_tag a (tag_size m a) else 0

def turn_reads (m : Memory) (a : ℕ) : List (ℕ × ℕ) :=
  (if tag_type m a ≠ 0 then [(wrap (a + 4), 4)] else []) ++ (a, 4) :: (tag_reads m a ++ [(a, 4)])

theorem find_next_run (a : ℕ) (s : State) : ∃ s', find_next_tag_address m a s = .ok (following m a) s' ∧
    Moves s s' id ((if tag_type m a ≠ 0 then [(wrap (a + 4), 4)] else []) ++ [(a, 4)]) [] := by
  obtain ⟨s₁, loads, first⟩ := load_run (m := m) a 4 s
  by_cases more : tag_type m a ≠ 0
  · obtain ⟨s₂, loads', second⟩ := load_run (m := m) (wrap (a + 4)) 4 s₁
    rw [following, if_pos more, if_pos more, find_next_tag_address]
    refine ⟨s₂, (bind_ok loads _).trans ?_, first.trans second⟩
    have go : read m a 4 ≠ 0 := more
    rw [if_pos go]
    exact bind_ok loads' _
  · rw [following, if_neg more, if_neg more, find_next_tag_address]
    refine ⟨s₁, (bind_ok loads _).trans ?_, first⟩
    have stop : ¬ read m a 4 ≠ 0 := more
    rw [if_neg stop]
    rfl

/-- What a turn does to the state, the terminal apart. -/
structure Turned (m : Memory) (a : ℕ) (s s' : State) : Prop where
  globals : s'.globals = parsed (tag_type m a) a s.globals
  visited : s'.visited = a :: s.visited
  reads : s'.reads = turn_reads m a ++ s.reads
  counted : s'.counted = tag_counted m a ++ s.counted

theorem turn_run (parsable : Parsable m a) (s : State) :
    ∃ s', turn m a s = .ok (following m a) s' ∧ Turned m a s s' := by
  obtain ⟨s₁, isS₁⟩ : ∃ s₁ : State, s₁ = { s with visited := a :: s.visited } := ⟨_, rfl⟩
  obtain ⟨s₂, ran₂, second⟩ := load_run (m := m) a 4 s₁
  obtain ⟨s₃, ran₃, third⟩ := parse_tag_run parsable s₂
  obtain ⟨s₄, ran₄, fourth⟩ := find_next_run (m := m) a s₃
  have all := (second.trans third).trans fourth
  have visits : (modify fun s => { s with visited := a :: s.visited } : Walk Unit) s = .ok () s₁ := by
    rw [isS₁]
    rfl
  refine ⟨s₄, ?_, ?_⟩
  · rw [turn]
    exact (bind_ok visits _).trans ((bind_ok ran₂ _).trans ((bind_ok ran₃ _).trans ran₄))
  · rw [isS₁] at all
    refine ⟨all.globals, all.visited, ?_, ?_⟩
    · rw [all.reads, turn_reads]
      simp
    · rw [all.counted]
      simp

theorem turn_fails (unparsable : ¬ Parsable m a) (s : State) : ∃ fault s', turn m a s = .error fault s' := by
  obtain ⟨s₁, isS₁⟩ : ∃ s₁ : State, s₁ = { s with visited := a :: s.visited } := ⟨_, rfl⟩
  obtain ⟨s₂, ran₂, _⟩ := load_run (m := m) a 4 s₁
  obtain ⟨fault, s₃, fails⟩ := parse_tag_fails unparsable s₂
  have visits : (modify fun s => { s with visited := a :: s.visited } : Walk Unit) s = .ok () s₁ := by
    rw [isS₁]
    rfl
  rw [turn]
  exact ⟨fault, s₃, (bind_ok visits _).trans ((bind_ok ran₂ _).trans (bind_error fails _))⟩

end
end OsC.Tags
