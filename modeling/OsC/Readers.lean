import OsC.Layout
import OsC.FrameAllocator

/-!
The functions that read the tags behind the pointers that the walk of the block
leaves: `parse_multiboot_data` with `print_elf_symbols`, `print_memory_tags`,
`init_allocator`, `switch_area` and the loop of `remap_kernel` over the
sections, on the bytes of the block. They record each field that they read:
through which pointer, of which entry of the tag, and where.
-/
namespace OsC.Readers
open OsC.Bytes OsC.Word OsC.Loop OsC.Frames OsC.Conversions OsC.Multiboot OsC.FrameAllocator OsC.Tags
open OsC.Vga (chars)
open OsC.Printf (signed)

/-! ### Reads through pointers -/

/-- The pointers to tags. The last two are fields of `data`; `allocator.mem_map` is a copy of the first of them. -/
inductive Pointer
  | info | name | device | command_line | symbols | maps | memory_map | elf_symbols
  deriving DecidableEq, Repr

def Pointer.target (g : Globals) : Pointer → ℕ
  | .info => g.info
  | .name => g.name
  | .device => g.device
  | .command_line => g.command_line
  | .symbols => g.symbols
  | .maps => g.maps
  | .memory_map => g.memory_map
  | .elf_symbols => g.elf_symbols

/-- What a field belongs to: the tag itself, an entry of a memory map or a section header. -/
inductive Part
  | tag
  | entry (i : ℕ)
  | header (i : ℕ)
  deriving DecidableEq, Repr

/-- A read: the pointer that it begins at and what that holds, the part of the tag and its address, and the field. -/
structure Access where
  pointer : Pointer
  target : ℕ
  part : Part
  base : ℕ
  offset : ℕ
  length : ℕ
  deriving DecidableEq, Repr

structure State where
  walk : Tags.State
  accesses : List Access

abbrev Reader := EStateM Fault State

section
variable {α : Type}

/-- The functions of the walk record their reads themselves. -/
def walk (act : Walk α) : Reader α := fun s =>
  match act s.walk with
  | .ok a w => .ok a { s with walk := w }
  | .error fault w => .error fault { s with walk := w }

end

/-- The state behind a run, also behind one that fails. -/
def after {α : Type} : EStateM.Result Fault State α → State
  | .ok _ s => s
  | .error _ s => s

def note (accesses : List Access) : Reader Unit := modify fun s => { s with accesses := accesses ++ s.accesses }

def access (m : Memory) (a : Access) : Reader ℕ := do
  note [a]
  pure (read m (wrap (a.base + a.offset)) a.length)

/-- What a pointer holds. -/
def target (p : Pointer) : Reader ℕ := do
  let s ← get
  pure (p.target s.walk.globals)

/-- A field of the tag at a pointer. -/
def field (m : Memory) (p : Pointer) (offset length : ℕ) : Reader ℕ := do
  let tag ← target p
  access m ⟨p, tag, .tag, tag, offset, length⟩

/-! ### The walk -/

/-- The fields that the switch reads through the pointer that it has just set, the newest first. The strings of two tags
    are read by `terminal_printf`, from the address that it is passed. -/
def switch_accesses (m : Memory) (curr_tag type : ℕ) : List Access :=
  if type = multiboot_memory_info_tag then [⟨.info, curr_tag, .tag, curr_tag, 12, 4⟩, ⟨.info, curr_tag, .tag, curr_tag, 8, 4⟩]
  else if type = multiboot_memory_map_tag then
    ((List.range (num_of_maps (tag_size m curr_tag) (tag_entry_size m curr_tag)).toNat).map fun i =>
      (⟨.maps, curr_tag, .entry i, memory_maps curr_tag i, 0, 24⟩ : Access)).reverse ++
        [⟨.maps, curr_tag, .tag, curr_tag, 8, 4⟩, ⟨.maps, curr_tag, .tag, curr_tag, 4, 4⟩]
  else []

def parse_tag (m : Memory) (curr_tag type : ℕ) : Reader Unit := do
  walk (Tags.parse_tag m curr_tag type)
  note (switch_accesses m curr_tag type)

def turn (m : Memory) (curr_tag : ℕ) : Reader ℕ := do
  walk (modify fun s => { s with visited := curr_tag :: s.visited })
  let type ← walk (load m curr_tag 4)
  parse_tag m curr_tag type
  walk (find_next_tag_address m curr_tag)

def tag_loop (m : Memory) : ℕ → ℕ → Reader Unit
  | 0, _ => throw .stuck
  | fuel + 1, curr_tag => do
    let curr_tag ← turn m curr_tag
    if curr_tag ≠ 0 then tag_loop m fuel curr_tag else pure ()

/-! ### Printing the tags -/

def print_memory_tags (m : Memory) : Reader Unit := do
  let size ← field m .maps 4 4
  let entry_size ← field m .maps 8 4
  if entry_size = 0 then throw .division
  let maps ← target .maps
  (List.range (num_of_maps size entry_size).toNat).forM fun i => do
    let entry := wrap (maps + 4 * 4 + i * 24)
    let base_addr ← access m ⟨.maps, maps, .entry i, entry, 0, 8⟩
    let length ← access m ⟨.maps, maps, .entry i, entry, 8, 8⟩
    let type ← access m ⟨.maps, maps, .entry i, entry, 16, 4⟩
    walk (printf m "Addr: %#zx \t Length: %#zx \t Type: %#zx\n" [base_addr, length, type])

/-- The flags that `get_sh_flag_string` knows, with the index of their text. -/
def sh_flags : List (ℕ × ℕ) :=
  [(shf_write, 1), (shf_alloc, 2), (shf_execinstr, 3), (0x10, 4), (0x20, 5), (0x40, 6), (0x80, 7), (0x100, 8), (0x200, 9),
    (0x400, 10), (0x0ff00000, 11), (0xf0000000, 12), (0x4000000, 13), (0x8000000, 14)]

def sh_flag_index (flag : ℕ) : ℕ := ((sh_flags.find? (·.1 = flag)).map (·.2)).getD 0

/-- The values of `i` in `for(size_t i=1; i<(SIZE_MAX>>1); i=i<<1)`. -/
def shifted : List ℕ := (List.range 63).map (2 ^ ·)

/-- The loop of `print_elf_symbols` over the flags of a section. A flag has 32 bits. -/
def print_sh_flags (m : Memory) (ef_sh_flags_str : ℕ → ℕ) (flags : Access) : Reader Unit :=
  shifted.forM fun i => do
    let sh_flags ← access m flags
    let flag := (i &&& sh_flags) % 2 ^ 32
    if flag ≠ 0 then walk (printf m "%s " [ef_sh_flags_str (sh_flag_index flag)])

/-- `symbols + 5*sizeof(uint32_t) + i*symbols->entsize`, whose product has 32 bits. -/
def elf_header (symbols i entsize : ℕ) : ℕ := wrap (symbols + 5 * 4 + (i * entsize % 2 ^ 32 : ℕ))

/-- The body of the loop of `print_elf_symbols`. -/
def print_elf_header (m : Memory) (ef_sh_flags_str : ℕ → ℕ) (symbols shndx string_table i : ℕ) : Reader Unit := do
  let entsize ← field m .symbols 12 4
  let header := elf_header symbols i entsize
  let sh_addr ← access m ⟨.symbols, symbols, .header i, header, 16, 8⟩
  let sh_type ← access m ⟨.symbols, symbols, .header i, header, 4, 4⟩
  walk (printf m "Addr: %#zx \t Length: %#zx \t Flags: " [sh_addr, sh_type])
  print_sh_flags m ef_sh_flags_str ⟨.symbols, symbols, .header i, header, 8, 8⟩
  let sh_size ← access m ⟨.symbols, symbols, .header i, header, 32, 8⟩
  let strings ← access m ⟨.symbols, symbols, .header shndx, string_table, 16, 8⟩
  let sh_name ← access m ⟨.symbols, symbols, .header i, header, 0, 4⟩
  walk (printf m "Size: %#zx %s\n" [sh_size, wrap (strings + sh_name)])

/-- The texts of the flags lie at the addresses `ef_sh_flags_str`. -/
def print_elf_symbols (m : Memory) (ef_sh_flags_str : ℕ → ℕ) : Reader Unit := do
  let symbols ← target .symbols
  let shndx ← field m .symbols 16 4
  let entsize ← field m .symbols 12 4
  let string_table := elf_header symbols shndx entsize
  let num ← field m .symbols 8 4
  (List.range num).forM (print_elf_header m ef_sh_flags_str symbols shndx string_table)

/-! ### The start -/

def parse_multiboot_data (m : Memory) (ef_sh_flags_str : ℕ → ℕ) (fuel pstart : ℕ) : Reader Unit := do
  tag_loop m fuel (first_tag pstart)
  print_elf_symbols m ef_sh_flags_str

def init_multiboot_data (m : Memory) (ef_sh_flags_str : ℕ → ℕ) (fuel pmultiboot : ℕ) : Reader Unit := do
  let total_size ← walk (load m pmultiboot 4)
  walk (printf m "Multiboot addr: %#zx \t Total size: %#zx\n" [pmultiboot, total_size])
  parse_multiboot_data m ef_sh_flags_str fuel pmultiboot

/-! ### The allocator -/

/-- The frame allocator with the pointer to its memory map; frames are kept as their numbers. -/
structure Allocator where
  next_free_frame : ℕ
  mem_map : ℕ
  entry_index : ℕ
  num_entries : ℕ
  kernel_start : ℕ
  kernel_end : ℕ
  multiboot_start : ℕ
  multiboot_end : ℕ

/-- A field of `mem_map->memory_maps[i]`. -/
def map_field (m : Memory) (mem_map i offset : ℕ) : Reader ℕ :=
  access m ⟨.memory_map, mem_map, .entry i, memory_maps mem_map i, offset, 8⟩

/-- The body of the loop of `init_allocator` over the memory map. -/
def init_turn (m : Memory) (mem_map : ℕ) (found : ℕ × ℕ) (i : ℕ) : Reader (ℕ × ℕ) := do
  let base_addr ← map_field m mem_map i 0
  if found.1 > base_addr then
    let length ← map_field m mem_map i 8
    if length ≥ PAGE_SIZE then
      let min_addr ← map_field m mem_map i 0
      pure (min_addr, i)
    else pure found
  else pure found

/-- The address of `elf_symbols->sectionheaders[i]`. -/
def sectionheaders (elf_symbols i : ℕ) : ℕ := wrap (elf_symbols + 20 + 64 * i)

/-- The section header at an address. -/
def section_header (m : Memory) (header : ℕ) : multiboot_elf_section_header :=
  ⟨read m (wrap (header + 8)) 8, read m (wrap (header + 16)) 8, read m (wrap (header + 32)) 8, read_lt _ _ _, read_lt _ _ _⟩

/-- The body of its loop over the sections, which copies the header whole. -/
def bounds_turn (m : Memory) (elf_symbols : ℕ) (bounds : ℕ × ℕ) (i : ℕ) : Reader (ℕ × ℕ) := do
  let header := sectionheaders elf_symbols i
  note [⟨.elf_symbols, elf_symbols, .header i, header, 0, 64⟩]
  pure (kernel_turn bounds (section_header m header))

def init_allocator (m : Memory) (start : ℕ) : Reader Allocator := do
  let mem_map ← target .memory_map
  let size ← field m .memory_map 4 4
  let entry_size ← field m .memory_map 8 4
  if entry_size = 0 then throw .division
  let num_entries := wrap (size - 4 * 4) / entry_size
  let found ← (List.range num_entries).foldlM (init_turn m mem_map) (UINT64_MAX, 0)
  let elf_symbols ← target .elf_symbols
  let num ← field m .elf_symbols 8 4
  let kernel ← (List.range num).foldlM (bounds_turn m elf_symbols) (UINT64_MAX, 0)
  let total_size ← walk (load m start 4)
  pure {
    next_free_frame := 0
    mem_map
    entry_index := found.2
    num_entries
    kernel_start := get_frame_for_addr kernel.1
    kernel_end := get_frame_for_addr kernel.2
    multiboot_start := get_frame_for_addr start
    multiboot_end := get_frame_for_addr (wrap (start + total_size)) }

/-- The body of the loop of `switch_area`. -/
def switch_turn (m : Memory) (mem_map min_addr : ℕ) (found : ℕ × ℕ) (i : ℕ) : Reader (ℕ × ℕ) := do
  let base_addr ← map_field m mem_map i 0
  if min_addr ≤ base_addr then
    let length ← map_field m mem_map i 8
    if length ≥ PAGE_SIZE then
      let base_addr ← map_field m mem_map i 0
      if found.1 > base_addr then
        let next_min_addr ← map_field m mem_map i 0
        pure (next_min_addr, i)
      else pure found
    else pure found
  else pure found

def switch_area (m : Memory) (a : Allocator) : Reader Allocator := do
  let base_addr ← map_field m a.mem_map a.entry_index 0
  let length ← map_field m a.mem_map a.entry_index 8
  let min_addr := wrap (base_addr + length - 1)
  let found ← (List.range a.num_entries).foldlM (switch_turn m a.mem_map min_addr) (UINT64_MAX, a.num_entries)
  pure { a with entry_index := found.2 }

/-! ### The sections -/

/-- What the body of the loop of `remap_kernel` reads of a section. It maps the pages of the result. -/
def read_section (m : Memory) (elf_symbols i : ℕ) : Reader multiboot_elf_section_header := do
  let header := sectionheaders elf_symbols i
  let section_field := fun offset => access m ⟨.elf_symbols, elf_symbols, .header i, header, offset, 8⟩
  let flags ← section_field 8
  if flags &&& shf_alloc ≠ 0 then
    -- The address, the end, and the two other flags.
    let _ ← section_field 16
    let _ ← section_field 16
    let _ ← section_field 32
    let _ ← section_field 8
    let _ ← section_field 8
    pure (section_header m header)
  else pure (section_header m header)

/-- The sections over which the loop of `remap_kernel` runs. -/
def read_sections (m : Memory) : Reader (List multiboot_elf_section_header) := do
  let elf_symbols ← target .elf_symbols
  let num ← field m .elf_symbols 8 4
  (List.range num).mapM (read_section m elf_symbols)

/-! ### Runs -/

section
variable {α β ι : Type} {m : Memory} {g : Globals} {Q : Access → Prop} {must must' : List Access} {x : Reader α} {f : α → Reader β}

/-- With these pointers the action ends and keeps them; its reads satisfy `Q` and those of `must` are among them. -/
def Runs (g : Globals) (Q : Access → Prop) (must : List Access) (x : Reader α) : Prop :=
  ∀ s, s.walk.globals = g → ∃ v s' new, x s = .ok v s' ∧ s'.walk.globals = g ∧ s'.accesses = new ++ s.accesses ∧
    (∀ a ∈ new, Q a) ∧ must ⊆ new

theorem Runs.weaken (runs : Runs g Q must x) (fewer : must' ⊆ must) : Runs g Q must' x := by
  intro s same
  obtain ⟨v, s', new, ran, kept, grown, all, among⟩ := runs s same
  exact ⟨v, s', new, ran, kept, grown, all, List.Subset.trans fewer among⟩

theorem Runs.pure (v : α) : Runs g Q [] (pure v : Reader α) := fun s same =>
  ⟨v, s, [], rfl, same, rfl, fun _ member => absurd member List.not_mem_nil, List.nil_subset _⟩

theorem Runs.bind (first : Runs g Q must x) (rest : ∀ v, Runs g Q must' (f v)) : Runs g Q (must ++ must') (x >>= f) := by
  intro s same
  obtain ⟨v, s₁, new, ran, kept, grown, all, among⟩ := first s same
  obtain ⟨w, s₂, new', ran', kept', grown', all', among'⟩ := rest v s₁ kept
  refine ⟨w, s₂, new' ++ new, (bind_ok ran f).trans ran', kept', ?_, ?_, ?_⟩
  · rw [grown', grown, List.append_assoc]
  · intro a member
    rcases List.mem_append.mp member with later | early
    · exact all' a later
    · exact all a early
  · exact List.append_subset.mpr ⟨List.Subset.trans among (List.subset_append_right _ _),
      List.Subset.trans among' (List.subset_append_left _ _)⟩

/-- Nothing is asked of the rest. -/
theorem Runs.ended (first : Runs g Q must x) (rest : ∀ v, Runs g Q [] (f v)) : Runs g Q must (x >>= f) :=
  (first.bind rest).weaken (List.subset_append_left _ _)

/-- Nothing is asked of the beginning. -/
theorem Runs.next (first : Runs g Q [] x) (rest : ∀ v, Runs g Q must (f v)) : Runs g Q must (x >>= f) := first.bind rest

theorem Runs.noted {accesses : List Access} (allowed : ∀ a ∈ accesses, Q a) : Runs g Q accesses (note accesses) := fun _ same =>
  ⟨(), _, accesses, rfl, same, rfl, allowed, List.Subset.refl _⟩

/-- The value that is read goes on. -/
theorem Runs.access_must {a : Access} {f : ℕ → Reader β} (allowed : Q a)
    (rest : Runs g Q must (f (read m (wrap (a.base + a.offset)) a.length))) : Runs g Q (a :: must) (access m a >>= f) := by
  have noted : Runs g Q [a] (note [a]) := .noted fun b member => List.mem_singleton.mp member ▸ allowed
  exact noted.bind fun _ => rest

theorem Runs.access {a : Access} {f : ℕ → Reader β} (allowed : Q a)
    (rest : Runs g Q must (f (read m (wrap (a.base + a.offset)) a.length))) : Runs g Q must (access m a >>= f) :=
  (Runs.access_must allowed rest).weaken (List.subset_cons_self _ _)

theorem Runs.target {p : Pointer} {f : ℕ → Reader β} (rest : Runs g Q must (f (p.target g))) :
    Runs g Q must (target p >>= f) := by
  intro s same
  have got : Readers.target p s = .ok (p.target g) s := by
    rw [← same]
    rfl
  rw [bind_ok got]
  exact rest s same

theorem Runs.field_must {p : Pointer} {offset length : ℕ} {f : ℕ → Reader β}
    (allowed : Q ⟨p, p.target g, .tag, p.target g, offset, length⟩)
    (rest : Runs g Q must (f (read m (wrap (p.target g + offset)) length))) :
    Runs g Q (⟨p, p.target g, .tag, p.target g, offset, length⟩ :: must) (field m p offset length >>= f) := by
  rw [Readers.field, bind_assoc]
  exact .target (.access_must allowed rest)

theorem Runs.field {p : Pointer} {offset length : ℕ} {f : ℕ → Reader β}
    (allowed : Q ⟨p, p.target g, .tag, p.target g, offset, length⟩)
    (rest : Runs g Q must (f (read m (wrap (p.target g + offset)) length))) :
    Runs g Q must (field m p offset length >>= f) :=
  (Runs.field_must allowed rest).weaken (List.subset_cons_self _ _)

theorem Runs.forM {l : List ι} {f : ι → Reader Unit} {must : ι → List Access} (each : ∀ i ∈ l, Runs g Q (must i) (f i)) :
    Runs g Q (l.flatMap must) (l.forM f) := by
  induction l with
  | nil => exact .pure ()
  | cons i l ih =>
    rw [List.forM_eq_forM, List.forM_cons, List.flatMap_cons]
    exact (each i List.mem_cons_self).bind fun _ => ih fun j member => each j (List.mem_cons_of_mem i member)

theorem Runs.foldlM {l : List ι} {f : β → ι → Reader β} {must : ι → List Access}
    (each : ∀ i ∈ l, ∀ b, Runs g Q (must i) (f b i)) (b : β) : Runs g Q (l.flatMap must) (l.foldlM f b) := by
  induction l generalizing b with
  | nil => exact .pure b
  | cons i l ih =>
    rw [List.foldlM_cons, List.flatMap_cons]
    exact (each i List.mem_cons_self b).bind fun b' => ih (fun j member => each j (List.mem_cons_of_mem i member)) b'

theorem Runs.each {l : List ι} {f : ι → Reader Unit} (each : ∀ i ∈ l, Runs g Q [] (f i)) : Runs g Q [] (l.forM f) :=
  (Runs.forM each).weaken (List.nil_subset _)

theorem Runs.fold {l : List ι} {f : β → ι → Reader β} (each : ∀ i ∈ l, ∀ b, Runs g Q [] (f b i)) (b : β) :
    Runs g Q [] (l.foldlM f b) :=
  (Runs.foldlM each b).weaken (List.nil_subset _)

theorem Runs.mapM {l : List ι} {f : ι → Reader β} (each : ∀ i ∈ l, Runs g Q [] (f i)) : Runs g Q [] (l.mapM f) := by
  induction l with
  | nil => exact .pure []
  | cons i l ih =>
    rw [List.mapM_cons]
    refine (each i List.mem_cons_self).bind fun v => ?_
    exact Runs.bind (ih fun j member => each j (List.mem_cons_of_mem i member)) fun vs => .pure _

/-- An action of the walk that keeps the pointers. -/
theorem Runs.walk {act : Walk α} (runs : ∀ w : Tags.State, ∃ v w', act w = .ok v w' ∧ w'.globals = w.globals) :
    Runs g Q [] (walk act) := by
  intro s same
  obtain ⟨v, w', ran, kept⟩ := runs s.walk
  refine ⟨v, ⟨w', s.accesses⟩, [], ?_, kept.trans same, rfl, fun _ member => absurd member List.not_mem_nil, List.nil_subset _⟩
  rw [Readers.walk, ran]

theorem Runs.load (a n : ℕ) : Runs g Q [] (Readers.walk (load m a n)) := .walk fun _ => ⟨_, _, rfl, rfl⟩

end

/-! ### The loop over the tags -/

section
variable {m : Memory} {a : ℕ} {w w' : Tags.State}

theorem walk_ok {α : Type} {act : Walk α} {v : α} (ran : act w = .ok v w') (accesses : List Access) :
    walk act ⟨w, accesses⟩ = .ok v ⟨w', accesses⟩ := by
  rw [walk, ran]

/-- A turn of the walk that ends, with the fields that it reads. -/
theorem turn_of_walk {next : ℕ} (ran : Tags.turn m a w = .ok next w') (accesses : List Access) :
    turn m a ⟨w, accesses⟩ = .ok next ⟨w', switch_accesses m a (tag_type m a) ++ accesses⟩ := by
  obtain ⟨w₁, visits⟩ : ∃ w₁, (modify fun s => { s with visited := a :: s.visited } : Walk Unit) w = .ok () w₁ := ⟨_, rfl⟩
  obtain ⟨w₂, loads⟩ : ∃ w₂, load m a 4 w₁ = .ok (tag_type m a) w₂ := ⟨_, rfl⟩
  rw [Tags.turn, bind_ok visits, bind_ok loads] at ran
  rw [turn, bind_ok (walk_ok visits accesses), bind_ok (walk_ok loads accesses)]
  cases parsed : Tags.parse_tag m a (tag_type m a) w₂ with
  | error fault w₃ =>
    rw [bind_error parsed] at ran
    cases ran
  | ok _ w₃ =>
    rw [bind_ok parsed] at ran
    have noted : parse_tag m a (tag_type m a) ⟨w₂, accesses⟩ = .ok () ⟨w₃, switch_accesses m a (tag_type m a) ++ accesses⟩ := by
      rw [parse_tag, bind_ok (walk_ok parsed accesses)]
      rfl
    rw [bind_ok noted]
    exact walk_ok ran _

/-- The fields that the loop reads are those of the tags that it visits. -/
theorem tag_loop_of_walk {fuel more : ℕ} (le : fuel ≤ more) (ran : Tags.tag_loop m fuel a w = .ok () w') (accesses : List Access) :
    ∃ visited, w'.visited = visited ++ w.visited ∧
      tag_loop m more a ⟨w, accesses⟩ = .ok () ⟨w', (visited.flatMap fun b => switch_accesses m b (tag_type m b)) ++ accesses⟩ := by
  induction fuel generalizing a w accesses more with
  | zero => cases ran
  | succ fuel ih =>
    obtain ⟨more, rfl⟩ : ∃ k, more = k + 1 := ⟨more - 1, by omega⟩
    rw [Tags.tag_loop] at ran
    have parsable : Parsable m a := by
      by_contra unparsable
      obtain ⟨fault, w₁, fails⟩ := turn_fails unparsable w
      rw [bind_error fails] at ran
      cases ran
    obtain ⟨w₁, turns, turned⟩ := turn_run parsable w
    rw [bind_ok turns] at ran
    rw [tag_loop, bind_ok (turn_of_walk turns accesses)]
    by_cases goes : following m a ≠ 0
    · rw [if_pos goes] at ran ⊢
      obtain ⟨visited, all, rest⟩ := ih (Nat.le_of_succ_le_succ le) ran (switch_accesses m a (tag_type m a) ++ accesses)
      refine ⟨visited ++ [a], ?_, ?_⟩
      · rw [all, turned.visited, List.append_assoc]
        rfl
      · rw [rest, List.flatMap_append, List.flatMap_singleton, List.append_assoc]
    · rw [if_neg goes] at ran ⊢
      cases ran
      refine ⟨[a], turned.visited, ?_⟩
      rw [List.flatMap_singleton]
      rfl

end

/-! ### Printing -/

/-- From every address a string ends. -/
def Ended (m : Memory) : Prop := ∀ p < 2 ^ 64, (c_string m (2 ^ 64) p).isSome

def types_format : List Piece :=
  text "Addr: " ++ hexz :: (text " \t Length: " ++ hexz :: (text " \t Type: " ++ hexz :: text "\n"))
def flags_format : List Piece := text "Addr: " ++ hexz :: (text " \t Length: " ++ hexz :: text " \t Flags: ")
def flag_format : List Piece := string :: text " "
def size_format : List Piece := text "Size: " ++ hexz :: (text " " ++ string :: text "\n")
def start_format : List Piece := text "Multiboot addr: " ++ hexz :: (text " \t Total size: " ++ hexz :: text "\n")

theorem types_spells : format types_format = chars "Addr: %#zx \t Length: %#zx \t Type: %#zx\n" := by decide +kernel
theorem flags_spells : format flags_format = chars "Addr: %#zx \t Length: %#zx \t Flags: " := by decide +kernel
theorem flag_spells : format flag_format = chars "%s " := by decide +kernel
theorem size_spells : format size_format = chars "Size: %#zx %s\n" := by decide +kernel
theorem start_spells : format start_format = chars "Multiboot addr: %#zx \t Total size: %#zx\n" := by decide +kernel

section
variable {m : Memory} {g : Globals} {Q : Access → Prop} {str : String} {args : List ℕ} {pieces : List Piece} {p : ℕ}

theorem types_pointers (args : List ℕ) : pointers m args types_format = [] := by
  rw [pointers, types_format, actual_text, actual_hexz, actual_text, actual_hexz, actual_text, actual_hexz,
    actual_text_last]
  rfl

theorem flags_pointers (args : List ℕ) : pointers m args flags_format = [] := by
  rw [pointers, flags_format, actual_text, actual_hexz, actual_text, actual_hexz, actual_text_last]
  rfl

theorem start_pointers (args : List ℕ) : pointers m args start_format = [] := by
  rw [pointers, start_format, actual_text, actual_hexz, actual_text, actual_hexz, actual_text_last]
  rfl

theorem flag_pointers (args : List ℕ) :
    pointers m args flag_format = [wrap (signed 32 ((passing m args).args 0).toNat)] := by
  rw [pointers, flag_format, actual_string, actual_text_last]
  rfl

theorem size_pointers (args : List ℕ) :
    pointers m args size_format = [wrap (signed 32 ((passing m args).args 1).toNat)] := by
  rw [pointers, size_format, actual_text, actual_hexz, actual_text, actual_string, actual_text_last]
  rfl

theorem Runs.plain (spells : format pieces = chars str) (none : pointers m args pieces = []) :
    Runs g Q [] (Readers.walk (printf m str args)) := by
  refine .walk fun w => ?_
  obtain ⟨w', ran, moves⟩ := printf_plain spells none w
  exact ⟨(), w', ran, moves.globals⟩

theorem Runs.string (ended : Ended m) (small : p < 2 ^ 64) (spells : format pieces = chars str)
    (one : pointers m args pieces = [p]) : Runs g Q [] (Readers.walk (printf m str args)) := by
  obtain ⟨found, isString⟩ := Option.isSome_iff_exists.mp (ended p small)
  refine .walk fun w => ?_
  obtain ⟨w', ran, moves⟩ := printf_string spells one isString w
  exact ⟨(), w', ran, moves.globals⟩

/-! ### The readers -/

theorem print_memory_tags_runs (divisible : tag_entry_size m g.maps ≠ 0)
    (fields : ∀ offset, Q ⟨.maps, g.maps, .tag, g.maps, offset, 4⟩)
    (entries : ∀ i : ℕ, (i : ℤ) < num_of_maps (tag_size m g.maps) (tag_entry_size m g.maps) → ∀ offset length,
      offset + length ≤ 24 → Q ⟨.maps, g.maps, .entry i, wrap (g.maps + 4 * 4 + i * 24), offset, length⟩) :
    Runs g Q [] (print_memory_tags m) := by
  refine .field (fields 4) (.field (fields 8) ?_)
  have go : ¬ read m (wrap (Pointer.maps.target g + (8 : ℕ))) 4 = 0 := divisible
  rw [if_neg go]
  refine .target (.each fun i member => ?_)
  have inside := entries i (Int.lt_toNat.mp (List.mem_range.mp member))
  refine .access (inside 0 8 (by decide)) (.access (inside 8 8 (by decide)) ?_)
  exact .access (inside 16 4 (by decide)) (.plain types_spells (types_pointers _))

/-- The loop over the flags of a section. -/
theorem print_sh_flags_runs (ended : Ended m) (ef_sh_flags_str : ℕ → ℕ) {flags : Access} (allowed : Q flags) :
    Runs g Q [] (print_sh_flags m ef_sh_flags_str flags) := by
  refine .each fun i _ => .access allowed ?_
  dsimp only
  split
  · exact .string ended (wrap_lt _) flag_spells (flag_pointers _)
  · exact .pure ()

/-- `symbols->num`, `symbols->entsize` and `symbols->shndx`. -/
def elf_num (m : Memory) (symbols : ℕ) : ℕ := read m (wrap (symbols + 8)) 4
def elf_entsize (m : Memory) (symbols : ℕ) : ℕ := read m (wrap (symbols + 12)) 4
def elf_shndx (m : Memory) (symbols : ℕ) : ℕ := read m (wrap (symbols + 16)) 4

/-- A field of the section header at `i`, where `print_elf_symbols` reads it. -/
def elf_field (m : Memory) (symbols i offset length : ℕ) : Access :=
  ⟨.symbols, symbols, .header i, elf_header symbols i (elf_entsize m symbols), offset, length⟩

theorem print_elf_header_runs (ended : Ended m) (ef_sh_flags_str : ℕ → ℕ) {i shndx : ℕ}
    (fields : ∀ offset, Q ⟨.symbols, g.symbols, .tag, g.symbols, offset, 4⟩)
    (headers : ∀ offset length, offset + length ≤ 64 → Q (elf_field m g.symbols i offset length))
    (strings : Q (elf_field m g.symbols shndx 16 8)) :
    Runs g Q [elf_field m g.symbols shndx 16 8] (print_elf_header m ef_sh_flags_str g.symbols shndx
      (elf_header g.symbols shndx (elf_entsize m g.symbols)) i) := by
  refine .field (fields 12) (.access (headers 16 8 (by decide)) (.access (headers 4 4 (by decide)) ?_))
  refine (Runs.plain flags_spells (flags_pointers _)).next fun _ => ?_
  refine (print_sh_flags_runs ended ef_sh_flags_str (headers 8 8 (by decide))).next fun _ => ?_
  refine .access (headers 32 8 (by decide)) (.access_must strings (.access (headers 0 4 (by decide)) ?_))
  exact .string ended (wrap_lt _) size_spells (size_pointers _)

/-- It reads the tag first, and the header of the string table in each turn. -/
theorem print_elf_symbols_runs (ended : Ended m) (ef_sh_flags_str : ℕ → ℕ)
    (fields : ∀ offset, Q ⟨.symbols, g.symbols, .tag, g.symbols, offset, 4⟩)
    (headers : ∀ i < elf_num m g.symbols, ∀ offset length, offset + length ≤ 64 → Q (elf_field m g.symbols i offset length))
    (strings : 0 < elf_num m g.symbols → Q (elf_field m g.symbols (elf_shndx m g.symbols) 16 8)) :
    Runs g Q (⟨.symbols, g.symbols, .tag, g.symbols, 16, 4⟩ ::
      (List.range (elf_num m g.symbols)).flatMap fun _ => [elf_field m g.symbols (elf_shndx m g.symbols) 16 8])
      (print_elf_symbols m ef_sh_flags_str) := by
  refine .target (.field_must (fields 16) (.field (fields 12) (.field (fields 8) ?_)))
  refine .forM fun i member => ?_
  have less := List.mem_range.mp member
  exact print_elf_header_runs ended ef_sh_flags_str fields (headers i less) (strings (Nat.zero_lt_of_lt less))

/-- What the loops over the memory map read. -/
theorem init_turn_runs {mem_map i : ℕ} (entry : ∀ offset length, offset + length ≤ 24 →
    Q ⟨.memory_map, mem_map, .entry i, memory_maps mem_map i, offset, length⟩) (found : ℕ × ℕ) :
    Runs g Q [] (init_turn m mem_map found i) := by
  refine .access (entry 0 8 (by decide)) ?_
  split
  · refine .access (entry 8 8 (by decide)) ?_
    split
    · exact .access (entry 0 8 (by decide)) (.pure _)
    · exact .pure _
  · exact .pure _

theorem switch_turn_runs {mem_map i : ℕ} (entry : ∀ offset length, offset + length ≤ 24 →
    Q ⟨.memory_map, mem_map, .entry i, memory_maps mem_map i, offset, length⟩) (min_addr : ℕ) (found : ℕ × ℕ) :
    Runs g Q [] (switch_turn m mem_map min_addr found i) := by
  refine .access (entry 0 8 (by decide)) ?_
  split
  · refine .access (entry 8 8 (by decide)) ?_
    split
    · refine .access (entry 0 8 (by decide)) ?_
      split
      · exact .access (entry 0 8 (by decide)) (.pure _)
      · exact .pure _
    · exact .pure _
  · exact .pure _

theorem switch_area_runs {a : Allocator} (current : a.entry_index < a.num_entries)
    (entries : ∀ i < a.num_entries, ∀ offset length, offset + length ≤ 24 →
      Q ⟨.memory_map, a.mem_map, .entry i, memory_maps a.mem_map i, offset, length⟩) :
    Runs g Q [] (switch_area m a) := by
  have entry := entries _ current
  refine .access (entry 0 8 (by decide)) (.access (entry 8 8 (by decide)) ?_)
  refine Runs.next (.fold (fun i member b => ?_) _) fun found => .pure _
  exact switch_turn_runs (entries i (List.mem_range.mp member)) _ b

/-- `allocator.num_entries`. -/
def map_entries (m : Memory) (mem_map : ℕ) : ℕ := wrap (tag_size m mem_map - 4 * 4) / tag_entry_size m mem_map

/-- A section header that is read as an element of `sectionheaders`. -/
def header_field (elf_symbols i offset length : ℕ) : Access :=
  ⟨.elf_symbols, elf_symbols, .header i, sectionheaders elf_symbols i, offset, length⟩

theorem bounds_turn_runs {elf_symbols i : ℕ} (header : Q (header_field elf_symbols i 0 64)) (bounds : ℕ × ℕ) :
    Runs g Q [header_field elf_symbols i 0 64] (bounds_turn m elf_symbols bounds i) := by
  have noted : Runs g Q [header_field elf_symbols i 0 64] (note [header_field elf_symbols i 0 64]) :=
    .noted fun a same => List.mem_singleton.mp same ▸ header
  exact noted.bind fun _ => .pure _

/-- It reads the memory map first, and each section header whole. -/
theorem init_allocator_runs (start : ℕ) (divisible : tag_entry_size m g.memory_map ≠ 0)
    (fields : ∀ offset, Q ⟨.memory_map, g.memory_map, .tag, g.memory_map, offset, 4⟩)
    (num : Q ⟨.elf_symbols, g.elf_symbols, .tag, g.elf_symbols, 8, 4⟩)
    (entries : ∀ i < map_entries m g.memory_map, ∀ offset length, offset + length ≤ 24 →
      Q ⟨.memory_map, g.memory_map, .entry i, memory_maps g.memory_map i, offset, length⟩)
    (headers : ∀ i < elf_num m g.elf_symbols, Q (header_field g.elf_symbols i 0 64)) :
    Runs g Q (⟨.memory_map, g.memory_map, .tag, g.memory_map, 4, 4⟩ ::
      (List.range (elf_num m g.elf_symbols)).flatMap fun i => [header_field g.elf_symbols i 0 64])
      (init_allocator m start) := by
  refine .target (.field_must (fields 4) (.field (fields 8) ?_))
  have go : ¬ read m (wrap (Pointer.memory_map.target g + (8 : ℕ))) 4 = 0 := divisible
  rw [if_neg go]
  refine Runs.next (.fold (fun i member b => ?_) _) fun found => .target (.field num ?_)
  · exact init_turn_runs (entries i (List.mem_range.mp member)) b
  · have bounds : Runs g Q ((List.range (elf_num m g.elf_symbols)).flatMap fun i => [header_field g.elf_symbols i 0 64])
        ((List.range (elf_num m g.elf_symbols)).foldlM (bounds_turn m g.elf_symbols) (UINT64_MAX, 0)) :=
      .foldlM (fun i member b => bounds_turn_runs (headers i (List.mem_range.mp member)) b) _
    exact bounds.ended fun kernel => (Runs.load start 4).bind fun total_size => .pure _

theorem read_sections_runs (num : Q ⟨.elf_symbols, g.elf_symbols, .tag, g.elf_symbols, 8, 4⟩)
    (headers : ∀ i < elf_num m g.elf_symbols, ∀ offset length, offset + length ≤ 64 →
      Q (header_field g.elf_symbols i offset length)) : Runs g Q [] (read_sections m) := by
  refine .target (.field num (.mapM fun i member => ?_))
  have header := headers i (List.mem_range.mp member)
  refine .access (header 8 8 (by decide)) ?_
  split
  · refine .access (header 16 8 (by decide)) (.access (header 16 8 (by decide)) (.access (header 32 8 (by decide)) ?_))
    exact .access (header 8 8 (by decide)) (.access (header 8 8 (by decide)) (.pure _))
  · exact .pure _

end
end OsC.Readers
