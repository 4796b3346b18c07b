import OsC.Readers

/-!
The entries that the readers of a tag use. A memory map states the size of its
entries and ELF symbols that of their section headers; the readers count by the
stated size, but all of them step through the memory map by the size of the C
structure, and so do two of the three through the section headers. They use the
entries of the tag exactly if the sizes agree or there is no second entry
(`same_entries_iff`).
-/
namespace OsC.Entries
open OsC.Bytes OsC.Word OsC.Multiboot OsC.Tags OsC.Layout OsC.Readers
open OsC.Printf (int)

/-- A memory map of `count` entries of any size that the format allows. -/
structure MapTag (m : Memory) (maps count : ℕ) : Prop where
  type : tag_type m maps = multiboot_memory_map_tag
  least : 24 ≤ tag_entry_size m maps
  multiple : tag_entry_size m maps % 8 = 0
  size : tag_size m maps = 16 + count * tag_entry_size m maps
  fits : maps + tag_size m maps ≤ 2 ^ 64

/-- ELF symbols with section headers of any size from 64 bytes on. -/
structure ElfTag (m : Memory) (symbols : ℕ) : Prop where
  type : tag_type m symbols = multiboot_elf_symbols_tag
  least : 64 ≤ elf_entsize m symbols
  size : tag_size m symbols = 20 + elf_num m symbols * elf_entsize m symbols
  fits : symbols + tag_size m symbols ≤ 2 ^ 64

/-- A read of an entry or a section header is in the place that the tag gives it, and before the end of the tag. -/
def Right (m : Memory) (maps symbols : ℕ) (a : Access) : Prop :=
  match a.part with
  | .tag => True
  | .entry i => a.base = maps + 16 + i * tag_entry_size m maps ∧ a.base + a.offset + a.length ≤ maps + tag_size m maps
  | .header i => a.base = symbols + 20 + i * elf_entsize m symbols ∧
      a.base + a.offset + a.length ≤ symbols + tag_size m symbols

/-- All pointers to tags of these types point to the two. -/
structure Pointing (g : Globals) (map elf : ℕ) : Prop where
  maps : g.maps = map
  memory_map : g.memory_map = map
  symbols : g.symbols = elf
  elf_symbols : g.elf_symbols = elf

/-- All reads of a function are right. -/
def Sees {α : Type} (m : Memory) (maps symbols : ℕ) (x : Reader α) : Prop :=
  ∀ s, Pointing s.walk.globals maps symbols → s.accesses = [] → ∀ a ∈ (after (x s)).accesses, Right m maps symbols a

/-- All readers use the entries of the tags. -/
structure SameEntries (m : Memory) (maps symbols : ℕ) : Prop where
  parse_multiboot_data : Sees m maps symbols (Readers.parse_tag m maps multiboot_memory_map_tag)
  print_memory_tags : Sees m maps symbols (print_memory_tags m)
  print_elf_symbols : ∀ ef_sh_flags_str, Sees m maps symbols (print_elf_symbols m ef_sh_flags_str)
  init_allocator : ∀ start, Sees m maps symbols (init_allocator m start)
  switch_area : ∀ a : Allocator, a.mem_map = maps → a.num_entries = map_entries m maps → a.entry_index < a.num_entries →
    Sees m maps symbols (switch_area m a)
  remap_kernel : Sees m maps symbols (read_sections m)

section
variable {α : Type} {m : Memory} {maps symbols count i offset length : ℕ} {g : Globals} {x : Reader α} {must : List Access}
  {p : Pointer}

/-! ### Tags -/

theorem ended_of_type {type a : ℕ} (typed : tag_type m a = type) (small : type < 256) (fits : a + 1 < 2 ^ 64) : Ended m := by
  have bytes : (m a).toNat + 256 * ((m (a + 1)).toNat + 256 * Bytes.read m (a + 1 + 1) 2) = type := typed
  have zero : m (a + 1) = 0 := UInt8.toNat_inj.mp (by show (m (a + 1)).toNat = 0; omega)
  exact fun p less => c_string_some zero fits less

theorem MapTag.counts (map : MapTag m maps count) :
    num_of_maps (tag_size m maps) (tag_entry_size m maps) = count ∧ map_entries m maps = count := by
  have small : tag_size m maps < 2 ^ 32 := read_lt m 4 _
  have least := map.least
  have many : count * 24 ≤ count * tag_entry_size m maps := Nat.mul_le_mul_left count least
  have size := map.size
  have rest : wrap ((tag_size m maps : ℤ) - 16) = count * tag_entry_size m maps := wrap_eq (by omega) (by omega)
  have divided : count * tag_entry_size m maps / tag_entry_size m maps = count := Nat.mul_div_cancel _ (by omega)
  constructor
  · rw [num_of_maps, rest, divided]
    exact Int.bmod_eq_of_le (by omega) (by omega)
  · have same : ((tag_size m maps : ℤ) - 4 * 4) = (tag_size m maps : ℤ) - 16 := rfl
    rw [map_entries, same, rest, divided]

theorem MapTag.divisible (map : MapTag m maps count) : tag_entry_size m maps ≠ 0 := by
  have := map.least
  omega

theorem MapTag.ended (map : MapTag m maps count) : Ended m :=
  ended_of_type map.type (by decide) (by have := map.fits; have := map.size; omega)

/-! ### Reads that are right -/

/-- An entry is before the end of all. -/
theorem entry_le {width : ℕ} (less : i < count) : i * width + width ≤ count * width :=
  (Nat.succ_mul i width).symm.le.trans (Nat.mul_le_mul_right width less)

/-- Steps of another width lead to the same entry if there is only one. -/
theorem same_step {width stride : ℕ} (agree : stride = width ∨ count ≤ 1) (less : i < count) : i * width = i * stride := by
  rcases agree with same | few
  · rw [same]
  · have first : i = 0 := by omega
    rw [first, Nat.zero_mul, Nat.zero_mul]

/-- An entry in steps of 24 bytes is that of the tag if its entries have 24 bytes, or if it is the first. -/
theorem MapTag.right (map : MapTag m maps count) (agree : tag_entry_size m maps = 24 ∨ count ≤ 1) (less : i < count)
    (inside : offset + length ≤ 24) : Right m maps symbols ⟨p, maps, .entry i, memory_maps maps i, offset, length⟩ := by
  have least := map.least
  have size := map.size
  have fits := map.fits
  have room : i * tag_entry_size m maps + tag_entry_size m maps ≤ count * tag_entry_size m maps := entry_le less
  have place : i * 24 = i * tag_entry_size m maps := same_step agree less
  have base : memory_maps maps i = maps + 16 + i * tag_entry_size m maps := wrap_eq (by omega) (by omega)
  refine ⟨base, ?_⟩
  simp only [base]
  omega

theorem ElfTag.right (elf : ElfTag m symbols) (agree : elf_entsize m symbols = 64 ∨ elf_num m symbols ≤ 1)
    (less : i < elf_num m symbols) (inside : offset + length ≤ 64) :
    Right m maps symbols (header_field symbols i offset length) := by
  have least := elf.least
  have size := elf.size
  have fits := elf.fits
  have room : i * elf_entsize m symbols + elf_entsize m symbols ≤ elf_num m symbols * elf_entsize m symbols := entry_le less
  have place : i * 64 = i * elf_entsize m symbols := same_step agree less
  have base : sectionheaders symbols i = symbols + 20 + i * elf_entsize m symbols := wrap_eq (by omega) (by omega)
  refine ⟨base, ?_⟩
  simp only [header_field, base]
  omega

/-- `print_elf_symbols` steps by the size that the tag states. -/
theorem ElfTag.right_stated (elf : ElfTag m symbols) (less : i < elf_num m symbols) (inside : offset + length ≤ 64) :
    Right m maps symbols (elf_field m symbols i offset length) := by
  have least := elf.least
  have size := elf.size
  have fits := elf.fits
  have small : tag_size m symbols < 2 ^ 32 := read_lt m 4 _
  have room : i * elf_entsize m symbols + elf_entsize m symbols ≤ elf_num m symbols * elf_entsize m symbols := entry_le less
  have product : i * elf_entsize m symbols % 2 ^ 32 = i * elf_entsize m symbols := Nat.mod_eq_of_lt (by omega)
  have base : elf_header symbols i (elf_entsize m symbols) = symbols + 20 + i * elf_entsize m symbols := by
    rw [elf_header, product]
    exact wrap_eq (by omega) (by omega)
  refine ⟨base, ?_⟩
  simp only [elf_field, base]
  omega

/-! ### The readers -/

theorem Sees.of_runs (runs : ∀ g, Pointing g maps symbols → Runs g (Right m maps symbols) [] x) : Sees m maps symbols x := by
  intro s pointing fresh a member
  obtain ⟨v, s', new, ran, _, grown, all, _⟩ := runs _ pointing s rfl
  rw [ran] at member
  rw [after, grown, fresh, List.append_nil] at member
  exact all a member

/-- The pointers to the two tags. -/
def pointers_to (maps symbols : ℕ) : Globals := ⟨0, 0, 0, 0, symbols, maps, maps, symbols⟩

/-- A state that begins with them. -/
def start_state (maps symbols : ℕ) : Readers.State := ⟨{ unvisited with globals := pointers_to maps symbols }, []⟩

theorem Sees.start (sees : Sees m maps symbols x) : ∀ a ∈ (after (x (start_state maps symbols))).accesses, Right m maps symbols a :=
  sees (start_state maps symbols) ⟨rfl, rfl, rfl, rfl⟩ rfl

theorem Sees.required (sees : Sees m maps symbols x) (runs : Runs (pointers_to maps symbols) (fun _ => True) must x) :
    ∀ a ∈ must, Right m maps symbols a := by
  obtain ⟨v, s', new, ran, _, grown, _, among⟩ := runs (start_state maps symbols) rfl
  intro a member
  refine sees.start a ?_
  rw [ran, after, grown]
  exact List.mem_append_left _ (among member)

theorem parse_tag_runs {type : ℕ} (typed : tag_type m maps = type) (parsable : Parsable m maps) (s : Readers.State) :
    ∃ w', Readers.parse_tag m maps type s = .ok () ⟨w', switch_accesses m maps type ++ s.accesses⟩ := by
  obtain ⟨w', ran, _⟩ := parse_tag_run parsable s.walk
  rw [typed] at ran
  refine ⟨w', ?_⟩
  have walked : walk (Tags.parse_tag m maps type) s = .ok () ⟨w', s.accesses⟩ := by rw [walk, ran]
  rw [Readers.parse_tag, Loop.bind_ok walked]
  rfl

/-- What the switch reads of a memory map. -/
theorem MapTag.switch_accesses (map : MapTag m maps count) : Readers.switch_accesses m maps multiboot_memory_map_tag =
    ((List.range count).map fun i => (⟨.maps, maps, .entry i, memory_maps maps i, 0, 24⟩ : Access)).reverse ++
      [⟨.maps, maps, .tag, maps, 8, 4⟩, ⟨.maps, maps, .tag, maps, 4, 4⟩] := by
  rw [Readers.switch_accesses, if_neg (by decide), if_pos rfl, map.counts.1, Int.toNat_natCast]

theorem MapTag.parsable (map : MapTag m maps count) : Parsable m maps := by
  refine ⟨fun name => ?_, fun command => ?_, fun _ => map.divisible⟩
  · rw [map.type] at name
    cases name
  · rw [map.type] at command
    cases command

theorem MapTag.parse_sees (map : MapTag m maps count) (agree : tag_entry_size m maps = 24 ∨ count ≤ 1) :
    Sees m maps symbols (Readers.parse_tag m maps multiboot_memory_map_tag) := by
  intro s _ fresh a member
  obtain ⟨w', ran⟩ := parse_tag_runs map.type map.parsable s
  rw [ran, after, fresh, List.append_nil, map.switch_accesses, List.mem_append, List.mem_reverse, List.mem_map] at member
  rcases member with ⟨i, less, rfl⟩ | fields
  · exact map.right agree (List.mem_range.mp less) (by decide)
  · simp only [List.mem_cons, List.not_mem_nil, or_false] at fields
    rcases fields with rfl | rfl
    · trivial
    · trivial

theorem parse_required (map : MapTag m maps count) (sees : Sees m maps symbols (Readers.parse_tag m maps multiboot_memory_map_tag))
    (less : i < count) : Right m maps symbols ⟨.maps, maps, .entry i, memory_maps maps i, 0, 24⟩ := by
  obtain ⟨w', ran⟩ := parse_tag_runs map.type map.parsable (start_state maps symbols)
  refine sees.start _ ?_
  rw [ran, after, map.switch_accesses]
  simp only [List.mem_append, List.mem_reverse, List.mem_map]
  exact .inl (.inl ⟨i, List.mem_range.mpr less, rfl⟩)

/-- With entries of the sizes of the C structures, or none behind the first, all reads are right. -/
theorem same_entries (map : MapTag m maps count) (elf : ElfTag m symbols)
    (entries : tag_entry_size m maps = 24 ∨ count ≤ 1) (headers : elf_entsize m symbols = 64 ∨ elf_num m symbols ≤ 1)
    (strings : elf_num m symbols = 0 ∨ elf_shndx m symbols < elf_num m symbols) : SameEntries m maps symbols := by
  have counts := map.counts
  have right : ∀ p, ∀ i < count, ∀ offset length, offset + length ≤ 24 →
      Right m maps symbols ⟨p, maps, .entry i, memory_maps maps i, offset, length⟩ :=
    fun p i less offset length inside => map.right entries less inside
  refine ⟨map.parse_sees entries, .of_runs fun g pointing => ?_, fun strs => .of_runs fun g pointing => ?_,
    fun start => .of_runs fun g pointing => ?_, fun a isMap isCount current => .of_runs fun g pointing => ?_,
    .of_runs fun g pointing => ?_⟩
  · refine print_memory_tags_runs ?_ (fun offset => trivial) fun i less offset length inside => ?_
    · rw [pointing.maps]
      exact map.divisible
    · rw [pointing.maps, counts.1] at less
      have place : wrap (maps + 4 * 4 + i * 24) = memory_maps maps i := by
        rw [memory_maps]
        congr 1
        omega
      rw [pointing.maps, place]
      exact right .maps i (by omega) offset length inside
  · refine (print_elf_symbols_runs map.ended strs (fun offset => trivial) ?_ ?_).weaken (List.nil_subset _)
    · rw [pointing.symbols]
      exact fun i less offset length inside => elf.right_stated less inside
    · rw [pointing.symbols]
      exact fun some => elf.right_stated (by omega) (by decide)
  · refine (init_allocator_runs start ?_ (fun offset => trivial) trivial ?_ ?_).weaken (List.nil_subset _)
    · rw [pointing.memory_map]
      exact map.divisible
    · rw [pointing.memory_map, counts.2]
      exact right .memory_map
    · rw [pointing.elf_symbols]
      exact fun i less => elf.right headers less (by decide)
  · refine switch_area_runs current ?_
    rw [isCount, counts.2, isMap]
    exact right .memory_map
  · refine read_sections_runs trivial ?_
    rw [pointing.elf_symbols]
    exact fun i less offset length inside => elf.right headers less inside

/-- Entries of another size differ from the second on. -/
theorem MapTag.agrees (map : MapTag m maps count) (same : SameEntries m maps symbols) :
    tag_entry_size m maps = 24 ∨ count ≤ 1 := by
  by_contra other
  have second := (parse_required map same.parse_multiboot_data (i := 1) (by omega)).1
  have fits := map.fits
  have size := map.size
  have least := map.least
  have many : 1 * tag_entry_size m maps + tag_entry_size m maps ≤ count * tag_entry_size m maps := entry_le (by omega)
  have base : memory_maps maps 1 = maps + 40 := wrap_eq (by push_cast; ring) (by omega)
  simp only [base] at second
  omega

theorem ElfTag.agrees (elf : ElfTag m symbols) (divisible : tag_entry_size m maps ≠ 0) (same : SameEntries m maps symbols) :
    elf_entsize m symbols = 64 ∨ elf_num m symbols ≤ 1 := by
  by_contra other
  have runs := init_allocator_runs (m := m) (g := pointers_to maps symbols) (Q := fun _ => True) 0 divisible
    (fun _ => trivial) trivial (fun _ _ _ _ _ => trivial) fun _ _ => trivial
  have required := (same.init_allocator 0).required runs (header_field symbols 1 0 64)
    (List.mem_cons_of_mem _ (List.mem_flatMap.mpr ⟨1, List.mem_range.mpr (by show 1 < elf_num m symbols; omega), by
      simp [pointers_to]⟩))
  have second := required.1
  have fits := elf.fits
  have size := elf.size
  have least := elf.least
  have many : 1 * elf_entsize m symbols + elf_entsize m symbols ≤ elf_num m symbols * elf_entsize m symbols :=
    entry_le (by omega)
  have base : sectionheaders symbols 1 = symbols + 84 := wrap_eq (by push_cast; ring) (by omega)
  simp only [header_field, base] at second
  omega

/-- A string table that is none of the sections would lie behind them. -/
theorem ElfTag.strings (elf : ElfTag m symbols) (ended : Ended m) (same : SameEntries m maps symbols) :
    elf_num m symbols = 0 ∨ elf_shndx m symbols < elf_num m symbols := by
  by_contra other
  have runs := print_elf_symbols_runs (g := pointers_to maps symbols) (Q := fun _ => True) ended (fun _ => 0)
    (fun _ => trivial) (fun _ _ _ _ _ => trivial) fun _ => trivial
  have required := (same.print_elf_symbols fun _ => 0).required runs (elf_field m symbols (elf_shndx m symbols) 16 8)
    (List.mem_cons_of_mem _ (List.mem_flatMap.mpr ⟨0, List.mem_range.mpr (by show 0 < elf_num m symbols; omega), by
      simp [pointers_to]⟩))
  obtain ⟨base, last⟩ := required
  have size := elf.size
  have past : elf_num m symbols * elf_entsize m symbols ≤ elf_shndx m symbols * elf_entsize m symbols :=
    Nat.mul_le_mul_right _ (by omega)
  simp only [elf_field] at base last
  omega

/-- For all tags of these types the readers use the same entries exactly if the sizes of the entries and of the section
    headers are those of the C structures, or there is at most one, and if the string table is one of the sections. -/
theorem same_entries_iff (map : MapTag m maps count) (elf : ElfTag m symbols) : SameEntries m maps symbols ↔
    (tag_entry_size m maps = 24 ∨ count ≤ 1) ∧ (elf_entsize m symbols = 64 ∨ elf_num m symbols ≤ 1) ∧
      (elf_num m symbols = 0 ∨ elf_shndx m symbols < elf_num m symbols) := by
  constructor
  · intro same
    exact ⟨map.agrees same, elf.agrees map.divisible same, elf.strings map.ended same⟩
  · rintro ⟨entries, headers, strings⟩
    exact same_entries map elf entries headers strings

end

/-- Two entries of 32 bytes at 0x1000, and two section headers of 72 bytes behind them, the second of them the string table. -/
def wide_tags : Memory := fun a =>
  (little 4 multiboot_memory_map_tag ++ little 4 80 ++ little 4 32 ++ little 4 0 ++ List.replicate 64 0 ++
    little 4 multiboot_elf_symbols_tag ++ little 4 164 ++ little 4 2 ++ little 4 72 ++ little 4 1).getD (a - 0x1000) 0

theorem wide_map : MapTag wide_tags 0x1000 2 :=
  ⟨by decide +kernel, by decide +kernel, by decide +kernel, by decide +kernel, by decide +kernel⟩

theorem wide_elf : ElfTag wide_tags 0x1050 :=
  ⟨by decide +kernel, by decide +kernel, by decide +kernel, by decide +kernel⟩

theorem same_entries_iff_wide : SameEntries wide_tags 0x1000 0x1050 ↔
    (tag_entry_size wide_tags 0x1000 = 24 ∨ 2 ≤ 1) ∧
      (elf_entsize wide_tags 0x1050 = 64 ∨ elf_num wide_tags 0x1050 ≤ 1) ∧
      (elf_num wide_tags 0x1050 = 0 ∨ elf_shndx wide_tags 0x1050 < elf_num wide_tags 0x1050) :=
  same_entries_iff wide_map wide_elf

/-- The second entry is read at 0x1028, where the tag has it at 0x1030. -/
theorem wide_entries_differ : MapTag wide_tags 0x1000 2 ∧ ElfTag wide_tags 0x1050 ∧ ¬ SameEntries wide_tags 0x1000 0x1050 := by
  refine ⟨wide_map, wide_elf, fun same => ?_⟩
  have second := (parse_required wide_map same.parse_multiboot_data (i := 1) (by decide)).1
  exact absurd second (by decide +kernel)

end OsC.Entries
