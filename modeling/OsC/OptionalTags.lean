import OsC.Readers

/-!
The pointers to tags at the start of the kernel. The walk of the block sets a
pointer only for a tag that is there, while `print_elf_symbols` and
`init_allocator` read through theirs without a check. The start reads only
through pointers that a tag has set exactly if the block holds ELF symbols and a
memory map (`reads_set_iff`).
-/
namespace OsC.OptionalTags
open OsC.Bytes OsC.Word OsC.Loop OsC.Tags OsC.Layout OsC.Readers

/-- The start of the kernel up to the frame allocator. -/
def start_up (m : Memory) (ef_sh_flags_str : ℕ → ℕ) (fuel pmultiboot : ℕ) : Reader Allocator := do
  init_multiboot_data m ef_sh_flags_str fuel pmultiboot
  init_allocator m pmultiboot

/-- The type of the tags that set a pointer. -/
def set_by : Pointer → ℕ
  | .info => multiboot_memory_info_tag
  | .name => multiboot_boot_load_name_tag
  | .device => multiboot_bios_boot_device_tag
  | .command_line => multiboot_boot_command_line_tag
  | .symbols => multiboot_elf_symbols_tag
  | .maps => multiboot_memory_map_tag
  | .memory_map => multiboot_memory_map_tag
  | .elf_symbols => multiboot_elf_symbols_tag

/-- A read goes through a pointer that holds the address of a tag of the block of its type. -/
def FromTag (start : ℕ) (tags : List Tag) (a : Access) : Prop :=
  ∃ tag, (a.target, tag) ∈ placed (start + 8) tags ∧ tag.type = set_by a.pointer

/-- No pointer is set before the start. -/
def unset : Globals := ⟨0, 0, 0, 0, 0, 0, 0, 0⟩

/-- The start reads only through pointers that a tag has set. -/
def ReadsSet (m : Memory) (start : ℕ) (tags : List Tag) : Prop :=
  ∀ (ef_sh_flags_str : ℕ → ℕ) (fuel : ℕ) (s : Readers.State), tags.length < fuel → s.walk.globals = unset → s.accesses = [] →
    ∀ a ∈ (after (start_up m ef_sh_flags_str fuel start s)).accesses, FromTag start tags a

section
variable {m : Memory} {a start : ℕ} {tag : Tag} {tags : List Tag} {s : Readers.State} {g : Globals}

/-! ### The tags of a block -/

theorem placed_ge (a : ℕ) (tags : List Tag) : ∀ p ∈ placed a tags, a ≤ p.1 := by
  induction tags generalizing a with
  | nil => exact fun p member => absurd member List.not_mem_nil
  | cons tag tags ih =>
    intro p member
    rcases List.mem_cons.mp member with rfl | member
    · exact le_refl a
    · exact le_trans (Nat.le_add_right a _) (ih _ p member)

theorem placed_mem (a : ℕ) (tags : List Tag) : (placed a tags).map (·.2) = tags := by
  induction tags generalizing a with
  | nil => rfl
  | cons tag tags ih => rw [placed, List.map_cons, ih]

/-- The walk reads the type and the entry size of each tag. -/
theorem placed_fields (laid : LaidTags m a tags) (fits : a + extent tags ≤ 2 ^ 64) : ∀ p ∈ placed a tags,
    tag_type m p.1 = p.2.type ∧ (p.2.type = multiboot_memory_map_tag → tag_entry_size m p.1 ≠ 0) := by
  induction tags generalizing a with
  | nil => exact fun p member => absurd member List.not_mem_nil
  | cons tag tags ih =>
    have whole : a + tag.padded + extent tags ≤ 2 ^ 64 := by rw [Nat.add_assoc]; exact fits
    have rest := extent_pos tags
    intro p member
    rcases List.mem_cons.mp member with rfl | member
    · obtain ⟨type, _, entry_size⟩ := laid_fields laid.1 (by omega)
      refine ⟨type, fun map => ?_⟩
      rw [entry_size map]
      exact (tag.counts map).2
    · exact ih laid.2 whole p member

theorem last_of_some {type b : ℕ} (last : last_of type a tags = some b) :
    ∃ tag, (b, tag) ∈ placed a tags ∧ tag.type = type := by
  obtain ⟨p, isLast, rfl⟩ := Option.map_eq_some_iff.mp last
  obtain ⟨member, same⟩ := List.mem_filter.mp (List.mem_of_getLast? isLast)
  exact ⟨p.2, member, of_decide_eq_true same⟩

theorem last_of_none {type : ℕ} : last_of type a tags = none ↔ ∀ tag ∈ tags, tag.type ≠ type := by
  have all : (∀ tag ∈ tags, tag.type ≠ type) ↔ ∀ p ∈ placed a tags, p.2.type ≠ type := by
    conv_lhs => rw [← placed_mem a tags]
    exact List.forall_mem_map
  rw [last_of, Option.map_eq_none_iff, List.getLast?_eq_none_iff, List.filter_eq_nil_iff, all]
  simp

theorem parsed_symbols (t b : ℕ) (g : Globals) :
    (parsed t b g).symbols = if t = multiboot_elf_symbols_tag then b else g.symbols := by
  unfold parsed
  split_ifs with info name device command elf map <;> simp_all [multiboot_memory_map_tag, multiboot_memory_info_tag,
    multiboot_boot_load_name_tag, multiboot_bios_boot_device_tag, multiboot_boot_command_line_tag, multiboot_elf_symbols_tag]

/-- The pointers that the functions behind the walk read through. -/
theorem pointers_left (a : ℕ) (tags : List Tag) :
    (set_all a tags unset).symbols = (last_of multiboot_elf_symbols_tag a tags).getD 0 ∧
    (set_all a tags unset).elf_symbols = (last_of multiboot_elf_symbols_tag a tags).getD 0 ∧
    (set_all a tags unset).memory_map = (last_of multiboot_memory_map_tag a tags).getD 0 :=
  ⟨set_all_last parsed_symbols a tags unset, set_all_last parsed_elf_symbols a tags unset,
    set_all_last parsed_memory_map a tags unset⟩

/-! ### The walk -/

theorem switch_from_tag {b : ℕ} (visited : b ∈ (placed (start + 8) tags).map (·.1) ++ [end_address (start + 8) tags])
    (laid : LaidTags m (start + 8) tags) (fits : start + 8 + extent tags ≤ 2 ^ 64) :
    ∀ a ∈ switch_accesses m b (tag_type m b), FromTag start tags a := by
  intro a member
  rcases List.mem_append.mp visited with inside | last
  · obtain ⟨⟨b, tag⟩, placed, rfl⟩ := List.mem_map.mp inside
    have type := (placed_fields laid fits _ placed).1
    simp only [type] at member
    unfold switch_accesses at member
    split at member
    · rename_i info
      simp only [List.mem_cons, List.not_mem_nil, or_false] at member
      rcases member with rfl | rfl
      · exact ⟨tag, placed, info⟩
      · exact ⟨tag, placed, info⟩
    · split at member
      · rename_i map
        rcases List.mem_append.mp member with entry | field
        · obtain ⟨i, _, rfl⟩ := List.mem_map.mp (List.mem_reverse.mp entry)
          exact ⟨tag, placed, map⟩
        · simp only [List.mem_cons, List.not_mem_nil, or_false] at field
          rcases field with rfl | rfl
          · exact ⟨tag, placed, map⟩
          · exact ⟨tag, placed, map⟩
      · cases member
  · rw [List.mem_singleton.mp last, (laid_zero laid).2] at member
    cases member

/-- Up to the end of the walk all reads go through pointers that a tag has set. -/
theorem start_up_walks (aligned : start % 8 = 0) (laid : LaidTags m (start + 8) tags) (fits : start + 8 + extent tags ≤ 2 ^ 64)
    (ef_sh_flags_str : ℕ → ℕ) {fuel : ℕ} (enough : tags.length < fuel) (s : Readers.State) (fresh : s.accesses = []) :
    ∃ s₁, start_up m ef_sh_flags_str fuel start s = (print_elf_symbols m ef_sh_flags_str >>= fun _ => init_allocator m start) s₁ ∧
      s₁.walk.globals = set_all (start + 8) tags s.walk.globals ∧ ∀ a ∈ s₁.accesses, FromTag start tags a := by
  have bound := end_address_bound (start + 8) tags
  have positive := extent_pos tags
  obtain ⟨total_size, s₁, new₁, loads, kept₁, grown₁, all₁, _⟩ := Runs.load (Q := FromTag start tags) (m := m) start 4 s rfl
  obtain ⟨_, s₂, new₂, prints, kept₂, grown₂, all₂, _⟩ :=
    Runs.plain (Q := FromTag start tags) (m := m) start_spells (start_pointers [start, total_size]) s₁ rfl
  obtain ⟨w', ran, visited, globals⟩ := tag_loop_laid laid (by omega) fits (laid_zero laid).1 (by omega) s₂.walk
  obtain ⟨seen, allSeen, loops⟩ := tag_loop_of_walk (Nat.succ_le_of_lt enough) ran s₂.accesses
  have same : seen = ((placed (start + 8) tags).map (·.1) ++ [end_address (start + 8) tags]).reverse :=
    List.append_cancel_right (allSeen.symm.trans visited)
  have first : first_tag start = start + 8 := wrap_eq (by push_cast; rfl) (by omega)
  refine ⟨⟨w', (seen.flatMap fun b => switch_accesses m b (tag_type m b)) ++ s₂.accesses⟩, ?_,
    globals.trans (by rw [kept₂, kept₁]), ?_⟩
  · rw [start_up, init_multiboot_data, bind_assoc, bind_ok loads, bind_assoc, bind_ok prints, parse_multiboot_data, bind_assoc,
      first, bind_ok loops]
  · intro a member
    rcases List.mem_append.mp member with walked | early
    · obtain ⟨b, isSeen, inside⟩ := List.mem_flatMap.mp walked
      rw [same, List.mem_reverse] at isSeen
      exact switch_from_tag isSeen laid fits a inside
    · rw [grown₂, grown₁, fresh, List.append_nil] at early
      rcases List.mem_append.mp early with second | first
      · exact all₂ a second
      · exact all₁ a first

/-! ### The functions behind the walk -/

theorem init_allocator_division (zero : tag_entry_size m g.memory_map = 0) (pointing : s.walk.globals = g) :
    init_allocator m start s = .error .division ⟨s.walk, [⟨.memory_map, g.memory_map, .tag, g.memory_map, 8, 4⟩,
      ⟨.memory_map, g.memory_map, .tag, g.memory_map, 4, 4⟩] ++ s.accesses⟩ := by
  subst pointing
  have stop : Bytes.read m (wrap ((s.walk.globals.memory_map : ℕ) + (8 : ℕ))) 4 = 0 := zero
  have size : field m .memory_map 4 4 s = .ok (Bytes.read m (wrap ((s.walk.globals.memory_map : ℕ) + (4 : ℕ))) 4)
      ⟨s.walk, ⟨.memory_map, s.walk.globals.memory_map, .tag, s.walk.globals.memory_map, 4, 4⟩ :: s.accesses⟩ := rfl
  have entry_size : ∀ accesses, field m .memory_map 8 4 ⟨s.walk, accesses⟩ =
      .ok (Bytes.read m (wrap ((s.walk.globals.memory_map : ℕ) + (8 : ℕ))) 4)
        ⟨s.walk, ⟨.memory_map, s.walk.globals.memory_map, .tag, s.walk.globals.memory_map, 8, 4⟩ :: accesses⟩ := fun _ => rfl
  have pointer : target .memory_map s = .ok s.walk.globals.memory_map s := rfl
  rw [init_allocator, bind_ok pointer, bind_ok size, bind_ok (entry_size _), if_pos stop]
  rfl

/-- `init_allocator` reads the memory map, wherever its pointer points. -/
theorem init_allocator_reads (start : ℕ) (pointing : s.walk.globals = g) :
    s.accesses ⊆ (after (init_allocator m start s)).accesses ∧
      (⟨.memory_map, g.memory_map, .tag, g.memory_map, 4, 4⟩ : Access) ∈ (after (init_allocator m start s)).accesses := by
  by_cases zero : tag_entry_size m g.memory_map = 0
  · rw [init_allocator_division zero pointing, after]
    exact ⟨List.subset_append_right _ _, by simp⟩
  · obtain ⟨v, s', new, ran, _, grown, _, among⟩ := init_allocator_runs (Q := fun _ => True) start zero (fun _ => trivial) trivial
      (fun _ _ _ _ _ => trivial) (fun _ _ => trivial) s pointing
    rw [ran, after, grown]
    exact ⟨List.subset_append_right _ _, List.mem_append_left _ (among List.mem_cons_self)⟩

/-- Both functions behind the walk read through their pointers, whatever these hold. -/
theorem start_up_reads (ended : Ended m) (ef_sh_flags_str : ℕ → ℕ) (start : ℕ) (pointing : s.walk.globals = g) :
    ∀ a ∈ [(⟨.symbols, g.symbols, .tag, g.symbols, 16, 4⟩ : Access), ⟨.memory_map, g.memory_map, .tag, g.memory_map, 4, 4⟩],
      a ∈ (after ((print_elf_symbols m ef_sh_flags_str >>= fun _ => init_allocator m start) s)).accesses := by
  obtain ⟨v, s₁, new, ran, kept, grown, _, among⟩ := print_elf_symbols_runs (Q := fun _ => True) ended ef_sh_flags_str
    (fun _ => trivial) (fun _ _ _ _ _ => trivial) (fun _ => trivial) s pointing
  obtain ⟨before, map⟩ := init_allocator_reads (m := m) start kept
  rw [bind_ok ran]
  intro a member
  simp only [List.mem_cons, List.not_mem_nil, or_false] at member
  rcases member with rfl | rfl
  · refine before ?_
    rw [grown]
    exact List.mem_append_left _ (among List.mem_cons_self)
  · exact map

/-- With both tags, they read through set pointers only. -/
theorem start_up_set {elf map : ℕ} (ended : Ended m) (ef_sh_flags_str : ℕ → ℕ) (start : ℕ)
    (isElf : ∃ tag, (elf, tag) ∈ placed (start + 8) tags ∧ tag.type = multiboot_elf_symbols_tag)
    (isMap : ∃ tag, (map, tag) ∈ placed (start + 8) tags ∧ tag.type = multiboot_memory_map_tag)
    (symbols : g.symbols = elf) (elf_symbols : g.elf_symbols = elf) (memory_map : g.memory_map = map)
    (divisible : tag_entry_size m map ≠ 0) :
    Runs g (FromTag start tags) [] (print_elf_symbols m ef_sh_flags_str >>= fun _ => init_allocator m start) := by
  have fromSymbols : ∀ part base offset length, FromTag start tags ⟨.symbols, g.symbols, part, base, offset, length⟩ :=
    fun _ _ _ _ => symbols ▸ isElf
  have fromElf : ∀ part base offset length, FromTag start tags ⟨.elf_symbols, g.elf_symbols, part, base, offset, length⟩ :=
    fun _ _ _ _ => elf_symbols ▸ isElf
  have fromMap : ∀ part base offset length, FromTag start tags ⟨.memory_map, g.memory_map, part, base, offset, length⟩ :=
    fun _ _ _ _ => memory_map ▸ isMap
  have prints : Runs g (FromTag start tags) [] (print_elf_symbols m ef_sh_flags_str) :=
    (print_elf_symbols_runs ended ef_sh_flags_str (fun _ => fromSymbols _ _ _ _) (fun _ _ _ _ _ => fromSymbols _ _ _ _)
      fun _ => fromSymbols _ _ _ _).weaken (List.nil_subset _)
  have allocates : Runs g (FromTag start tags) [] (init_allocator m start) :=
    (init_allocator_runs start (by rw [memory_map]; exact divisible) (fun _ => fromMap _ _ _ _) (fromElf _ _ _ _)
      (fun _ _ _ _ _ => fromMap _ _ _ _) fun _ _ => fromElf _ _ _ _).weaken (List.nil_subset _)
  exact prints.bind fun _ => allocates

/-! ### The start -/

theorem laid_ended (laid : LaidTags m a tags) (fits : a + extent tags ≤ 2 ^ 64) : Ended m := by
  have bound := end_address_bound a tags
  exact fun p less => c_string_some (laid_zero laid).1 (by omega) less

/-- No tag lies at address 0. -/
theorem not_from_tag {p : Pointer} {part : Part} {base offset length : ℕ} : ¬ FromTag start tags ⟨p, 0, part, base, offset, length⟩ := by
  rintro ⟨tag, placed, _⟩
  have low : start + 8 ≤ 0 := placed_ge (start + 8) tags _ placed
  omega

/-- A pointer of one of the two functions is set. -/
theorem ReadsSet.set (reads : ReadsSet m start tags) (aligned : start % 8 = 0) (laid : LaidTags m (start + 8) tags)
    (fits : start + 8 + extent tags ≤ 2 ^ 64) :
    (set_all (start + 8) tags unset).symbols ≠ 0 ∧ (set_all (start + 8) tags unset).memory_map ≠ 0 := by
  obtain ⟨s₁, same, globals, _⟩ := start_up_walks aligned laid fits (fun _ => 0) (Nat.lt_succ_self tags.length)
    ⟨{ unvisited with globals := unset }, []⟩ rfl
  have all := reads (fun _ => 0) _ ⟨{ unvisited with globals := unset }, []⟩ (Nat.lt_succ_self tags.length) rfl rfl
  rw [same] at all
  have both := start_up_reads (laid_ended laid fits) (fun _ => 0) start globals
  refine ⟨fun zero => ?_, fun zero => ?_⟩
  · have touched := all _ (both _ List.mem_cons_self)
    rw [zero] at touched
    exact not_from_tag touched
  · have touched := all _ (both _ (List.mem_cons_of_mem _ List.mem_cons_self))
    rw [zero] at touched
    exact not_from_tag touched

/-- A pointer that is set has a tag of its type. -/
theorem tag_of_last {type : ℕ} (set : (last_of type a tags).getD 0 ≠ 0) : ∃ tag ∈ tags, tag.type = type := by
  by_contra absent
  have isNone : last_of type a tags = none := last_of_none.mpr fun tag member same => absent ⟨tag, member, same⟩
  exact set (by rw [isNone]; rfl)

/-- For any tags in any order, the start reads only through pointers that a tag has set exactly if ELF symbols and a memory
    map are among them. -/
theorem reads_set_iff (aligned : start % 8 = 0) (laid : LaidTags m (start + 8) tags) (fits : start + 8 + extent tags ≤ 2 ^ 64) :
    ReadsSet m start tags ↔
      (∃ tag ∈ tags, tag.type = multiboot_elf_symbols_tag) ∧ ∃ tag ∈ tags, tag.type = multiboot_memory_map_tag := by
  obtain ⟨symbols, elf_symbols, memory_map⟩ := pointers_left (start + 8) tags
  constructor
  · intro reads
    obtain ⟨elf, map⟩ := reads.set aligned laid fits
    rw [symbols] at elf
    rw [memory_map] at map
    exact ⟨tag_of_last elf, tag_of_last map⟩
  · rintro ⟨⟨elfTag, elfIn, elfType⟩, ⟨mapTag, mapIn, mapType⟩⟩
    obtain ⟨elf, isElf⟩ := Option.ne_none_iff_exists'.mp fun none => last_of_none.mp none elfTag elfIn elfType
    obtain ⟨map, isMap⟩ := Option.ne_none_iff_exists'.mp fun none => last_of_none.mp none mapTag mapIn mapType
    have elfPlaced := last_of_some isElf
    have mapPlaced := last_of_some isMap
    rw [isElf] at symbols elf_symbols
    rw [isMap] at memory_map
    have divisible : tag_entry_size m map ≠ 0 := by
      obtain ⟨tag, member, type⟩ := mapPlaced
      exact (placed_fields laid fits _ member).2 type
    intro strings fuel s enough isUnset fresh a member
    obtain ⟨s₁, same, globals, walked⟩ := start_up_walks aligned laid fits strings enough s fresh
    rw [isUnset] at globals
    have runs := start_up_set (laid_ended laid fits) strings start elfPlaced mapPlaced symbols elf_symbols memory_map divisible
    obtain ⟨v, s₂, new, ran, _, grown, behind, _⟩ := runs s₁ globals
    rw [same, ran, after, grown] at member
    rcases List.mem_append.mp member with later | early
    · exact behind a later
    · exact walked a early

end

/-- A memory map of one entry, and no ELF symbols. -/
def only_map : List Tag := three_tags.take 1

def only_map_memory : Memory := fun a =>
  (little 8 0 ++ only_map.flatMap Tag.bytes ++ end_tag).getD (a - 0x2000) 0

theorem only_map_laid : LaidTags only_map_memory (0x2000 + 8) only_map := by decide +kernel

theorem reads_set_iff_only_map : ReadsSet only_map_memory 0x2000 only_map ↔
    (∃ tag ∈ only_map, tag.type = multiboot_elf_symbols_tag) ∧ ∃ tag ∈ only_map, tag.type = multiboot_memory_map_tag :=
  reads_set_iff (by decide) only_map_laid (by decide +kernel)

/-- `print_elf_symbols` reads through NULL. -/
theorem reads_unset_symbols : LaidTags only_map_memory (0x2000 + 8) only_map ∧ ¬ ReadsSet only_map_memory 0x2000 only_map := by
  refine ⟨only_map_laid, fun reads => ?_⟩
  have set := (reads.set (by decide) only_map_laid (by decide +kernel)).1
  rw [(pointers_left _ _).1] at set
  obtain ⟨tag, member, type⟩ := tag_of_last set
  obtain rfl := List.mem_singleton.mp member
  cases type

end OsC.OptionalTags
