import OsC.Tags
import Mathlib.Tactic.SplitIfs

/-!
A Multiboot block as the boot loader lays it out: tags of any type and payload,
each padded to a multiple of 8 bytes, before an end tag. The walk of such a
block visits its tags in order and keeps the last memory map and the last ELF
symbols (`tag_loop_visits`).
-/
namespace OsC.Layout
open OsC.Bytes OsC.Word OsC.Loop OsC.Vga OsC.Tags

/-! ### Bytes in memory -/

/-- The bytes lie in memory from the address on. -/
def Laid (m : Memory) : ℕ → List UInt8 → Prop
  | _, [] => True
  | a, b :: bytes => m a = b ∧ Laid m (a + 1) bytes

instance : ∀ (m : Memory) (a : ℕ) (bytes : List UInt8), Decidable (Laid m a bytes)
  | _, _, [] => inferInstanceAs (Decidable True)
  | m, a, b :: bytes =>
    have := instDecidableLaid m (a + 1) bytes
    inferInstanceAs (Decidable (m a = b ∧ Laid m (a + 1) bytes))

/-- The little-endian number of some bytes, and the `n` low bytes of a number. -/
def number : List UInt8 → ℕ
  | [] => 0
  | b :: bytes => b.toNat + 256 * number bytes

def little : ℕ → ℕ → List UInt8
  | 0, _ => []
  | n + 1, w => UInt8.ofNat w :: little n (w / 256)

section
variable {m : Memory} {a : ℕ} {bytes more : List UInt8}

theorem laid_append : Laid m a (bytes ++ more) ↔ Laid m a bytes ∧ Laid m (a + bytes.length) more := by
  induction bytes generalizing a with
  | nil => simp [Laid]
  | cons b bytes ih =>
    rw [List.cons_append, Laid, Laid, ih, List.length_cons, and_assoc, Nat.add_right_comm, Nat.add_assoc]

theorem read_laid (laid : Laid m a bytes) : read m a bytes.length = number bytes := by
  induction bytes generalizing a with
  | nil => rfl
  | cons b bytes ih => rw [List.length_cons, Bytes.read, number, laid.1, ih laid.2]

theorem little_length (n w : ℕ) : (little n w).length = n := by
  induction n generalizing w with
  | zero => rfl
  | succ n ih => rw [little, List.length_cons, ih]

theorem number_little {n w : ℕ} (fits : w < 256 ^ n) : number (little n w) = w := by
  induction n generalizing w with
  | zero =>
    rw [pow_zero] at fits
    have : w = 0 := by omega
    rw [this]
    rfl
  | succ n ih =>
    have rest := div_lt_pow fits
    rw [little, number, ih rest, UInt8.toNat_ofNat']
    omega

theorem read_little {n w : ℕ} (fits : w < 256 ^ n) (laid : Laid m a (little n w)) : read m a n = w := by
  have all := read_laid laid
  rw [little_length, number_little fits] at all
  exact all

end

/-! ### Tags -/

/-- A tag, without its padding. -/
structure Tag where
  type : ℕ
  payload : List UInt8
  type_ne : type ≠ multiboot_end_tag
  type_lt : type < 2 ^ 32
  size_lt : 8 + payload.length < 2 ^ 32
  counts : type = multiboot_memory_map_tag → 8 ≤ payload.length ∧ number (payload.take 4) ≠ 0

def Tag.size (tag : Tag) : ℕ := 8 + tag.payload.length

def Tag.bytes (tag : Tag) : List UInt8 := little 4 tag.type ++ (little 4 tag.size ++ tag.payload)

/-- The size with the padding. -/
def Tag.padded (tag : Tag) : ℕ := (tag.size + 7) / 8 * 8

def end_tag : List UInt8 := little 4 multiboot_end_tag ++ little 4 8

/-- The tags lie in memory from the address on, with any bytes between them, and an end tag behind them. -/
def LaidTags (m : Memory) : ℕ → List Tag → Prop
  | a, [] => Laid m a end_tag
  | a, tag :: tags => Laid m a tag.bytes ∧ LaidTags m (a + tag.padded) tags

instance : ∀ (m : Memory) (a : ℕ) (tags : List Tag), Decidable (LaidTags m a tags)
  | m, a, [] => inferInstanceAs (Decidable (Laid m a end_tag))
  | m, a, tag :: tags =>
    have := instDecidableLaidTags m (a + tag.padded) tags
    inferInstanceAs (Decidable (Laid m a tag.bytes ∧ LaidTags m (a + tag.padded) tags))

/-- The bytes that the tags and the end tag take. -/
def extent : List Tag → ℕ
  | [] => 8
  | tag :: tags => tag.padded + extent tags

/-- The tags with their addresses. -/
def placed : ℕ → List Tag → List (ℕ × Tag)
  | _, [] => []
  | a, tag :: tags => (a, tag) :: placed (a + tag.padded) tags

/-- The address of the end tag. -/
def end_address : ℕ → List Tag → ℕ
  | a, [] => a
  | a, tag :: tags => end_address (a + tag.padded) tags

/-- The address of the last tag of a type. -/
def last_of (type a : ℕ) (tags : List Tag) : Option ℕ :=
  (((placed a tags).filter fun p => p.2.type = type).getLast?).map (·.1)

section
variable {m : Memory} {a : ℕ} {tag : Tag} {tags : List Tag}

theorem padded_bounds (tag : Tag) : tag.size ≤ tag.padded ∧ tag.padded % 8 = 0 ∧ tag.padded < tag.size + 8 := by
  unfold Tag.padded
  omega

theorem extent_pos (tags : List Tag) : 8 ≤ extent tags := by
  induction tags with
  | nil => exact le_refl 8
  | cons tag tags ih =>
    rw [extent]
    omega

/-- The walk reads the fields of a tag. -/
theorem laid_fields (laid : Laid m a tag.bytes) (fits : a + tag.padded + 8 ≤ 2 ^ 64) :
    tag_type m a = tag.type ∧ tag_size m a = tag.size ∧
      (tag.type = multiboot_memory_map_tag → tag_entry_size m a = number (tag.payload.take 4)) := by
  obtain ⟨typed, sized, contents⟩ : Laid m a (little 4 tag.type) ∧ Laid m (a + 4) (little 4 tag.size) ∧
      Laid m (a + 8) tag.payload := by
    rw [Tag.bytes, laid_append, laid_append, little_length, little_length] at laid
    exact laid
  have bounds := padded_bounds tag
  have header : 8 ≤ tag.size := Nat.le_add_right 8 _
  have at4 : wrap (a + 4) = a + 4 := wrap_eq (by push_cast; rfl) (by omega)
  have at8 : wrap (a + 8) = a + 8 := wrap_eq (by push_cast; rfl) (by omega)
  refine ⟨read_little tag.type_lt typed, ?_, fun map => ?_⟩
  · rw [tag_size, at4]
    exact read_little tag.size_lt sized
  · have enough := (tag.counts map).1
    have length : (tag.payload.take 4).length = 4 := by
      rw [List.length_take]
      omega
    rw [← List.take_append_drop 4 tag.payload, laid_append] at contents
    have all := read_laid contents.1
    rw [length] at all
    rw [tag_entry_size, at8]
    exact all

/-- The address behind a tag is that of the next one. -/
theorem next_tag_laid (aligned : a % 8 = 0) (fits : a + tag.padded + 8 ≤ 2 ^ 64) : next_tag a tag.size = a + tag.padded := by
  have bounds := padded_bounds tag
  have behind : wrap (a + tag.size) = a + tag.size := wrap_eq (by push_cast; rfl) (by omega)
  rw [next_tag, behind]
  by_cases unpadded : (a + tag.size) % 8 = 0
  · simp only [unpadded, ne_eq, not_true_eq_false, if_false]
    omega
  · simp only [unpadded, ne_eq, not_false_eq_true, if_true]
    exact wrap_eq (by omega) (by omega)

/-! ### Strings -/

/-- From any address a string ends, if memory holds a NUL. -/
theorem c_string_ends (d fuel p : ℕ) (zero : m (wrap (p + d)) = 0) (small : p < 2 ^ 64) (enough : d < fuel) :
    (c_string m fuel p).isSome := by
  induction d generalizing fuel p with
  | zero =>
    obtain ⟨fuel, rfl⟩ : ∃ k, fuel = k + 1 := ⟨fuel - 1, by omega⟩
    have here : wrap (p + (0 : ℕ)) = p := wrap_eq (by simp) small
    rw [here] at zero
    simp [c_string, zero]
  | succ d ih =>
    obtain ⟨fuel, rfl⟩ : ∃ k, fuel = k + 1 := ⟨fuel - 1, by omega⟩
    have next : wrap ((wrap (p + 1) : ℕ) + (d : ℕ)) = wrap (p + (d + 1 : ℕ)) := by
      unfold wrap
      omega
    have rest := ih fuel (wrap (p + 1)) (by rw [next]; exact zero) (wrap_lt _) (by omega)
    by_cases stop : m p = 0
    · simp [c_string, stop]
    · simp [c_string, stop, rest]

theorem c_string_some {b p : ℕ} (zero : m b = 0) (small : b < 2 ^ 64) (small' : p < 2 ^ 64) :
    (c_string m (2 ^ 64) p).isSome := by
  have there : wrap (p + ((b + 2 ^ 64 - p) % 2 ^ 64 : ℕ)) = b := by
    unfold wrap
    omega
  exact c_string_ends ((b + 2 ^ 64 - p) % 2 ^ 64) (2 ^ 64) p (by rw [there]; exact zero) small' (Nat.mod_lt _ (by decide))

/-! ### The walk -/

/-- A block holds a NUL, in its end tag. -/
theorem laid_zero (laid : LaidTags m a tags) : m (end_address a tags) = 0 ∧ tag_type m (end_address a tags) = 0 := by
  induction tags generalizing a with
  | nil =>
    have typed : Laid m a (little 4 multiboot_end_tag) := (laid_append.mp laid).1
    exact ⟨typed.1, read_little (by decide) typed⟩
  | cons tag tags ih => exact ih laid.2

theorem end_address_bound (a : ℕ) (tags : List Tag) : end_address a tags + 8 = a + extent tags := by
  induction tags generalizing a with
  | nil => rfl
  | cons tag tags ih => rw [end_address, extent, ih, Nat.add_assoc]

/-- The pointers that the tags leave. -/
def set_all (a : ℕ) (tags : List Tag) (g : Globals) : Globals :=
  (placed a tags).foldl (fun g p => parsed p.2.type p.1 g) g

theorem tag_loop_laid {nul : ℕ} (laid : LaidTags m a tags) (aligned : a % 8 = 0) (fits : a + extent tags ≤ 2 ^ 64)
    (isNul : m nul = 0) (small : nul < 2 ^ 64) (s : State) : ∃ s', tag_loop m (tags.length + 1) a s = .ok () s' ∧
      s'.visited = (((placed a tags).map (·.1)) ++ [end_address a tags]).reverse ++ s.visited ∧
      s'.globals = set_all a tags s.globals := by
  have found : ∀ b, (tag_string m b).isSome := fun b => c_string_some isNul small (wrap_lt _)
  induction tags generalizing a s with
  | nil =>
    have ends : tag_type m a = 0 := (laid_zero laid).2
    have parsable : Parsable m a := ⟨fun _ => found a, fun _ => found a, fun map => by rw [ends] at map; cases map⟩
    obtain ⟨s', ran, turned⟩ := turn_run parsable s
    have stops : following m a = 0 := by rw [following, ends]; rfl
    rw [stops] at ran
    refine ⟨s', ?_, turned.visited, ?_⟩
    · rw [tag_loop]
      exact bind_ok ran _
    · rw [turned.globals, ends]
      rfl
  | cons tag tags ih =>
    have whole : a + tag.padded + extent tags ≤ 2 ^ 64 := by rw [Nat.add_assoc]; exact fits
    have rest := extent_pos tags
    have room : a + tag.padded + 8 ≤ 2 ^ 64 := by omega
    have bounds := padded_bounds tag
    obtain ⟨type, size, entry_size⟩ := laid_fields laid.1 room
    have parsable : Parsable m a := by
      refine ⟨fun _ => found a, fun _ => found a, fun map => ?_⟩
      rw [type] at map
      rw [entry_size map]
      exact (tag.counts map).2
    obtain ⟨s₁, ran, turned⟩ := turn_run parsable s
    have goes : following m a = a + tag.padded := by
      have more : tag_type m a ≠ 0 := by
        rw [type]
        exact tag.type_ne
      rw [following, if_pos more, size, next_tag_laid aligned room]
    obtain ⟨s', ran', visited, globals⟩ := ih laid.2 (by omega) whole s₁
    have header : 8 ≤ tag.size := Nat.le_add_right 8 _
    rw [goes] at ran
    refine ⟨s', ?_, ?_, ?_⟩
    · rw [List.length_cons, tag_loop]
      refine (bind_ok ran _).trans ?_
      rw [if_pos (by omega)]
      exact ran'
    · rw [visited, turned.visited, placed, end_address]
      simp
    · rw [globals, turned.globals, type]
      rfl

/-- A pointer that the tags of one type set is left at the last of them. -/
theorem set_all_last {f : Globals → ℕ} {type : ℕ} (sets : ∀ t b g, f (parsed t b g) = if t = type then b else f g)
    (a : ℕ) (tags : List Tag) (g : Globals) : f (set_all a tags g) = (last_of type a tags).getD (f g) := by
  induction tags generalizing a g with
  | nil => rfl
  | cons tag tags ih =>
    have rest : f (set_all a (tag :: tags) g) = _ := ih (a + tag.padded) (parsed tag.type a g)
    rw [rest, sets, last_of, last_of, placed]
    by_cases here : tag.type = type
    · rw [if_pos here, List.filter_cons_of_pos (by simp [here]), List.getLast?_cons]
      cases (List.filter (fun p => decide (p.2.type = type)) (placed (a + tag.padded) tags)).getLast? <;> rfl
    · rw [if_neg here, List.filter_cons_of_neg (by simp [here])]

theorem parsed_memory_map (t b : ℕ) (g : Globals) :
    (parsed t b g).memory_map = if t = multiboot_memory_map_tag then b else g.memory_map := by
  unfold parsed
  split_ifs with info name device command elf map <;> simp_all [multiboot_memory_map_tag, multiboot_memory_info_tag,
    multiboot_boot_load_name_tag, multiboot_bios_boot_device_tag, multiboot_boot_command_line_tag, multiboot_elf_symbols_tag]

theorem parsed_elf_symbols (t b : ℕ) (g : Globals) :
    (parsed t b g).elf_symbols = if t = multiboot_elf_symbols_tag then b else g.elf_symbols := by
  unfold parsed
  split_ifs with info name device command elf map <;> simp_all [multiboot_memory_map_tag, multiboot_memory_info_tag,
    multiboot_boot_load_name_tag, multiboot_bios_boot_device_tag, multiboot_boot_command_line_tag, multiboot_elf_symbols_tag]

/-- The walk of a block that is laid out from an aligned address visits its tags
    in order and the end tag, and leaves `data.memory_map` and `data.elf_symbols`
    at the last tags of these types, or as they were. -/
theorem tag_loop_visits (start : ℕ) (aligned : start % 8 = 0) (laid : LaidTags m (start + 8) tags)
    (fits : start + 8 + extent tags ≤ 2 ^ 64) (s : State) :
    ∃ s', tag_loop m (tags.length + 1) (first_tag start) s = .ok () s' ∧
      s'.visited.reverse = s.visited.reverse ++ ((placed (start + 8) tags).map (·.1) ++ [end_address (start + 8) tags]) ∧
      s'.globals.memory_map = (last_of multiboot_memory_map_tag (start + 8) tags).getD s.globals.memory_map ∧
      s'.globals.elf_symbols = (last_of multiboot_elf_symbols_tag (start + 8) tags).getD s.globals.elf_symbols := by
  have bound := end_address_bound (start + 8) tags
  have positive := extent_pos tags
  have first : first_tag start = start + 8 := wrap_eq (by push_cast; rfl) (by omega)
  obtain ⟨s', ran, visited, globals⟩ := tag_loop_laid laid (by omega) fits (laid_zero laid).1 (by omega) s
  rw [first]
  refine ⟨s', ran, ?_, ?_, ?_⟩
  · rw [visited, List.reverse_append, List.reverse_reverse]
  · rw [globals]
    exact set_all_last parsed_memory_map _ _ _
  · rw [globals]
    exact set_all_last parsed_elf_symbols _ _ _

end

/-- A memory map of one entry, a tag of no known type, and ELF symbols. -/
def three_tags : List Tag :=
  [⟨multiboot_memory_map_tag, little 4 24 ++ List.replicate 28 0, by decide, by decide, by decide, by decide⟩,
    ⟨77, [1, 2, 3], by decide, by decide, by decide, by decide⟩,
    ⟨multiboot_elf_symbols_tag, List.replicate 12 0, by decide, by decide, by decide, by decide⟩]

def three_tags_memory : Memory := fun a =>
  (little 8 0 ++ three_tags.flatMap (fun tag : Tag => tag.bytes ++ List.replicate (tag.padded - tag.size) 0xff) ++
    end_tag).getD (a - 0x1000) 0

/-- Before any tag is visited. -/
def unvisited : State := ⟨⟨0, 0, 0, 0, 0, 0, 0, 0⟩, opened fun _ => 0, [], [], []⟩

theorem tag_loop_visits_three_tags : ∃ s', tag_loop three_tags_memory 4 (first_tag 0x1000) unvisited = .ok () s' ∧
    s'.visited.reverse = [0x1008, 0x1030, 0x1040, 0x1058] ∧
    s'.globals.memory_map = 0x1008 ∧ s'.globals.elf_symbols = 0x1040 := by
  have laid : LaidTags three_tags_memory (0x1000 + 8) three_tags := by decide +kernel
  have length : three_tags.length = 3 := rfl
  have tags : (placed (0x1000 + 8) three_tags).map (·.1) ++ [end_address (0x1000 + 8) three_tags] =
      [0x1008, 0x1030, 0x1040, 0x1058] := by decide +kernel
  have map : last_of multiboot_memory_map_tag (0x1000 + 8) three_tags = some 0x1008 := by decide +kernel
  have elf : last_of multiboot_elf_symbols_tag (0x1000 + 8) three_tags = some 0x1040 := by decide +kernel
  have walk := tag_loop_visits 0x1000 (by decide) laid (by decide +kernel) unvisited
  rw [length, tags, map, elf] at walk
  exact walk

end OsC.Layout
