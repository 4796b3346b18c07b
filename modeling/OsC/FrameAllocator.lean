import OsC.Loop
import OsC.Frames
import OsC.Multiboot

/-!
The physical frame allocator. It keeps the number of the next frame to try and
the index of a current area of the memory map, and skips the frames of the
kernel and of the Multiboot block.
-/
namespace OsC.FrameAllocator
open OsC.Loop OsC.Word OsC.Frames OsC.Multiboot

def UINT64_MAX : ℕ := 2 ^ 64 - 1

/-- Frames are kept as their numbers. -/
structure frame_allocator where
  next_free_frame : ℕ
  mem_map : multiboot_memory_map
  entry_index : ℕ
  num_entries : ℕ
  kernel_start : ℕ
  kernel_end : ℕ
  multiboot_start : ℕ
  multiboot_end : ℕ

/-- `mem_map->memory_maps[i]`. -/
def entry (mem_map : multiboot_memory_map) (i : ℕ) : multiboot_memory_map_entry := mem_map.memory_maps.getD i default

/-- One turn of the loops that look for the area with the least base: the base
    and the index found so far, and then those of entry `i` if it begins at or
    above `min_addr`, has the length of a page and begins lower. -/
def select_turn (mem_map : multiboot_memory_map) (min_addr : ℕ) (found : ℕ × ℕ) (i : ℕ) : ℕ × ℕ :=
  let e := entry mem_map i
  if min_addr ≤ e.base_addr ∧ e.length ≥ PAGE_SIZE ∧ found.1 > e.base_addr then (e.base_addr, i) else found

/-- The loops of `init_allocator` and `switch_area`. They end with `index` if no entry qualifies. -/
def select_area (mem_map : multiboot_memory_map) (num_entries min_addr index : ℕ) : ℕ :=
  ((List.range num_entries).foldl (select_turn mem_map min_addr) (UINT64_MAX, index)).2

/-- One turn of the loop of `init_allocator` over the sections: the bounds of the kernel so far. -/
def kernel_turn (bounds : ℕ × ℕ) (header : multiboot_elf_section_header) : ℕ × ℕ :=
  let kernel_start_addr :=
    if header.sh_size > 0 ∧ header.sh_addr < bounds.1 then header.sh_addr else bounds.1
  let sum := wrap (header.sh_size + header.sh_addr)
  (kernel_start_addr, if sum > bounds.2 then sum else bounds.2)

def kernel_bounds (headers : List multiboot_elf_section_header) : ℕ × ℕ := headers.foldl kernel_turn (UINT64_MAX, 0)

def init_allocator (data : multiboot_data) : frame_allocator :=
  let num_entries := wrap (data.memory_map.size - 4 * 4) / data.memory_map.entry_size
  let kernel := kernel_bounds data.sectionheaders
  { next_free_frame := 0
    mem_map := data.memory_map
    num_entries
    -- The first search takes an entry at any address.
    entry_index := select_area data.memory_map num_entries 0 0
    kernel_start := get_frame_for_addr kernel.1
    kernel_end := get_frame_for_addr kernel.2
    multiboot_start := get_frame_for_addr data.start
    multiboot_end := get_frame_for_addr (wrap (data.start + data.total_size)) }

/-- The last byte of an area, as the code computes it. -/
def last_addr (e : multiboot_memory_map_entry) : ℕ := wrap (e.base_addr + e.length - 1)

def switch_area (a : frame_allocator) : frame_allocator :=
  let min_addr := last_addr (entry a.mem_map a.entry_index)
  { a with entry_index := select_area a.mem_map a.num_entries min_addr a.num_entries }

/-- `++allocator.next_free_frame.number`. -/
def advance (a : frame_allocator) : frame_allocator := { a with next_free_frame := wrap (a.next_free_frame + 1) }

/-- One turn of the loop of `allocate_frame`. It leaves with the result, the
    number in the caller's frame and the allocator. -/
def allocate_turn (a : frame_allocator) : frame_allocator ⊕ (ℤ × ℕ × frame_allocator) :=
  if a.entry_index = a.num_entries then .inr (-1, 0, a)
  else
    let index := a.next_free_frame
    let last_frame_of_area := get_frame_for_addr (last_addr (entry a.mem_map a.entry_index))
    if index > last_frame_of_area then .inl (switch_area a)
    else if index ≥ a.kernel_start ∧ index ≤ a.kernel_end then .inl (advance a)
    else if index ≥ a.multiboot_start ∧ index ≤ a.multiboot_end then .inl (advance a)
    else .inr (0, index, advance a)

def allocate_frame (fuel : ℕ) (a : frame_allocator) : Option (ℤ × ℕ × frame_allocator) := iterate allocate_turn fuel a

end OsC.FrameAllocator
