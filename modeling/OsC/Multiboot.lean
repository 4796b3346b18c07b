import Mathlib.Algebra.Order.Ring.Int
import Mathlib.Tactic.NormNum

/-!
The parts of the Multiboot block that the kernel reads: the memory map and the
ELF section headers. Numbers carry the width of their fields.
-/
namespace OsC.Multiboot

/-- `multiboot_memory_map_entry_type` of usable memory. -/
def multiboot_ram_available : ℕ := 1

structure multiboot_memory_map_entry where
  base_addr : ℕ
  length : ℕ
  type : ℕ
  base_lt : base_addr < 2 ^ 64 := by decide
  length_lt : length < 2 ^ 64 := by decide
  deriving DecidableEq

instance : Inhabited multiboot_memory_map_entry := ⟨{ base_addr := 0, length := 0, type := 0 }⟩

/-- A memory map whose `size` counts the entries that follow its 16-byte header. -/
structure multiboot_memory_map where
  size : ℕ
  entry_size : ℕ
  memory_maps : List multiboot_memory_map_entry
  header : 16 ≤ size := by decide
  size_lt : size < 2 ^ 32 := by decide
  stride : 0 < entry_size := by decide
  counted : (size - 16) / entry_size = memory_maps.length := by decide

def shf_write : ℕ := 0x1
def shf_alloc : ℕ := 0x2
def shf_execinstr : ℕ := 0x4

structure multiboot_elf_section_header where
  sh_flags : ℕ
  sh_addr : ℕ
  sh_size : ℕ
  addr_lt : sh_addr < 2 ^ 64 := by decide
  size_lt : sh_size < 2 ^ 64 := by decide
  deriving DecidableEq

def elf_section_is_allocated (header : multiboot_elf_section_header) : Bool := header.sh_flags &&& shf_alloc != 0
def elf_section_is_writable (header : multiboot_elf_section_header) : Bool := header.sh_flags &&& shf_write != 0
def elf_section_is_exectuable (header : multiboot_elf_section_header) : Bool :=
  header.sh_flags &&& shf_execinstr != 0

/-- `start` is the address of the block and `total_size` its first field; the
    section headers are those that `elf_symbols->num` counts. -/
structure multiboot_data where
  start : ℕ
  total_size : ℕ
  memory_map : multiboot_memory_map
  sectionheaders : List multiboot_elf_section_header
  start_lt : start < 2 ^ 64 := by decide
  total_size_lt : total_size < 2 ^ 32 := by decide

end OsC.Multiboot
