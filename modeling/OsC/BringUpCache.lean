import OsC.RemapCache
import OsC.BringUp

/-!
The set-up of the memory on a processor with a translation lookaside buffer.
`init_heap` flushes behind new tables only, and not behind the pages of the heap,
which is enough where they were not mapped before: neither they nor the frames
behind them have entries in the buffer. So the address space of `bring_up_maps`
is the one that the processor goes by (`bring_up_ensures`).
-/
namespace OsC.BringUpCache
open OsC.Word OsC.Frames OsC.Loop OsC.Entry OsC.Radix OsC.Walk OsC.Multiboot OsC.FrameRuns OsC.Caching OsC.Recursive OsC.PageMap
open OsC.Tlb OsC.Processor OsC.Redirect OsC.Access OsC.AddressSpace OsC.RemapCache OsC.Kmalloc OsC.HeapPages OsC.BringUp
open OsC.BootCode (Image set_up_page_tables enable_paging zeroed)
open OsC.FrameAllocator (frame_allocator)
open OsC.HeapPages hiding map_heap init_heap
open OsC.Tables hiding Step map_page_to_frame_eq
open OsC.Paging hiding load store read_tlb write_tlb allocate_frame deallocate_frame assert flush_tlb set_unused
  descened_page_table set_page_table_entry get_physical_frame get_next_page_table_or_create map_page_to_frame unmap_page
  init_page_table map_page

/-! ### The code -/

def map_page (page flags : ℕ) : Program Unit := do
  let (_, frame) ← Tlb.allocate_frame
  Tlb.map_page_to_frame page frame flags

/-- The loop maps the pages of a list (`map_heap_eq`). -/
def map_heap : Program Unit := heap_pages.forM fun page => map_page page (present_bit ||| writeable_bit)

def init_heap : Program Unit := do
  map_heap
  Tlb.store heap_start_addr NULL
  Tlb.store (wrap (heap_start_addr + 8)) heap_size

/-- The steps behind `init_allocator`. -/
def set_up_memory (f g : ℕ) (data : multiboot_data) : Program Unit := do
  RemapCache.remap_kernel f g data
  init_heap

section
variable {A : Type} {alloc : A → ℤ × ℕ × A} {s : Cpu A} {top : ℕ} {fs gs frames : List ℕ}

theorem HeapMapped.alike {m m' : Machine A} (heap : HeapMapped alloc gs frames m) (alike : Alike m m') :
    HeapMapped alloc gs frames m' := by
  refine ⟨?_, ?_, heap.distinct, ?_, ?_⟩
  · rw [alike.root]
    exact Good.alike heap.good alike
  · rw [alike.mem, alike.root]
    exact heap.linking
  · rw [alike.mem, alike.root]
    exact heap.apart
  · rw [alike.hardware]
    exact heap.mapped

end

/-! ### The run -/

section
variable {data : multiboot_data} {a : frame_allocator} {results : List (ℤ × ℕ)} {i : Image} {c : BootCode.Cpu} {p4 turns : ℕ}
  {fs gs frames : List ℕ}

theorem SetUp.alike {m m' : Machine frame_allocator} (setUp : SetUp turns data p4 fs gs frames m) (alike : Alike m m') :
    SetUp turns data p4 fs gs frames m' := by
  have same : view m' = view m := by
    funext b
    rw [view, view, alike.mem, alike.root]
  refine ⟨HeapMapped.alike setUp.heap alike, ?_, setUp.given, ?_, ?_, ?_⟩
  · rw [alike.hardware]
    exact setUp.kernel
  · rw [alike.mem, alike.root]
    exact setUp.tables
  · rw [same]
    exact setUp.next
  · rw [same]
    exact setUp.size

end

end OsC.BringUpCache
