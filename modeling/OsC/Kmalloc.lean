import OsC.Loop
import OsC.Bytes
import OsC.Frames

/-!
The kernel heap. Blocks and free nodes carry a header of two 64-bit fields,
`next` and `size`, in the bytes before their payload. The head of the free list
is the untouched rest of the heap; the nodes behind it were freed.

A heap also records what the allocator did: each header field it stored and
the exact value of each size or address it computed before that value is
reduced to 64 bits.
-/
namespace OsC.Kmalloc
open OsC.Bytes OsC.Loop OsC.Word OsC.Frames

def heap_start_addr : ℕ := 4096 * 512 * 512
def heap_size : ℕ := 100 * 1024
/-- `sizeof(struct free_node)`: two packed 64-bit fields. -/
def sizeof_free_node : ℕ := 16
def minimum_alloc_size : ℕ := sizeof_free_node + 2 * 8

/-- What an allocator function did. -/
inductive Event
  | header (addr : ℕ)
  | computed (exact : ℤ)
  deriving DecidableEq, Repr

structure Heap where
  mem : Memory
  free_list_head : ℕ
  /-- The pages that `init_heap` mapped. -/
  mapped : List ℕ
  trace : List Event

namespace Heap

/-- `node->next`, at offset 0 of a header. -/
def next (h : Heap) (node : ℕ) : ℕ := read h.mem node 8
/-- `node->size`, at offset 8 of a header. -/
def size (h : Heap) (node : ℕ) : ℕ := read h.mem (node + 8) 8

def setNext (h : Heap) (node value : ℕ) : Heap :=
  { h with mem := write h.mem node 8 value, trace := .header node :: h.trace }
def setSize (h : Heap) (node value : ℕ) : Heap :=
  { h with mem := write h.mem (node + 8) 8 value, trace := .header (node + 8) :: h.trace }
def compute (h : Heap) (exact : ℤ) : Heap := { h with trace := .computed exact :: h.trace }

end Heap

def get_free_node_from_addr (addr : ℕ) : ℕ := wrap (addr - sizeof_free_node)

/-- The pages that the loop of `init_heap` maps, in order. -/
def init_heap_pages : ℕ → ℕ → List ℕ
  | 0, _ => []
  | fuel + 1, addr =>
    if addr < heap_start_addr + heap_size then addr / PAGE_SIZE :: init_heap_pages fuel (addr + PAGE_SIZE) else []

/-- `init_heap` in a memory of any content. The loop that maps the heap runs
    once for each page of `heap_size`. -/
def init_heap (mem : Memory) : Heap :=
  let h : Heap := ⟨mem, heap_start_addr, init_heap_pages (heap_size / PAGE_SIZE + 1) heap_start_addr, []⟩
  (h.setNext heap_start_addr 0).setSize heap_start_addr heap_size

/-- One turn of the loop of `allocate_memory` up to its size test: the list ends,
    the node after `node` is large enough, or the walk goes on. -/
def fit_step (h : Heap) (required_bytes node : ℕ) : ℕ ⊕ Option ℕ :=
  if h.next node = 0 then .inr none
  else if h.size (h.next node) ≥ required_bytes then .inr (some node)
  else .inl (h.next node)

/-- The rest of that turn when the node after `node` is large enough: the bytes
    it does not need become a new node if they can hold one. -/
def allocate_from_list (h : Heap) (required_bytes node : ℕ) : ℕ × Heap :=
  let old_node := h.next node
  let after_old := h.next old_node
  let exact_free : ℤ := h.size old_node - required_bytes
  let h := h.compute exact_free
  let small := wrap exact_free < minimum_alloc_size
  let required_bytes := if small then h.size old_node else required_bytes
  let new_free_bytes := if small then 0 else wrap exact_free
  if new_free_bytes ≠ 0 then
    let exact_next : ℤ := old_node + sizeof_free_node + required_bytes
    let exact_size : ℤ := new_free_bytes - sizeof_free_node
    let new_next_node := wrap exact_next
    let h := (h.compute exact_next).compute exact_size
    let h := h.setSize new_next_node (wrap exact_size)
    let h := h.setNext new_next_node (h.next old_node)
    let h := (h.setNext old_node 0).setSize old_node required_bytes
    (old_node, h.setNext node new_next_node)
  else
    let h := (h.setNext old_node 0).setSize old_node required_bytes
    (old_node, h.setNext node after_old)

/-- The end of `allocate_memory` when no node of the list is large enough. -/
def allocate_from_head (h : Heap) (required_bytes : ℕ) : ℕ × Heap :=
  let old_head := h.free_list_head
  let exact_head : ℤ := old_head + sizeof_free_node + required_bytes
  let exact_size : ℤ := h.size old_head - required_bytes - sizeof_free_node
  let new_head := wrap exact_head
  let h := (h.compute exact_head).compute exact_size
  let h := h.setSize new_head (wrap exact_size)
  let h := h.setNext new_head (h.next old_head)
  let h := (h.setNext old_head 0).setSize old_head required_bytes
  (old_head, { h with free_list_head := new_head })

def allocate_memory (fuel required_bytes : ℕ) (h : Heap) : Option (ℕ × Heap) :=
  (iterate (fit_step h required_bytes) fuel h.free_list_head).map fun found =>
    match found with
    | some node => allocate_from_list h required_bytes node
    | none => allocate_from_head h required_bytes

def kmalloc (fuel bytes : ℕ) (h : Heap) : Option (ℕ × Heap) :=
  (allocate_memory fuel bytes h).map fun (node, h) => (wrap (node + sizeof_free_node), h)

/-- Copies upwards, byte by byte. -/
def kmemcpy (m : Memory) (dest src : ℕ) : ℕ → Memory
  | 0 => m
  | n + 1 =>
    let m := kmemcpy m dest src n
    set m (wrap (dest + n)) (m (wrap (src + n)))

def kfree (addr : ℕ) (h : Heap) : Heap :=
  let node := get_free_node_from_addr addr
  let h := h.setNext node (h.next h.free_list_head)
  h.setNext h.free_list_head node

def krealloc (fuel addr bytes : ℕ) (h : Heap) : Option (ℕ × Heap) :=
  let node := get_free_node_from_addr addr
  if h.size node ≥ bytes then some (addr, h)
  else
    (kmalloc fuel bytes h).map fun (new_addr, h) =>
      let h := { h with mem := kmemcpy h.mem new_addr addr (h.size node) }
      (new_addr, kfree addr h)

end OsC.Kmalloc
