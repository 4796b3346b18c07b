import OsC.Loop
import OsC.Frames
import OsC.Walk
import OsC.Multiboot

/-!
The page tables of the kernel. They are read and written at virtual addresses
that are themselves translated by the tables: slot 511 of the level 4 table
points to that table, so that `p4_table` is its own address. The machine stops
with a page fault at an address that has no translation.
-/
namespace OsC.Paging
open OsC.Word OsC.Frames OsC.Loop OsC.Walk OsC.Entry

def NULL : ℕ := 0

def present_bit : ℕ := 0x1
def writeable_bit : ℕ := 0x2
def huge_bit : ℕ := 0x80
def physical_addr_mask : ℕ := 0x000ffffffffff000
def no_exec_bit : ℕ := 0x8000000000000000

def p4_table : ℕ := 0xfffffffffffff000

/-- The `!` of C. -/
def lnot (n : ℕ) : ℕ := if n = 0 then 1 else 0

/-! ### The machine -/

/-- What the kernel did to the machine. -/
inductive Event
  | load (vaddr frame : ℕ) (index : Index)
  | store (vaddr frame : ℕ) (index : Index)
  | allocated (frame : ℕ)
  | deallocated (frame : ℕ)
  | wrote_cr3 (value : ℕ)
  deriving DecidableEq

inductive Fault
  | page_fault (vaddr : ℕ)
  | assertion (text : String)
  | stuck
  deriving DecidableEq

structure Machine (A : Type) where
  mem : Tables
  cr3 : ℕ
  allocator : A
  trace : List Event

abbrev Kernel (A : Type) := EStateM Fault (Machine A)

section
variable {A : Type}

/-- The frame of the table that a walk begins at. -/
def Machine.root (s : Machine A) : ℕ := address s.cr3

def Machine.log (s : Machine A) (event : Event) : Machine A := { s with trace := event :: s.trace }

/-- The word of a frame at an offset. -/
def word (offset : ℕ) : Index := Fin.ofNat 512 (offset / 8)

def load (vaddr : ℕ) : Kernel A ℕ := fun s =>
  match resolve s.mem s.root vaddr with
  | none => .error (.page_fault vaddr) s
  | some (frame, offset) => .ok (s.mem frame (word offset)) (s.log (.load vaddr frame (word offset)))

def store (vaddr value : ℕ) : Kernel A Unit := fun s =>
  match resolve s.mem s.root vaddr with
  | none => .error (.page_fault vaddr) s
  | some (frame, offset) =>
    .ok () { s.log (.store vaddr frame (word offset)) with mem := Radix.put s.mem frame (word offset) value }

def assert {σ : Type} (holds : Bool) (text : String) : EStateM Fault σ Unit :=
  if holds then pure () else throw (.assertion text)

def read_tlb : Kernel A ℕ := fun s => .ok s.cr3 s

def write_tlb (val : ℕ) : Kernel A Unit := fun s => .ok () { s.log (.wrote_cr3 val) with cr3 := val }

def flush_tlb : Kernel A Unit := do write_tlb (← read_tlb)

/-! ### Pages, kept as their numbers -/

def get_page_for_vaddr {σ : Type} (vaddr : ℕ) : EStateM Fault σ ℕ := do
  assert (vaddr < 0x0000800000000000 || vaddr ≥ 0xffff800000000000)
    "vaddr < 0x0000800000000000 || vaddr >= 0xffff800000000000"
  pure (vaddr / PAGE_SIZE)

def get_p4_index (page : ℕ) : ℕ := page >>> 27 &&& 0o777
def get_p3_index (page : ℕ) : ℕ := page >>> 18 &&& 0o777
def get_p2_index (page : ℕ) : ℕ := page >>> 9 &&& 0o777
def get_p1_index (page : ℕ) : ℕ := page &&& 0o777

/-! ### Tables, at their virtual addresses -/

/-- `&table->entries[index]`. -/
def entry_addr (table index : ℕ) : ℕ := wrap (table + 8 * index)

def set_unused (entry : ℕ) : Kernel A Unit := store entry 0x0

def init_page_table (table : ℕ) : Kernel A Unit := (List.finRange 512).forM fun i => set_unused (entry_addr table i)

def descened_page_table (table index : ℕ) : Kernel A ℕ :=
  if index ≥ 512 then pure NULL
  else do
    let entry ← load (entry_addr table index)
    if entry &&& (present_bit ||| lnot huge_bit) ≠ 0 then pure (wrap (table <<< 9) ||| index <<< 12) else pure NULL

def set_page_table_entry (entry frame flags : ℕ) : Kernel A Unit := do
  assert (lnot physical_addr_mask &&& get_frame_start_addr frame == 0)
    "((!physical_addr_mask) & get_frame_start_addr(frame)) == 0"
  store entry (get_frame_start_addr frame &&& physical_addr_mask ||| flags)

/-- The result and the frame, which is `f` as before if the entry is not present. -/
def get_physical_frame (entry f : ℕ) : Kernel A (ℤ × ℕ) := do
  let value ← load entry
  if value &&& present_bit ≠ 0 then pure (0, get_frame_for_addr (value &&& physical_addr_mask)) else pure (-1, f)

/-- The result and the frame, which is `frame` as before if no entry sets it. -/
def translate_page (page frame : ℕ) : Kernel A (ℤ × ℕ) := do
  let table ← descened_page_table p4_table (get_p4_index page)
  -- The test of a 1 GiB entry has an empty branch.
  let _ ← load (entry_addr table (get_p3_index page))
  let table ← descened_page_table table (get_p3_index page)
  let entry ← load (entry_addr table (get_p2_index page))
  if entry &&& huge_bit ≠ 0 then
    let (result, frame) ← get_physical_frame (entry_addr table (get_p2_index page)) frame
    if result ≠ 0 then pure (-1, frame) else pure (0, wrap (frame + get_p1_index page))
  else
    let table ← descened_page_table table (get_p2_index page)
    get_physical_frame (entry_addr table (get_p1_index page)) frame

/-- `f` is what the variable holds before it is set. -/
def translate (f vaddr : ℕ) : Kernel A ℕ := do
  let page ← get_page_for_vaddr vaddr
  let (_, f) ← translate_page page f
  pure (wrap (f * PAGE_SIZE + vaddr % PAGE_SIZE))

/-- The allocator stands outside this module: `alloc` gives its result, the number in
    the caller's frame and its next state. -/
def allocate_frame (alloc : A → ℤ × ℕ × A) : Kernel A (ℤ × ℕ) := fun s =>
  match alloc s.allocator with
  | (result, frame, allocator) =>
    let s := { s with allocator }
    .ok (result, frame) (if result = 0 then s.log (.allocated frame) else s)

def deallocate_frame (frame : ℕ) : Kernel A Unit := fun s => .ok () (s.log (.deallocated frame))

variable (alloc : A → ℤ × ℕ × A)

def get_next_page_table_or_create (table index : ℕ) : Kernel A ℕ := do
  let tbl ← descened_page_table table index
  if tbl = NULL then
    let (success, frame) ← allocate_frame alloc
    if success = 0 then
      set_page_table_entry (entry_addr table index) frame (present_bit ||| writeable_bit)
      flush_tlb
  descened_page_table table index

def map_page_to_frame (page frame flags : ℕ) : Kernel A Unit := do
  let p3_table ← get_next_page_table_or_create alloc p4_table (get_p4_index page)
  let p2_table ← get_next_page_table_or_create alloc p3_table (get_p3_index page)
  let p1_table ← get_next_page_table_or_create alloc p2_table (get_p2_index page)
  set_page_table_entry (entry_addr p1_table (get_p1_index page)) frame (present_bit ||| flags)

def map_page (page flags : ℕ) : Kernel A Unit := do
  let (_, frame) ← allocate_frame alloc
  map_page_to_frame alloc page frame flags

/-- With any `map` in the place of `map_page_to_frame`. -/
def identity_map_page {σ : Type} (map : ℕ → ℕ → ℕ → EStateM Fault σ Unit) (frame flags : ℕ) : EStateM Fault σ Unit := do
  let p ← get_page_for_vaddr (get_frame_start_addr frame)
  map p frame flags

/-- `f` is what the variable for the frame holds before it is set. -/
def unmap_page (f page : ℕ) : Kernel A Unit := do
  let table ← descened_page_table p4_table (get_p4_index page)
  let table ← descened_page_table table (get_p3_index page)
  let table ← descened_page_table table (get_p2_index page)
  set_unused (entry_addr table (get_p1_index page))
  let (_, frame) ← get_physical_frame (entry_addr table (get_p1_index page)) f
  deallocate_frame frame
  flush_tlb

end
end OsC.Paging
