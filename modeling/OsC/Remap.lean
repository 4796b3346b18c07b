import OsC.Recursive

/-!
The remapping of the kernel. A new hierarchy is filled through the old one:
slot 511 of the old level 4 table is redirected to the new table, the sections,
the VGA buffer and the Multiboot block are identity mapped, and the slot is
restored before the new table is loaded. Each loop maps the pages of a list
that its bounds determine (`remap_section_eq`, `remap_multiboot_eq`).
-/
namespace OsC.Remap
open OsC.Word OsC.Frames OsC.Loop OsC.Walk OsC.Multiboot OsC.Paging OsC.Recursive

/-! ### The code -/

section
variable {σ : Type} (map : ℕ → ℕ → ℕ → EStateM Fault σ Unit)

def section_flags (header : multiboot_elf_section_header) : ℕ :=
  let flags := present_bit
  let flags := if !elf_section_is_exectuable header then flags ||| no_exec_bit else flags
  if elf_section_is_writable header then flags ||| writeable_bit else flags

/-- The body of the loop over the sections. -/
def remap_section (fuel : ℕ) (header : multiboot_elf_section_header) : EStateM Fault σ Unit :=
  if !elf_section_is_allocated header then pure ()
  else do
    let addr := header.sh_addr
    let end_addr := wrap (header.sh_addr + header.sh_size - 1)
    assert (addr % PAGE_SIZE == 0) "addr % PAGE_SIZE == 0"
    assert (addr ≤ end_addr) "addr <= end_addr"
    forLoop .stuck (fun addr => addr < end_addr) (fun addr => wrap (addr + PAGE_SIZE))
      (fun addr => identity_map_page map (get_frame_for_addr addr) (section_flags header)) fuel addr

def remap_sections (fuel : ℕ) (headers : List multiboot_elf_section_header) : EStateM Fault σ Unit :=
  headers.forM (remap_section map fuel)

def remap_vga : EStateM Fault σ Unit :=
  identity_map_page map (get_frame_for_addr 0xb8000) (writeable_bit ||| present_bit ||| no_exec_bit)

/-- The end of the loop is `data.start + data.start->total_size`: the pointer has elements of 8 bytes. -/
def remap_multiboot (fuel : ℕ) (data : multiboot_data) : EStateM Fault σ Unit :=
  forLoop .stuck (fun mboot_addr => mboot_addr ≤ wrap (data.start + 8 * data.total_size))
    (fun mboot_addr => wrap (mboot_addr + PAGE_SIZE))
    (fun mboot_addr => identity_map_page map (get_frame_for_addr mboot_addr) (present_bit ||| no_exec_bit)) fuel data.start

end

section
variable {A : Type} (alloc : A → ℤ × ℕ × A)

/-- The page at which the new level 4 table is filled. -/
def new_page : ℕ := 0xdeadbeef
/-- The page at which the old level 4 table is written. -/
def old_p4_page : ℕ := 0xdddd0000

def old_p4_table : ℕ := wrap (old_p4_page * PAGE_SIZE)

/-- A new level 4 table and the old one are mapped at their pages. The result is their frames. -/
def remap_scratch : Kernel A (ℕ × ℕ) := do
  let (_, new_p4_frame) ← allocate_frame alloc
  map_page_to_frame alloc new_page new_p4_frame (present_bit ||| writeable_bit)
  let old_p4_frame := get_frame_for_addr (← read_tlb)
  map_page_to_frame alloc old_p4_page old_p4_frame (present_bit ||| writeable_bit)
  flush_tlb
  pure (new_p4_frame, old_p4_frame)

/-- The new table is cleared and gets its own slot 511. -/
def remap_clear (new_p4_frame : ℕ) : Kernel A Unit := do
  init_page_table (wrap (new_page * PAGE_SIZE))
  -- The two entries are printed.
  let _ ← load (entry_addr p4_table 511)
  let _ ← load (entry_addr old_p4_table 511)
  set_page_table_entry (wrap (new_page * PAGE_SIZE + 8 * 511)) new_p4_frame (present_bit ||| writeable_bit)

def remap_redirect (new_p4_frame : ℕ) : Kernel A Unit := do
  set_page_table_entry (entry_addr p4_table 511) new_p4_frame (present_bit ||| writeable_bit)
  let _ ← load (entry_addr p4_table 511)
  flush_tlb

/-- The mappings of the new hierarchy. -/
def remap_fill (fuel : ℕ) (data : multiboot_data) : Kernel A Unit := do
  remap_sections (map_page_to_frame alloc) fuel data.sectionheaders
  remap_vga (map_page_to_frame alloc)
  remap_multiboot (map_page_to_frame alloc) fuel data

def remap_restore (old_p4_frame : ℕ) : Kernel A Unit := do
  set_page_table_entry (entry_addr old_p4_table 511) old_p4_frame (present_bit ||| writeable_bit)
  flush_tlb
  let _ ← load (entry_addr p4_table 511)

def remap_switch (new_p4_frame : ℕ) : Kernel A Unit := do
  write_tlb (wrap (new_p4_frame * PAGE_SIZE))
  flush_tlb

/-- `f` and `g` are what the variable for a frame holds in the two calls of `unmap_page`. -/
def remap_kernel (fuel f g : ℕ) (data : multiboot_data) : Kernel A Unit := do
  let (new_p4_frame, old_p4_frame) ← remap_scratch alloc
  remap_clear new_p4_frame
  remap_redirect new_p4_frame
  remap_fill alloc fuel data
  remap_restore old_p4_frame
  unmap_page f old_p4_page
  remap_switch new_p4_frame
  -- The page of the old level 4 table becomes a guard page.
  unmap_page g old_p4_frame

end

/-! ### The loops as lists of pages -/

section
variable {σ : Type} {map : ℕ → ℕ → ℕ → EStateM Fault σ Unit}

/-- The page of a frame below 2^35 is mapped to that frame. -/
theorem identity_map_page_eq {f : ℕ} (low : f < 2 ^ 35) (flags : ℕ) : identity_map_page map f flags = map f f flags := by
  have start : get_frame_start_addr f = f * PAGE_SIZE := start_addr_eq (by omega)
  funext s
  rw [identity_map_page, start, bind_ok (get_page_for_vaddr_run (.inl (by unfold PAGE_SIZE; omega)) s)]
  rw [Nat.mul_div_cancel f (by decide)]

/-- An address that is not canonical is not mapped. -/
theorem identity_map_page_stops {f flags : ℕ} (high : f < 2 ^ 52) {s s' : σ}
    (ended : identity_map_page map f flags s = .ok () s') : Canonical (f * PAGE_SIZE) := by
  have start : get_frame_start_addr f = f * PAGE_SIZE := start_addr_eq (by omega)
  by_contra other
  have fails : (decide (f * PAGE_SIZE < 0x0000800000000000) || decide (f * PAGE_SIZE ≥ 0xffff800000000000)) = false := by
    unfold Canonical PAGE_SIZE at *
    simp only [Bool.or_eq_false_iff, decide_eq_false_iff_not]
    omega
  rw [identity_map_page, start, get_page_for_vaddr, assert, fails] at ended
  cases ended

/-- Steps of a page that do not wrap. -/
theorem next_page {addr k : ℕ} (fits : addr + 4096 * k < 2 ^ 64) :
    (fun addr : ℕ => wrap (addr + PAGE_SIZE))^[k] addr = addr + 4096 * k := by
  induction k with
  | zero => rfl
  | succ k ih =>
    rw [Function.iterate_succ_apply', ih (by omega)]
    unfold PAGE_SIZE
    exact wrap_eq (n := addr + 4096 * (k + 1)) (by push_cast; omega) (by omega)

/-- A loop over the pages from an address below 2^47 maps each to its frame. -/
theorem page_loop_eq {cond : ℕ → Bool} {addr k fuel flags : ℕ} (low : ∀ j < k, addr + 4096 * j < 2 ^ 47)
    (fits : addr < 2 ^ 63) (holds : ∀ j < k, cond (addr + 4096 * j) = true) (fails : cond (addr + 4096 * k) = false)
    (enough : k < fuel) :
    forLoop .stuck cond (fun addr => wrap (addr + PAGE_SIZE))
      (fun addr => identity_map_page map (get_frame_for_addr addr) flags) fuel addr =
    (List.range k).forM fun j => map (addr / PAGE_SIZE + j) (addr / PAGE_SIZE + j) flags := by
  have room : ∀ j ≤ k, addr + 4096 * j < 2 ^ 64 := by
    intro j le
    cases j with
    | zero => omega
    | succ j =>
      have := low j (by omega)
      omega
  have steps : ∀ j ≤ k, (fun addr : ℕ => wrap (addr + PAGE_SIZE))^[j] addr = addr + 4096 * j :=
    fun j le => next_page (room j le)
  rw [forLoop_eq_forM k fuel addr (fun j less => by rw [steps j (by omega)]; exact holds j less)
    (by rw [steps k (le_refl k)]; exact fails) enough, ← List.range_map_iterate, List.forM_map]
  refine forM_congr fun j member => ?_
  have less := List.mem_range.mp member
  have frame : get_frame_for_addr (addr + 4096 * j) = addr / PAGE_SIZE + j := by
    unfold get_frame_for_addr PAGE_SIZE
    omega
  have below : addr / PAGE_SIZE + j < 2 ^ 35 := by
    have := low j less
    unfold PAGE_SIZE
    omega
  rw [steps j (le_of_lt less), frame, identity_map_page_eq below]

/-- The pages that the loop over a section maps: those that begin below its last byte. -/
def section_count (header : multiboot_elf_section_header) : ℕ := (header.sh_size - 1 + 4095) / 4096

/-- The pages and flags that a section is mapped with. -/
def section_pages (header : multiboot_elf_section_header) : List (ℕ × ℕ) :=
  if elf_section_is_allocated header then
    (List.range (section_count header)).map fun j => (header.sh_addr / PAGE_SIZE + j, section_flags header)
  else []

/-- An allocated section lies at a page boundary, is not empty and does not wrap. -/
structure Formed (header : multiboot_elf_section_header) : Prop where
  aligned : header.sh_addr % PAGE_SIZE = 0
  nonempty : 1 ≤ header.sh_size
  fits : header.sh_addr + header.sh_size ≤ 2 ^ 64

/-- Identity maps each page of a list. -/
def map_pages (map : ℕ → ℕ → ℕ → EStateM Fault σ Unit) (pages : List (ℕ × ℕ)) : EStateM Fault σ Unit :=
  pages.forM fun page => map page.1 page.1 page.2

theorem last_byte {header : multiboot_elf_section_header} (formed : Formed header) :
    wrap (header.sh_addr + header.sh_size - 1) = header.sh_addr + header.sh_size - 1 := by
  have := formed.nonempty
  have := formed.fits
  exact wrap_eq (by omega) (by omega)

/-- The assertions of `remap_kernel` hold for a formed section, and leave its loop. -/
theorem remap_section_loop {header : multiboot_elf_section_header} (formed : Formed header)
    (allocated : elf_section_is_allocated header = true) (fuel : ℕ) :
    remap_section map fuel header =
      forLoop .stuck (fun addr => addr < header.sh_addr + header.sh_size - 1) (fun addr => wrap (addr + PAGE_SIZE))
        (fun addr => identity_map_page map (get_frame_for_addr addr) (section_flags header)) fuel header.sh_addr := by
  have order : header.sh_addr ≤ header.sh_addr + header.sh_size - 1 := by
    have := formed.nonempty
    omega
  simp only [remap_section, allocated, last_byte formed, formed.aligned, order, assert]
  rfl

theorem remap_section_eq {header : multiboot_elf_section_header} {fuel : ℕ}
    (formed : elf_section_is_allocated header = true → Formed header)
    (below : elf_section_is_allocated header = true → header.sh_addr < 2 ^ 47 ∧
      header.sh_addr + header.sh_size - 1 ≤ 2 ^ 47)
    (enough : elf_section_is_allocated header = true → section_count header < fuel) :
    remap_section map fuel header = map_pages map (section_pages header) := by
  cases allocated : elf_section_is_allocated header with
  | false => simp [remap_section, section_pages, map_pages, allocated]
  | true =>
    have formed := formed allocated
    have below := below allocated
    have aligned := formed.aligned
    unfold PAGE_SIZE at aligned
    rw [remap_section_loop formed allocated, page_loop_eq (k := section_count header) ?_ (by omega) ?_ ?_ (enough allocated)]
    · rw [map_pages, section_pages, if_pos allocated, List.forM_eq_forM, List.forM_eq_forM, List.forM_map]
    · intro j less
      unfold section_count at less
      omega
    · intro j less
      unfold section_count at less
      simp only [decide_eq_true_eq]
      omega
    · unfold section_count
      simp only [decide_eq_false_iff_not]
      omega

/-- The pages of the loop over the Multiboot block. -/
def multiboot_count (data : multiboot_data) : ℕ := 8 * data.total_size / 4096 + 1

def multiboot_pages (data : multiboot_data) : List (ℕ × ℕ) :=
  (List.range (multiboot_count data)).map fun j => (data.start / PAGE_SIZE + j, present_bit ||| no_exec_bit)

theorem remap_multiboot_eq {data : multiboot_data} {fuel : ℕ}
    (below : data.start + 8 * data.total_size / 4096 * 4096 < 2 ^ 47) (enough : multiboot_count data < fuel) :
    remap_multiboot map fuel data = map_pages map (multiboot_pages data) := by
  have last : wrap ((data.start : ℤ) + 8 * data.total_size) = data.start + 8 * data.total_size :=
    wrap_eq (by push_cast; rfl) (by omega)
  rw [remap_multiboot, last, page_loop_eq (k := multiboot_count data) ?_ (by omega) ?_ ?_ enough]
  · rw [map_pages, multiboot_pages, List.forM_eq_forM, List.forM_eq_forM, List.forM_map]
  · intro j less
    unfold multiboot_count at less
    omega
  · intro j less
    unfold multiboot_count at less
    simp only [decide_eq_true_eq]
    omega
  · unfold multiboot_count
    simp only [decide_eq_false_iff_not]
    omega

end
end OsC.Remap
