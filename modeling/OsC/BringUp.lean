import OsC.PagedHeap
import OsC.FrameRuns
import OsC.BootCode

/-!
The kernel sets up its memory: the boot code enables paging, and `init_allocator`,
`remap_kernel` and `init_heap` follow, with the frames that the kernel's own
allocator gives out. The frames of the tables and of the heap are frames given
out, which no section of the kernel has. So no page maps a table and no two pages
share a frame, if the VGA buffer and the pages that the loop over the Multiboot
block maps were not given out too (`bring_up_isolates`).
-/
namespace OsC.BringUp
open OsC.Word OsC.Frames OsC.Loop OsC.Walk OsC.Multiboot OsC.FrameAllocator OsC.FrameRuns OsC.Paging OsC.Tables OsC.PageMap
open OsC.Boot OsC.BootCode OsC.Remap OsC.Sections OsC.Redirect OsC.AddressSpace OsC.HeapPages OsC.Kmalloc OsC.HeapRuns OsC.PagedHeap

/-! ### The code -/

def init_allocator (data : multiboot_data) : Kernel frame_allocator Unit := fun s =>
  .ok () { s with allocator := FrameAllocator.init_allocator data }

/-- The steps of `kernel_main` behind `init_multiboot_data`. -/
def set_up_memory (turns fuel f g : ℕ) (data : multiboot_data) : Kernel frame_allocator Unit := do
  init_allocator data
  remap_kernel (next_frame turns) fuel f g data
  HeapPages.init_heap (next_frame turns) fuel

/-- The machine that `kernel_main` is called on. -/
def handed_over (a : frame_allocator) (c : Cpu) : Machine frame_allocator :=
  { mem := BootCode.tables c.mem, cr3 := c.cr3, allocator := a, trace := [] }

/-- From the boot code on. -/
def bring_up (i : Image) (a : frame_allocator) (turns fuel f g : ℕ) (data : multiboot_data) (c : Cpu) :
    Option (EStateM.Result Fault (Machine frame_allocator) Unit) :=
  (set_up_page_tables i 512 c).map fun c => set_up_memory turns fuel f g data (handed_over a (enable_paging i c))

/-! ### The frames given out -/

section
variable {data : multiboot_data} {a : frame_allocator} {results : List (ℤ × ℕ)}

/-- A run of calls that succeed supplies its frames, on enough turns. -/
theorem calls_supply {b : frame_allocator} (calls : Calls b results a) (works : ∀ x ∈ results, x.1 = 0) :
    ∃ least, ∀ turns ≥ least, Supplies (next_frame turns) (granted results) b := by
  induction calls with
  | nil a => exact ⟨0, fun _ _ => trivial⟩
  | @cons a b c result frame results ran rest ih =>
    obtain ⟨least, supplied⟩ := ih fun x member => works x (List.mem_cons_of_mem _ member)
    obtain rfl : result = 0 := works _ List.mem_cons_self
    obtain ⟨first, gives⟩ := next_frame_returns ran
    have one : granted ((0, frame) :: results) = frame :: granted results := by simp [granted]
    refine ⟨max least first, fun turns many => ?_⟩
    rw [one]
    exact ⟨b, gives turns (by omega), supplied turns (by omega)⟩

theorem granted_length (works : ∀ x ∈ results, x.1 = 0) : (granted results).length = results.length := by
  rw [granted, List.length_map, List.filter_eq_self.mpr (by simpa using works)]

/-- The frames of the bytes of a section that does not wrap are reserved. -/
theorem section_reserved {h : multiboot_elf_section_header} (member : h ∈ data.sectionheaders)
    (fits : h.sh_addr + h.sh_size < 2 ^ 64) {b : ℕ} (inside : InSection h b) :
    Reserved (FrameAllocator.init_allocator data) (b / PAGE_SIZE) := by
  obtain ⟨above, below⟩ := inside
  obtain ⟨low, high⟩ := (kernel_turns data.sectionheaders (UINT64_MAX, 0)).2.2 h member
  rw [wrap_eq (n := h.sh_size + h.sh_addr) (by push_cast; rfl) (by omega)] at high
  refine .inl ⟨Nat.div_le_div_right ((low (by omega)).trans above), Nat.div_le_div_right (le_trans (by omega) high)⟩

end

/-- What the kernel relies on of its image and of the memory map. -/
structure Laid (data : multiboot_data) (p4 p3 p2 : ℕ) : Prop where
  acceptable : Acceptable data
  sound : Sound data.memory_map
  /-- An address in a table has 52 bits. -/
  physical : ∀ e ∈ data.memory_map.memory_maps, 0 < e.base_addr + e.length ∧ e.base_addr + e.length ≤ 2 ^ 52
  /-- The boot tables lie in sections. -/
  image : ∀ t, t = p4 ∨ t = p3 ∨ t = p2 → ∃ h ∈ data.sectionheaders, elf_section_is_allocated h = true ∧
    h.sh_addr ≤ t * PAGE_SIZE ∧ (t + 1) * PAGE_SIZE ≤ h.sh_addr + h.sh_size

/-- The boot tables are active, and the frames of the list are clear. -/
structure Booted (data : multiboot_data) (p4 p3 p2 : ℕ) (fs : List ℕ) (s : Machine frame_allocator) : Prop extends
    Laid data p4 p3 p2 where
  tables : BootTables s.mem p4 p3 p2
  active : s.cr3 / PAGE_SIZE = p4
  zero : ∀ f ∈ fs, ∀ j, s.mem f j = 0

section
variable {data : multiboot_data} {a : frame_allocator} {results : List (ℤ × ℕ)} {p4 p3 p2 turns fuel : ℕ}
  {s : Machine frame_allocator} {fs : List ℕ}

theorem Booted.root (booted : Booted data p4 p3 p2 fs s) : s.root = p4 := by
  have low := booted.tables.low.1
  have active := booted.active
  unfold Machine.root Entry.address
  unfold PAGE_SIZE at active
  omega

/-- A frame given out ends below 2^52. -/
theorem Laid.granted_lt (laid : Laid data p4 p3 p2) (calls : Calls (FrameAllocator.init_allocator data) results a)
    {f : ℕ} (given : f ∈ granted results) : f < 2 ^ 40 := by
  obtain ⟨-, drawn⟩ := calls.drawn laid.sound (Inv.init laid.sound)
  obtain ⟨⟨⟨i, area, within⟩, -⟩, -⟩ := drawn.mem given
  obtain ⟨positive, limit⟩ := laid.physical _ (entry_mem area.1)
  have last : last_addr (entry data.memory_map i) =
      (entry data.memory_map i).base_addr + (entry data.memory_map i).length - 1 := wrap_eq (by omega) (by omega)
  unfold last_frame get_frame_for_addr PAGE_SIZE at within
  omega

theorem Laid.section_fits (laid : Laid data p4 p3 p2) {h : multiboot_elf_section_header}
    (member : h ∈ data.sectionheaders) (allocated : elf_section_is_allocated h = true) : h.sh_addr + h.sh_size < 2 ^ 64 := by
  have below := (laid.acceptable.formed member allocated).2
  omega

/-- The boot tables are not given out. -/
theorem Laid.table_reserved (laid : Laid data p4 p3 p2) {t : ℕ} (table : t = p4 ∨ t = p3 ∨ t = p2) :
    Reserved (FrameAllocator.init_allocator data) t := by
  obtain ⟨h, member, allocated, starts, ends⟩ := laid.image t table
  have inside : InSection h (t * PAGE_SIZE) := by
    unfold InSection PAGE_SIZE at *
    omega
  have reserved := section_reserved member (laid.section_fits member allocated) inside
  rwa [Nat.mul_div_cancel t (by decide)] at reserved

theorem not_reserved (calls : Calls (FrameAllocator.init_allocator data) results a) {f : ℕ} (given : f ∈ granted results) :
    ¬ Reserved (FrameAllocator.init_allocator data) f :=
  calls.not_reserved .init (mem_granted.mp given)

/-- The frames given out first are ready to be tables. -/
theorem Booted.ready (booted : Booted data p4 p3 p2 (granted results) s) (calls : Calls (FrameAllocator.init_allocator data) results a)
    (allocator : s.allocator = FrameAllocator.init_allocator data)
    (supplies : Supplies (next_frame turns) (granted results) (FrameAllocator.init_allocator data)) :
    Ready (next_frame turns) p4 (granted results) s := by
  obtain ⟨-, drawn⟩ := calls.drawn booted.sound (Inv.init booted.sound)
  refine ⟨booted.root.symm ▸ booted.tables.window, allocator.symm ▸ supplies, fun f => booted.granted_lt calls, booted.zero,
    fun f given => ⟨?_, fun table => ?_⟩, drawn.increasing.imp fun less => Nat.ne_of_lt less⟩
  · rw [booted.root]
    rintro rfl
    exact not_reserved calls given (booted.table_reserved (.inl rfl))
  · exact not_reserved calls given (booted.table_reserved (booted.tables.isTable table))

/-- The page of the boot level 4 table is mapped with its section. -/
theorem Laid.guard (laid : Laid data p4 p3 p2) : p4 ∈ (filled_pages data).map Prod.fst := by
  obtain ⟨h, member, allocated, starts, ends⟩ := laid.image p4 (.inl rfl)
  have aligned := (laid.acceptable.formed member allocated).1.aligned
  refine List.mem_map.mpr ⟨(p4, section_flags h), List.mem_append_left _ (List.mem_flatMap.mpr ⟨h, member, ?_⟩), rfl⟩
  refine mem_section_pages.mpr ⟨allocated, p4 - h.sh_addr / PAGE_SIZE, ?_, ?_, rfl⟩
  · unfold section_count PAGE_SIZE at *
    omega
  · unfold PAGE_SIZE at *
    omega

/-! ### Pages of the heap -/

theorem heap_inside {q : ℕ} (member : q ∈ heap_pages) : InHeap (q * PAGE_SIZE) := by
  have range := List.mem_range'_1.mp member
  unfold InHeap heap_start_addr heap_size PAGE_SIZE
  unfold heap_page at range
  omega

theorem heap_address {b : ℕ} (member : b / PAGE_SIZE ∈ heap_pages) : InHeap b := by
  have range := List.mem_range'_1.mp member
  unfold InHeap heap_start_addr heap_size
  unfold heap_page PAGE_SIZE at range
  omega

/-- A frame of the heap is that of one of its pages. -/
theorem mapped_frame {alloc : frame_allocator → ℤ × ℕ × frame_allocator} {gs frames : List ℕ} (heap : HeapMapped alloc gs frames s)
    {f : ℕ} (member : f ∈ frames) : ∃ q ∈ heap_pages, hardware s q = some (f, heap_flags) := by
  obtain ⟨i, less, rfl⟩ := List.mem_iff_getElem.mp member
  have length := heap.mapped.length_eq
  exact ⟨_, List.get_mem heap_pages ⟨i, by omega⟩, heap.mapped.get (by omega) less⟩

theorem mapped_of_resolve {b f offset : ℕ} (found : Walk.resolve s.mem s.root b = some (f, offset)) :
    ∃ flags, hardware s (b / PAGE_SIZE) = some (f, flags) := by
  rw [Walk.resolve] at found
  split at found
  · obtain ⟨⟨g, flags⟩, walks, same⟩ := Option.map_eq_some_iff.mp found
    cases same
    rw [hardware, indices_page, ← indices_eq_path]
    exact ⟨flags, walks⟩
  · cases found

/-! ### The run -/

/-- The address space that the kernel sets up with frames of a list. -/
structure SetUp (turns : ℕ) (data : multiboot_data) (p4 : ℕ) (fs gs frames : List ℕ) (s : Machine frame_allocator) : Prop where
  heap : HeapMapped (next_frame turns) gs frames s
  kernel : ∀ q, Usable q → q ∉ heap_pages → hardware s q =
    if q = p4 then none else (last_flags (filled_pages data) q).map fun flags => (q, present_bit ||| flags)
  given : frames ⊆ fs
  tables : ∀ t, IsTable s.mem s.root t → t ∈ fs
  next : Bytes.read (view s) heap_start_addr 8 = NULL
  size : Bytes.read (view s) (heap_start_addr + 8) 8 = heap_size

/-- If the first frames that the allocator gives out are clear, the kernel sets up its memory with them. -/
theorem set_up_memory_runs (booted : Booted data p4 p3 p2 (granted results) s)
    (calls : Calls (FrameAllocator.init_allocator data) results a) (works : ∀ x ∈ results, x.1 = 0)
    (enough : frames_needed data + 100 ≤ results.length) :
    ∃ least, ∀ turns ≥ least, ∀ fuel ≥ 2 ^ 36, ∀ f g, ∃ s' gs frames,
      set_up_memory turns fuel f g data s = .ok () s' ∧ SetUp turns data p4 (granted results) gs frames s' := by
  obtain ⟨least, supplied⟩ := calls_supply calls works
  obtain ⟨s₁, same⟩ : ∃ s₁, s₁ = { s with allocator := FrameAllocator.init_allocator data } := ⟨_, rfl⟩
  have booted₁ : Booted data p4 p3 p2 (granted results) s₁ := by
    rw [same]
    exact ⟨booted.toLaid, booted.tables, booted.active, booted.zero⟩
  have allocator : s₁.allocator = FrameAllocator.init_allocator data := by rw [same]
  have length := granted_length works
  refine ⟨least, fun turns many fuel long f g => ?_⟩
  have ready := booted₁.ready calls allocator (supplied turns many)
  obtain ⟨N, hs, s₂, ran, remapped, count, drops, tables⟩ :=
    remap_kernel_leaves booted₁.tables booted₁.active ready booted₁.acceptable booted₁.guard (by omega) long f g
  have root := remapped.root
  obtain ⟨s', gs, frames, mapped, set⟩ :=
    init_heap_sets (root.symm ▸ remapped.good) (root.symm ▸ remapped.linking) (by omega) (show 25 < fuel by omega)
  have started : init_allocator data s = .ok () s₁ := by rw [same]; rfl
  refine ⟨s', gs, frames, (bind_ok started _).trans ((bind_ok ran _).trans mapped), set.heap, fun q usable outside => ?_,
    fun t member => drops (set.given member), fun t table => ?_, set.next, set.size⟩
  · rw [set.others q usable outside, remapped.mapping q usable]
  · rcases set.tables t table with old | supplied
    · exact tables t (root ▸ old)
    · exact drops supplied

/-! ### Isolation -/

/-- No page maps a table, and no two pages map one frame. -/
structure Isolated (s : Machine frame_allocator) : Prop where
  tables : ∀ q f flags, Usable q → hardware s q = some (f, flags) → ¬ IsTable s.mem s.root f
  frames : ∀ q r f flags flags', Usable q → Usable r → hardware s q = some (f, flags) → hardware s r = some (f, flags') → q = r

/-- Neither the VGA buffer nor a page that the loop over the Multiboot block maps is among the frames.
    The loop ends at `start + 8 * total_size`, behind the block. -/
def Clear (data : multiboot_data) (fs : List ℕ) : Prop :=
  ∀ f ∈ fs, f ≠ 0xb8 ∧ ∀ j < multiboot_count data, f ≠ data.start / PAGE_SIZE + j

/-- A page that the kernel maps has no frame that is given out. -/
theorem Laid.not_filled (laid : Laid data p4 p3 p2) (calls : Calls (FrameAllocator.init_allocator data) results a)
    (clear : Clear data (granted results)) {q flags : ℕ} (filled : (q, flags) ∈ filled_pages data) : q ∉ granted results := by
  intro given
  obtain ⟨notVga, notBlock⟩ := clear q given
  rcases List.mem_append.mp filled with inSections | rest
  · obtain ⟨h, member, here⟩ := List.mem_flatMap.mp inSections
    obtain ⟨allocated, j, less, rfl, -⟩ := mem_section_pages.mp here
    obtain ⟨begins, page⟩ := section_page_begins less
    have reserved := section_reserved member (laid.section_fits member allocated) begins
    rw [page] at reserved
    exact not_reserved calls given reserved
  · rcases List.mem_cons.mp rest with vga | inBlock
    · exact notVga (congrArg Prod.fst vga)
    · obtain ⟨j, less, same⟩ := List.mem_map.mp inBlock
      exact notBlock j (List.mem_range.mp less) (congrArg Prod.fst same).symm

section
variable {gs frames : List ℕ} (setUp : SetUp turns data p4 fs gs frames s)
include setUp

/-- A mapped page is one of the heap, or is mapped to itself from the list. -/
theorem SetUp.mapped {q f flags : ℕ} (usable : Usable q) (mapped : hardware s q = some (f, flags)) :
    (q ∈ heap_pages ∧ f ∈ frames ∧ f = heap_frame frames (q * PAGE_SIZE)) ∨
      (q ∉ heap_pages ∧ f = q ∧ ∃ flags, (q, flags) ∈ filled_pages data) := by
  by_cases inHeap : q ∈ heap_pages
  · refine .inl ⟨inHeap, ?_⟩
    obtain ⟨member, walks⟩ := setUp.heap.frame (heap_inside inHeap)
    rw [Nat.mul_div_cancel q (by decide), mapped] at walks
    cases walks
    exact ⟨member, rfl⟩
  · refine .inr ⟨inHeap, ?_⟩
    rw [setUp.kernel q usable inHeap] at mapped
    split at mapped
    · cases mapped
    · obtain ⟨last, found, same⟩ := Option.map_eq_some_iff.mp mapped
      cases same
      exact ⟨rfl, last, last_flags_mem found⟩

theorem SetUp.isolated (apart : ∀ q flags, (q, flags) ∈ filled_pages data → q ∉ fs) : Isolated s := by
  constructor
  · intro q f flags usable mapped table
    rcases setUp.mapped usable mapped with ⟨-, member, -⟩ | ⟨-, rfl, last, listed⟩
    · exact (setUp.heap.apart f member).1 table
    · exact apart f last listed (setUp.tables f table)
  · intro q r f flags flags' usable usable' mapped mapped'
    rcases setUp.mapped usable mapped with ⟨inHeap, member, same⟩ | ⟨-, rfl, last, listed⟩
    · rcases setUp.mapped usable' mapped' with ⟨inHeap', -, same'⟩ | ⟨-, rfl, last, listed⟩
      · have pages := setUp.heap.page_of_frame (heap_inside inHeap) (heap_inside inHeap') (same.symm.trans same')
        rwa [Nat.mul_div_cancel q (by decide), Nat.mul_div_cancel r (by decide)] at pages
      · exact absurd (setUp.given member) (apart f last listed)
    · rcases setUp.mapped usable' mapped' with ⟨-, member, -⟩ | ⟨-, same, -⟩
      · exact absurd (setUp.given member) (apart f last listed)
      · exact same

end

/-! ### The heap in the isolated address space -/

/-- The bytes that only the frames of the heap hold are those of the heap. -/
theorem Isolated.kept {alloc : frame_allocator → ℤ × ℕ × frame_allocator} {gs frames : List ℕ} {u : Machine frame_allocator}
    (isolated : Isolated s) (heap : HeapMapped alloc gs frames s) (kept : Kept alloc gs frames s u) {b : ℕ}
    (usable : Usable (b / PAGE_SIZE)) (outside : ¬ InHeap b) : view u b = view s b := by
  have walks := kept.walks _ usable
  rw [hardware, hardware, indices_page, ← indices_eq_path] at walks
  have same : Walk.resolve u.mem u.root b = Walk.resolve s.mem s.root b := by rw [Walk.resolve, Walk.resolve, walks]
  rw [view, view, same]
  cases found : Walk.resolve s.mem s.root b with
  | none => rfl
  | some place =>
    obtain ⟨f, offset⟩ := place
    have notHeap : f ∉ frames := by
      intro member
      obtain ⟨r, inHeap, mapped'⟩ := mapped_frame heap member
      obtain ⟨flags, mapped⟩ := mapped_of_resolve found
      have page := isolated.frames _ _ f flags heap_flags usable (heap_usable inHeap) mapped mapped'
      exact outside (heap_address (page ▸ inHeap))
    simp only [kept.rows f notHeap]

/-! ### From the boot code on -/

/-- The boot tables and the frames of the list are zero before the boot code. -/
structure Zeroed (i : Image) (fs : List ℕ) (c : Cpu) : Prop where
  tables : Cleared i c.mem
  frames : ∀ f ∈ fs, ∀ b, f * 4096 ≤ b → b < f * 4096 + 4096 → c.mem b = 0

/-- The kernel relies on its image with the boot tables of `boot.s`. -/
abbrev LaidAt (data : multiboot_data) (i : Image) : Prop :=
  Laid data (i.p4_table / 4096) (i.p3_table / 4096) (i.p2_table / 4096)

variable {i : Image} {c : Cpu}

/-- The boot code stores only in its tables. -/
theorem booted_outside {m : Bytes.Memory} {b : ℕ} (p4 : b < i.p4_table ∨ i.p4_table + 4096 ≤ b)
    (p3 : b < i.p3_table ∨ i.p3_table + 4096 ≤ b) (p2 : b < i.p2_table ∨ i.p2_table + 4096 ≤ b) : booted i m b = m b := by
  rw [booted, Bytes.write_outside _ _ _ _ (by omega), filled_outside _ _ (by omega), linked,
    Bytes.write_outside _ _ _ _ (by omega), Bytes.write_outside _ _ _ _ (by omega)]

/-- Bytes of another frame lie outside a table. -/
theorem frame_apart {f b t : ℕ} (inside : f * 4096 ≤ b ∧ b < f * 4096 + 4096) (other : f ≠ t / 4096) (aligned : t % 4096 = 0) :
    b < t ∨ t + 4096 ≤ b := by
  omega

theorem boot_hands_over (b : frame_allocator) (laid : LaidAt data i) (zeroed : Zeroed i (granted results) c)
    (calls : Calls (FrameAllocator.init_allocator data) results a) : ∃ c', set_up_page_tables i 512 c = some c' ∧
      Booted data (i.p4_table / 4096) (i.p3_table / 4096) (i.p2_table / 4096) (granted results)
        (handed_over b (enable_paging i c')) := by
  obtain ⟨c', ran, mem, cr3⟩ := boot_run i c
  have boot := booted_tables zeroed.tables
  refine ⟨c', ran, laid, ?_, ?_, fun f given j => ?_⟩
  · rw [handed_over, mem]
    exact boot
  · change (enable_paging i c').cr3 / 2 ^ 12 = i.p4_table / 2 ^ 12
    rw [cr3, ← Nat.shiftRight_eq_div_pow, Nat.shiftRight_or_distrib, Nat.shiftRight_eq_div_pow, show 0b11 >>> 12 = 0 by decide,
      Nat.or_zero]
  · -- The frames that are given out are none of the tables.
    have other : ∀ t, t = i.p4_table ∨ t = i.p3_table ∨ t = i.p2_table → f ≠ t / 4096 := by
      rintro t table rfl
      refine not_reserved calls given (laid.table_reserved ?_)
      rcases table with rfl | rfl | rfl
      · exact .inl rfl
      · exact .inr (.inl rfl)
      · exact .inr (.inr rfl)
    have p4 := other _ (.inl rfl)
    have p3 := other _ (.inr (.inl rfl))
    have p2 := other _ (.inr (.inr rfl))
    have aligned := i.aligned
    change Bytes.read (enable_paging i c').mem (f * 4096 + 8 * (j : ℕ)) 8 = 0
    have small := j.isLt
    refine Bytes.read_zero 8 _ fun b above below => ?_
    have inside : f * 4096 ≤ b ∧ b < f * 4096 + 4096 := by omega
    rw [mem, booted_outside (frame_apart inside p4 aligned.1) (frame_apart inside p3 aligned.2.1)
      (frame_apart inside p2 aligned.2.2)]
    exact zeroed.frames f given b inside.1 inside.2

theorem bring_up_runs (b : frame_allocator) (laid : LaidAt data i) (zeroed : Zeroed i (granted results) c)
    (calls : Calls (FrameAllocator.init_allocator data) results a) (works : ∀ x ∈ results, x.1 = 0)
    (enough : frames_needed data + 100 ≤ results.length) :
    ∃ least, ∀ turns ≥ least, ∀ fuel ≥ 2 ^ 36, ∀ f g, ∃ s' gs frames,
      bring_up i b turns fuel f g data c = some (.ok () s') ∧
        SetUp turns data (i.p4_table / 4096) (granted results) gs frames s' := by
  obtain ⟨c', ran, booted⟩ := boot_hands_over b laid zeroed calls
  obtain ⟨least, runs⟩ := set_up_memory_runs booted calls works enough
  refine ⟨least, fun turns many fuel long f g => ?_⟩
  obtain ⟨s', gs, frames, set, setUp⟩ := runs turns many fuel long f g
  exact ⟨s', gs, frames, by rw [bring_up, ran, Option.map_some, set], setUp⟩

/-- If the first frames that the allocator gives out are zero, the kernel comes from the boot code through the
    set-up of its memory, and its address space is the one that the sections, the VGA buffer, the Multiboot
    block and the heap determine. -/
theorem bring_up_maps (b : frame_allocator) (laid : LaidAt data i) (zeroed : Zeroed i (granted results) c)
    (calls : Calls (FrameAllocator.init_allocator data) results a) (works : ∀ x ∈ results, x.1 = 0)
    (enough : frames_needed data + 100 ≤ results.length) :
    ∃ least, ∀ turns ≥ least, ∃ steps, ∀ fuel ≥ steps, ∀ f g, ∃ s' gs frames,
      bring_up i b turns fuel f g data c = some (.ok () s') ∧
        SetUp turns data (i.p4_table / 4096) (granted results) gs frames s' := by
  obtain ⟨least, runs⟩ := bring_up_runs b laid zeroed calls works enough
  exact ⟨least, fun turns many => ⟨2 ^ 36, runs turns many⟩⟩

/-- Where the frames given out are clear of what the kernel maps besides its sections, the address space
    that it sets up is isolated. -/
theorem bring_up_isolates (b : frame_allocator) (laid : LaidAt data i) (zeroed : Zeroed i (granted results) c)
    (calls : Calls (FrameAllocator.init_allocator data) results a) (works : ∀ x ∈ results, x.1 = 0)
    (enough : frames_needed data + 100 ≤ results.length) (clear : Clear data (granted results)) :
    ∃ least, ∀ turns ≥ least, ∃ steps, ∀ fuel ≥ steps, ∀ f g, ∃ s',
      bring_up i b turns fuel f g data c = some (.ok () s') ∧ Isolated s' := by
  obtain ⟨least, runs⟩ := bring_up_runs b laid zeroed calls works enough
  refine ⟨least, fun turns many => ⟨2 ^ 36, fun fuel long f g => ?_⟩⟩
  obtain ⟨s', _, _, ran, setUp⟩ := runs turns many fuel long f g
  exact ⟨s', ran, setUp.isolated fun q flags listed => laid.not_filled calls clear listed⟩

/-- After the set-up every session of heap calls runs through the page tables without a fault, and changes
    no byte outside the heap and no mapping. -/
theorem bring_up_confines (b : frame_allocator) (laid : LaidAt data i) (zeroed : Zeroed i (granted results) c)
    (calls : Calls (FrameAllocator.init_allocator data) results a) (works : ∀ x ∈ results, x.1 = 0)
    (enough : frames_needed data + 100 ≤ results.length) (clear : Clear data (granted results)) :
    ∃ least, ∀ turns ≥ least, ∃ steps, ∀ fuel ≥ steps, ∀ f g, ∃ u,
      bring_up i b turns fuel f g data c = some (.ok () u) ∧
        ∀ less cs s', Session less ⟨Kmalloc.init_heap (view u), []⟩ cs s' →
          ∃ p, cs.foldlM (perform less) ⟨u, heap_start_addr, []⟩ = some p ∧ p.live = s'.live ∧
            (∀ a, InHeap a → view p.machine a = s'.heap.mem a) ∧
            (∀ a, Usable (a / PAGE_SIZE) → ¬ InHeap a → view p.machine a = view u a) ∧
            ∀ q, Usable q → hardware p.machine q = hardware u q := by
  obtain ⟨least, runs⟩ := bring_up_runs b laid zeroed calls works enough
  refine ⟨least, fun turns many => ⟨2 ^ 36, fun fuel long f g => ?_⟩⟩
  obtain ⟨u, gs, frames, ran, setUp⟩ := runs turns many fuel long f g
  have isolated := setUp.isolated fun q flags listed => laid.not_filled calls clear listed
  refine ⟨u, ran, fun less cs s' session => ?_⟩
  obtain ⟨p, ran', sim⟩ := session_runs setUp.heap setUp.next setUp.size session
  exact ⟨p, ran', sim.live, sim.memory, fun a usable outside => isolated.kept setUp.heap sim.kept usable outside, sim.kept.walks⟩

end

/-! ### A run -/

/-- Calls over frames of the current area that are not skipped. -/
theorem calls_row {a : frame_allocator} {n : ℕ} (going : a.entry_index ≠ a.num_entries)
    (within : ∀ i < n, a.next_free_frame + i ≤ last_frame a.mem_map a.entry_index)
    (free : ∀ i < n, ¬ Reserved a (a.next_free_frame + i)) :
    ∃ b, Calls a ((List.range' a.next_free_frame n).map fun f => (0, f)) b := by
  induction n generalizing a with
  | zero => exact ⟨a, .nil a⟩
  | succ n ih =>
    have here := within 0 (by omega)
    have next := advance_next here
    have turn : Returns allocate_turn a (0, a.next_free_frame, advance a) := by
      rcases turn_cases a with ⟨ended, _⟩ | ⟨_, past, _⟩ | ⟨_, _, reserved, _⟩ | ⟨_, _, _, turn⟩
      · exact absurd ended going
      · exact absurd here (by omega)
      · exact absurd reserved (free 0 (by omega))
      · exact .of_inr turn
    obtain ⟨b, rest⟩ := ih (a := advance a) going
      (fun i less => by have := within (i + 1) (by omega); rw [next, Nat.add_assoc, Nat.add_comm 1 i]; exact this)
      (fun i less => by have := free (i + 1) (by omega); rw [next, Nat.add_assoc, Nat.add_comm 1 i]; exact this)
    rw [next] at rest
    exact ⟨b, .cons turn rest⟩

/-- A kernel with the boot tables in its first section, below the Multiboot block. -/
def low_memory : multiboot_data where
  start := 0x121000
  total_size := 0x4b8
  memory_map :=
    { size := 69
      entry_size := 26
      memory_maps := [{ base_addr := 0x1800, length := 0x9d800, type := 1 },
        { base_addr := 0x112000, length := 0x7ede000, type := 1 }] }
  sectionheaders :=
    [{ sh_flags := shf_alloc ||| shf_write, sh_addr := 0x103000, sh_size := 0x5028 },
     { sh_flags := shf_alloc ||| shf_execinstr, sh_addr := 0x10a000, sh_size := 0x2218 }]

def low_image : Image where
  p4_table := 0x104000
  p3_table := 0x105000
  p2_table := 0x106000
  aligned := by decide
  distinct := by decide
  low := by decide

/-- The first calls. -/
def low_results : List (ℤ × ℕ) := (List.range' 0 149).map fun f => (0, f)

theorem low_calls : ∃ a, Calls (FrameAllocator.init_allocator low_memory) low_results a := by
  have last : last_frame low_memory.memory_map 0 = 0x9e := by decide
  refine calls_row (a := FrameAllocator.init_allocator low_memory) (by decide) (fun i less => ?_) fun i less => ?_
  · exact le_trans (show 0 + i ≤ 0x9e by omega) (le_of_eq last.symm)
  · have kernel : (FrameAllocator.init_allocator low_memory).kernel_start = 0x103 := by decide
    have block : (FrameAllocator.init_allocator low_memory).multiboot_start = 0x121 := by decide
    have next : (FrameAllocator.init_allocator low_memory).next_free_frame = 0 := rfl
    unfold Reserved
    omega

theorem low_granted {f : ℕ} (given : f ∈ granted low_results) : f < 149 := by
  obtain ⟨g, member, same⟩ := List.mem_map.mp (mem_granted.mp given)
  cases same
  exact (List.mem_range'_1.mp member).2.trans_le (by omega)

theorem low_laid : LaidAt low_memory low_image where
  acceptable := by
    refine ⟨fun h member _ => ?_, by decide⟩
    rcases List.mem_cons.mp member with rfl | member
    · decide
    · obtain rfl := List.mem_singleton.mp member
      decide
  sound := by
    refine ⟨by decide, List.pairwise_pair.mpr ?_⟩
    rintro b ⟨_, _⟩ ⟨_, _⟩
    simp only at *
    omega
  physical := by decide
  image := by
    rintro t table
    refine ⟨_, List.mem_cons_self, by decide, ?_⟩
    rcases table with rfl | rfl | rfl <;> decide

theorem low_zeroed : Zeroed low_image (granted low_results) zeroed :=
  ⟨fun _ _ _ _ _ => rfl, fun _ _ _ _ _ => rfl⟩

theorem low_clear : Clear low_memory (granted low_results) := by
  intro f given
  have low := low_granted given
  refine ⟨by omega, fun j _ => ?_⟩
  have start : low_memory.start / PAGE_SIZE = 0x121 := by decide
  omega

theorem low_works : ∀ x ∈ low_results, x.1 = 0 := by
  rintro x member
  obtain ⟨f, -, rfl⟩ := List.mem_map.mp member
  rfl

theorem low_enough : frames_needed low_memory + 100 ≤ low_results.length := by
  have needed : frames_needed low_memory = 46 := by decide
  rw [needed, low_results, List.length_map, List.length_range']
  decide

theorem bring_up_maps_low : ∃ a least, ∀ turns ≥ least, ∃ steps, ∀ fuel ≥ steps, ∀ f g, ∃ s' gs frames,
    bring_up low_image a turns fuel f g low_memory zeroed = some (.ok () s') ∧
      SetUp turns low_memory 0x104 (granted low_results) gs frames s' := by
  obtain ⟨a, calls⟩ := low_calls
  exact ⟨a, bring_up_maps a low_laid low_zeroed calls low_works low_enough⟩

theorem bring_up_isolates_low : ∃ a least, ∀ turns ≥ least, ∃ steps, ∀ fuel ≥ steps, ∀ f g, ∃ s',
    bring_up low_image a turns fuel f g low_memory zeroed = some (.ok () s') ∧ Isolated s' := by
  obtain ⟨a, calls⟩ := low_calls
  exact ⟨a, bring_up_isolates a low_laid low_zeroed calls low_works low_enough low_clear⟩

theorem bring_up_confines_low : ∃ a least, ∀ turns ≥ least, ∃ steps, ∀ fuel ≥ steps, ∀ f g, ∃ u,
    bring_up low_image a turns fuel f g low_memory zeroed = some (.ok () u) ∧
      ∀ less cs s', Session less ⟨Kmalloc.init_heap (view u), []⟩ cs s' →
        ∃ p, cs.foldlM (perform less) ⟨u, heap_start_addr, []⟩ = some p ∧ p.live = s'.live ∧
          (∀ a, InHeap a → view p.machine a = s'.heap.mem a) ∧
          (∀ a, Usable (a / PAGE_SIZE) → ¬ InHeap a → view p.machine a = view u a) ∧
          ∀ q, Usable q → hardware p.machine q = hardware u q := by
  obtain ⟨a, calls⟩ := low_calls
  exact ⟨a, bring_up_confines a low_laid low_zeroed calls low_works low_enough low_clear⟩

end OsC.BringUp
