import OsC.Programs
import OsC.Kmalloc
import OsC.AddressSpace
import Mathlib.Data.List.Forall2
import Mathlib.Data.List.GetD
import Mathlib.Data.List.Nodup

/-!
The heap behind the page tables. `init_heap` maps its pages to frames that are
distinct and no tables (`init_heap_run`). What is loaded and stored at the
addresses of the heap from then on, byte by byte over the walk of each address,
is a flat memory, and changes no walk (`heap_shows`).
-/
namespace OsC.HeapPages
open OsC.Word OsC.Frames OsC.Loop OsC.Entry OsC.Radix OsC.Walk OsC.Paging OsC.Recursive OsC.Tables OsC.PageMap
open OsC.Redirect OsC.Access OsC.AddressSpace OsC.Kmalloc OsC.Programs

section
variable {A : Type} {alloc : A → ℤ × ℕ × A} {s s' : Machine A} {top : ℕ} {fs fs' : List ℕ}

/-! ### The code -/

/-- The loop of `init_heap`. -/
def map_heap (alloc : A → ℤ × ℕ × A) (fuel : ℕ) : Kernel A Unit :=
  forLoop .stuck (fun addr => addr < heap_start_addr + heap_size) (fun addr => wrap (addr + PAGE_SIZE))
    (fun addr => do
      let page ← get_page_for_vaddr addr
      map_page alloc page (present_bit ||| writeable_bit)) fuel heap_start_addr

/-- `free_list_head` is an address, its fields `next` and `size` are words of the first page. -/
def init_heap (alloc : A → ℤ × ℕ × A) (fuel : ℕ) : Kernel A Unit := do
  map_heap alloc fuel
  store heap_start_addr NULL
  store (wrap (heap_start_addr + 8)) heap_size

/-! ### Mapping pages to supplied frames -/

/-- A page is mapped to the first frame of the supply; frames that are neither tables nor supplied are left alone. -/
theorem map_page_keep {page flags f : ℕ} (good : Good alloc top (f :: fs) s) (linking : Linking s.mem top)
    (usable : Usable page) (enough : 3 ≤ fs.length) (noAddress : flags &&& physical_addr_mask = 0) :
    ∃ s' gs, map_page alloc page flags s = .ok () s' ∧ s'.cr3 = s.cr3 ∧ Good alloc top gs s' ∧ Linking s'.mem top ∧
      gs ⊆ fs ∧ fs.length ≤ gs.length + 3 ∧
      (∀ g, ¬ IsTable s.mem top g → g ∉ fs → ¬ IsTable s'.mem top g ∧ ∀ j, s'.mem g j = s.mem g j) ∧
      ∀ q, Usable q → walk s'.mem top (path q) =
        if q = page then some (f, present_bit ||| flags) else walk s.mem top (path q) := by
  obtain ⟨a, taken, good₁⟩ := Good.taken good
  obtain ⟨s₁, same⟩ : ∃ s₁, s₁ = logs { s with allocator := a } [.allocated f] := ⟨_, rfl⟩
  rw [← same] at taken good₁
  have mem : s₁.mem = s.mem := by rw [same]; rfl
  have cr3 : s₁.cr3 = s.cr3 := by rw [same]; rfl
  have linking₁ : Linking s₁.mem top := by rw [mem]; exact linking
  have fits : f < 2 ^ 40 := good.fits f List.mem_cons_self
  obtain ⟨s', gs, ran, changed, count⟩ := map_plain_run good₁ ordinary_closed (fun _ inside => inside) linking₁.plain
    usable.ordinary enough fits noAddress
  obtain ⟨events, grown, drawn⟩ := changed.grown
  refine ⟨s', gs, ?_, grown.cr3.trans cr3, changed.good, map_links good₁ linking₁ usable.ordinary enough fits ran, ?_, count,
    fun g outside unsupplied => ?_, fun q inside => ?_⟩
  · exact (bind_ok taken _).trans ran
  · rw [drawn]
    exact List.subset_append_right _ _
  · rw [← mem] at outside
    obtain ⟨apart, row, -⟩ := Grown.foreign grown drawn outside unsupplied
    exact ⟨apart, fun j => by rw [row, mem]⟩
  · rw [changed.walks q inside.ordinary, mem]
    exact if_congr ⟨fun same => inside.eq_of_path usable same, fun same => same ▸ rfl⟩ rfl rfl

/-- The pages of a list are mapped to distinct frames of the supply that do not become tables. -/
theorem map_page_list {pages : List ℕ} {flags : ℕ} (good : Good alloc top fs s) (linking : Linking s.mem top)
    (distinct : pages.Nodup) (usable : ∀ page ∈ pages, Usable page) (enough : 4 * pages.length ≤ fs.length)
    (noAddress : flags &&& physical_addr_mask = 0) :
    ∃ s' gs frames, pages.forM (fun page => map_page alloc page flags) s = .ok () s' ∧ s'.cr3 = s.cr3 ∧
      Good alloc top gs s' ∧ Linking s'.mem top ∧ gs ⊆ fs ∧ fs.length ≤ gs.length + 4 * pages.length ∧
      frames ⊆ fs ∧ frames.Nodup ∧ (∀ f ∈ frames, ¬ IsTable s'.mem top f ∧ f ∉ gs) ∧
      (∀ g, ¬ IsTable s.mem top g → g ∉ fs → ¬ IsTable s'.mem top g ∧ ∀ j, s'.mem g j = s.mem g j) ∧
      List.Forall₂ (fun page f => walk s'.mem top (path page) = some (f, present_bit ||| flags)) pages frames ∧
      ∀ q, Usable q → q ∉ pages → walk s'.mem top (path q) = walk s.mem top (path q) := by
  induction pages generalizing s fs with
  | nil =>
    exact ⟨s, fs, [], rfl, rfl, good, linking, fun _ member => member, Nat.le_add_right _ _, by simp, List.nodup_nil, by simp,
      fun _ outside _ => ⟨outside, fun _ => rfl⟩, .nil, fun _ _ _ => rfl⟩
  | cons page pages ih =>
    rw [List.length_cons] at enough ⊢
    obtain ⟨f, fs, rfl⟩ := List.exists_cons_of_length_pos (show 0 < fs.length by omega)
    rw [List.length_cons] at enough ⊢
    obtain ⟨notIn, distinct⟩ := List.nodup_cons.mp distinct
    obtain ⟨notLater, _⟩ := List.nodup_cons.mp good.distinct
    have pageUsable := usable page List.mem_cons_self
    obtain ⟨s₁, gs, ran, cr3, good₁, linking₁, sub, count, foreign, walks⟩ :=
      map_page_keep good linking pageUsable (by omega) noAddress
    obtain ⟨s', hs, frames, rest, cr3', good', linking', sub', count', drawn, nodup, apart, foreign', mapped, others⟩ :=
      ih good₁ linking₁ distinct (fun p member => usable p (List.mem_cons_of_mem page member)) (by omega)
    have outside := (good.fresh f List.mem_cons_self).2
    have later : f ∉ gs := fun member => notLater (sub member)
    refine ⟨s', hs, f :: frames, (bind_ok ran _).trans rest, cr3'.trans cr3, good', linking',
      fun g member => List.mem_cons_of_mem f (sub (sub' member)), by omega, ?_, ?_, ?_, ?_, .cons ?_ mapped, ?_⟩
    · intro g member
      rcases List.mem_cons.mp member with rfl | member
      · exact List.mem_cons_self
      · exact List.mem_cons_of_mem f (sub (drawn member))
    · exact List.nodup_cons.mpr ⟨fun member => later (drawn member), nodup⟩
    · intro g member
      rcases List.mem_cons.mp member with rfl | member
      · exact ⟨(foreign' g (foreign g outside notLater).1 later).1, fun left => later (sub' left)⟩
      · exact apart g member
    · intro g outside unsupplied
      obtain ⟨notTail, notHead⟩ : g ∉ fs ∧ g ≠ f := by
        simp only [List.mem_cons, not_or] at unsupplied
        exact ⟨unsupplied.2, unsupplied.1⟩
      obtain ⟨first, row⟩ := foreign g outside notTail
      obtain ⟨second, row'⟩ := foreign' g first fun member => notTail (sub member)
      exact ⟨second, fun j => (row' j).trans (row j)⟩
    · rw [others page pageUsable notIn, walks page pageUsable, if_pos rfl]
    · intro q inside notListed
      simp only [List.mem_cons, not_or] at notListed
      rw [others q inside notListed.2, walks q inside, if_neg notListed.1]

/-! ### The mapped heap -/

def heap_page : ℕ := 0x40000
def heap_pages : List ℕ := List.range' heap_page 25

/-- The rights of a heap page. -/
def heap_flags : ℕ := present_bit ||| (present_bit ||| writeable_bit)

/-- The pages of the heap are mapped to distinct frames that are neither tables nor supplied. -/
structure HeapMapped (alloc : A → ℤ × ℕ × A) (fs frames : List ℕ) (s : Machine A) : Prop where
  good : Good alloc s.root fs s
  linking : Linking s.mem s.root
  distinct : frames.Nodup
  apart : ∀ f ∈ frames, ¬ IsTable s.mem s.root f ∧ f ∉ fs
  mapped : List.Forall₂ (fun page f => hardware s page = some (f, heap_flags)) heap_pages frames

theorem heap_usable {page : ℕ} (member : page ∈ heap_pages) : Usable page := by
  have range := List.mem_range'_1.mp member
  unfold heap_page at range
  exact low_usable (by omega)

/-- On enough steps the loop of `init_heap` maps the pages of the heap in order. -/
theorem map_heap_eq {fuel : ℕ} (enough : 25 < fuel) :
    map_heap alloc fuel = heap_pages.forM fun page => map_page alloc page (present_bit ||| writeable_bit) := by
  have start : heap_start_addr = 1073741824 := rfl
  have size : heap_size = 102400 := rfl
  have steps : ∀ j ≤ 25, (fun addr : ℕ => wrap (addr + PAGE_SIZE))^[j] heap_start_addr = heap_start_addr + 4096 * j :=
    fun j le => Remap.next_page (by omega)
  rw [map_heap, forLoop_eq_forM 25 fuel heap_start_addr ?_ ?_ enough, ← List.range_map_iterate, List.forM_map, heap_pages,
    List.range'_eq_map_range, List.forM_eq_forM, List.forM_map]
  · refine forM_congr fun j member => ?_
    have less := List.mem_range.mp member
    have canonical : Canonical (heap_start_addr + 4096 * j) := .inl (by omega)
    have page : (heap_start_addr + 4096 * j) / PAGE_SIZE = heap_page + j := by
      unfold PAGE_SIZE heap_page
      omega
    funext s
    rw [steps j (by omega), bind_ok (get_page_for_vaddr_run canonical s), page]
  · intro j less
    rw [steps j (by omega)]
    simp only [decide_eq_true_eq]
    omega
  · rw [steps 25 (le_refl 25)]
    simp only [decide_eq_false_iff_not]
    omega

/-- The frame of an address of the heap. -/
def heap_frame (frames : List ℕ) (a : ℕ) : ℕ := frames.getD (a / PAGE_SIZE - heap_page) 0

def InHeap (a : ℕ) : Prop := heap_start_addr ≤ a ∧ a < heap_start_addr + heap_size

instance (a : ℕ) : Decidable (InHeap a) := inferInstanceAs (Decidable (_ ∧ _))

section
variable {frames : List ℕ} {a b : ℕ}

theorem InHeap.page (inside : InHeap a) : heap_page ≤ a / PAGE_SIZE ∧ a / PAGE_SIZE < heap_page + 25 := by
  unfold InHeap heap_start_addr heap_size at inside
  unfold heap_page PAGE_SIZE
  omega

theorem HeapMapped.frame (heap : HeapMapped alloc fs frames s) (inside : InHeap a) :
    heap_frame frames a ∈ frames ∧ hardware s (a / PAGE_SIZE) = some (heap_frame frames a, heap_flags) := by
  have range := inside.page
  have length : frames.length = 25 := heap.mapped.length_eq.symm
  have index : a / PAGE_SIZE - heap_page < frames.length := by omega
  have listed : a / PAGE_SIZE - heap_page < heap_pages.length := by
    rw [heap_pages, List.length_range']
    omega
  have mapped := heap.mapped.get listed index
  have page : heap_pages.get ⟨a / PAGE_SIZE - heap_page, listed⟩ = a / PAGE_SIZE := by
    simp only [heap_pages, List.get_eq_getElem, List.getElem_range']
    omega
  have frame : heap_frame frames a = frames[a / PAGE_SIZE - heap_page] := List.getD_eq_getElem _ _ index
  rw [frame]
  refine ⟨List.getElem_mem index, ?_⟩
  rw [page] at mapped
  exact mapped

/-- Two addresses of the heap with one frame lie in one page. -/
theorem HeapMapped.page_of_frame (heap : HeapMapped alloc fs frames s) (left : InHeap a) (right : InHeap b)
    (same : heap_frame frames a = heap_frame frames b) : a / PAGE_SIZE = b / PAGE_SIZE := by
  have leftRange := left.page
  have rightRange := right.page
  have length : frames.length = 25 := heap.mapped.length_eq.symm
  rw [heap_frame, heap_frame, List.getD_eq_getElem _ _ (by omega), List.getD_eq_getElem _ _ (by omega)] at same
  have := (List.Nodup.getElem_inj_iff heap.distinct).mp same
  omega

theorem HeapMapped.resolve (heap : HeapMapped alloc fs frames s) (inside : InHeap a) :
    resolve s.mem s.root a = some (heap_frame frames a, a % 4096) := by
  have mapped := (heap.frame inside).2
  have canonical : Canonical a := by
    unfold InHeap heap_start_addr heap_size at inside
    exact .inl (by omega)
  rw [hardware, indices_page] at mapped
  rw [Walk.resolve, if_pos canonical, indices_eq_path, mapped]
  rfl

/-- Only frames of the heap change: the heap stays mapped, and no walk changes and no table. -/
theorem HeapMapped.same (heap : HeapMapped alloc fs frames s) (cr3 : s'.cr3 = s.cr3) (allocator : s'.allocator = s.allocator)
    (row : ∀ t, t ∉ frames → ∀ i, s'.mem t i = s.mem t i) :
    HeapMapped alloc fs frames s' ∧ (∀ q, Usable q → hardware s' q = hardware s q) ∧
      ∀ t, IsTable s'.mem s'.root t ↔ IsTable s.mem s.root t := by
  have root : s'.root = s.root := by rw [Machine.root, Machine.root, cr3]
  have tables : ∀ t, IsTable s.mem s.root t → ∀ i, s'.mem t i = s.mem t i :=
    fun t table => row t fun inHeap => (heap.apart t inHeap).1 table
  have same : SameTables s.root s.mem s'.mem := fun t i table _ => tables t table i
  have walks : ∀ q, Usable q → hardware s' q = hardware s q := by
    intro q usable
    rw [hardware, hardware, root, indices_page, same.walk heap.good.tree usable.ordinary]
  have slot : next (s'.mem s.root 511) = some s.root :=
    (congrArg next (tables s.root (isTable_top _ _) 511)).trans heap.good.window.inner
  have good : Good alloc s.root fs s' := by
    refine Good.activates heap.good same root (allocator ▸ heap.good.supplies) slot fun f member j => ?_
    rw [row f (fun inHeap => (heap.apart f inHeap).2 member)]
    exact heap.good.zero f member j
  refine ⟨⟨root ▸ good, root ▸ Linking.same heap.linking same heap.good.tree, heap.distinct, fun f inHeap => ?_, ?_⟩, walks, fun t => ?_⟩
  · obtain ⟨notTable, notSupplied⟩ := heap.apart f inHeap
    refine ⟨fun table => notTable ((same.isTable heap.good.tree).mp ?_), notSupplied⟩
    rwa [root] at table
  · refine ((List.forall₂_and_left _ _).mpr ⟨fun page => heap_usable, heap.mapped⟩).imp ?_
    rintro page f ⟨usable, mapped⟩
    rw [walks page usable, mapped]
  · rw [root]
    exact same.isTable heap.good.tree

/-! ### Bytes of the heap -/

def load_byte (vaddr : ℕ) : Kernel A UInt8 := fun s =>
  match Walk.resolve s.mem s.root vaddr with
  | none => .error (.page_fault vaddr) s
  | some (frame, offset) =>
    .ok (Bytes.byte (s.mem frame (word offset)) (offset % 8)) (s.log (.load vaddr frame (word offset)))

def store_byte (vaddr : ℕ) (v : UInt8) : Kernel A Unit := fun s =>
  match Walk.resolve s.mem s.root vaddr with
  | none => .error (.page_fault vaddr) s
  | some (frame, offset) =>
    .ok () { s.log (.store vaddr frame (word offset)) with
      mem := Radix.put s.mem frame (word offset) (Bytes.set_byte (s.mem frame (word offset)) (offset % 8) v) }

/-- The bytes at the addresses that the machine translates. -/
def bytes : Device Fault (Machine A) := ⟨load_byte, store_byte⟩

/-- The memory at virtual addresses. -/
def view (s : Machine A) : Bytes.Memory := fun a =>
  match Walk.resolve s.mem s.root a with
  | none => 0
  | some (frame, offset) => Bytes.byte (s.mem frame (word offset)) (offset % 8)

theorem HeapMapped.view (heap : HeapMapped alloc fs frames s) (inside : InHeap a) :
    view s a = Bytes.byte (s.mem (heap_frame frames a) (word (a % 4096))) (a % 8) := by
  have offset : a % 4096 % 8 = a % 8 := Nat.mod_mod_of_dvd a (by decide)
  simp only [HeapPages.view, heap.resolve inside, offset]

/-- Two addresses of the heap with one frame, word and byte are the same. -/
theorem HeapMapped.address (heap : HeapMapped alloc fs frames s) (left : InHeap a) (right : InHeap b)
    (frame : heap_frame frames a = heap_frame frames b) (here : word (a % 4096) = word (b % 4096)) (same : a % 8 = b % 8) :
    a = b := by
  have page := heap.page_of_frame left right frame
  have index : a % 4096 / 8 % 512 = b % 4096 / 8 % 512 := congrArg Fin.val here
  unfold PAGE_SIZE at page
  omega

/-- Since the machine `s` only the frames of the heap have changed. -/
structure Kept (alloc : A → ℤ × ℕ × A) (fs frames : List ℕ) (s u : Machine A) : Prop where
  mapped : HeapMapped alloc fs frames u
  root : u.root = s.root
  walks : ∀ q, Usable q → hardware u q = hardware s q
  rows : ∀ t, t ∉ frames → ∀ i, u.mem t i = s.mem t i

theorem Kept.refl (heap : HeapMapped alloc fs frames s) : Kept alloc fs frames s s :=
  ⟨heap, rfl, fun _ _ => rfl, fun _ _ _ => rfl⟩

theorem Kept.same {u : Machine A} (kept : Kept alloc fs frames s u) (cr3 : s'.cr3 = u.cr3) (allocator : s'.allocator = u.allocator)
    (row : ∀ t, t ∉ frames → ∀ i, s'.mem t i = u.mem t i) : Kept alloc fs frames s s' := by
  obtain ⟨mapped, walks, -⟩ := kept.mapped.same cr3 allocator row
  have root : s'.root = u.root := by rw [Machine.root, Machine.root, cr3]
  exact ⟨mapped, root.trans kept.root, fun q usable => (walks q usable).trans (kept.walks q usable),
    fun t outside i => (row t outside i).trans (kept.rows t outside i)⟩

/-- The heap on its pages is a flat memory, and its loads and stores change no walk. -/
theorem heap_shows (alloc : A → ℤ × ℕ × A) (fs frames : List ℕ) (s : Machine A) :
    Shows bytes InHeap (Kept alloc fs frames s) HeapPages.view := by
  constructor
  · intro u a kept inside
    have mapped := kept.mapped
    obtain ⟨u', same⟩ : ∃ u', u' = u.log (.load a (heap_frame frames a) (word (a % 4096))) := ⟨_, rfl⟩
    have cr3 : u'.cr3 = u.cr3 := by rw [same]; rfl
    have allocator : u'.allocator = u.allocator := by rw [same]; rfl
    refine ⟨u', ?_, kept.same cr3 allocator (fun t _ i => by rw [same]; rfl), ?_⟩
    · have offset : a % 4096 % 8 = a % 8 := Nat.mod_mod_of_dvd a (by decide)
      rw [mapped.view inside, same]
      simp only [bytes, load_byte, mapped.resolve inside, offset]
    · intro b _
      rw [same]
      rfl
  · intro u a v kept inside
    have mapped := kept.mapped
    obtain ⟨u', same⟩ : ∃ u' : Machine A, u' = { u.log (.store a (heap_frame frames a) (word (a % 4096))) with
        mem := Radix.put u.mem (heap_frame frames a) (word (a % 4096))
          (Bytes.set_byte (u.mem (heap_frame frames a) (word (a % 4096))) (a % 8) v) } := ⟨_, rfl⟩
    have inFrames := (mapped.frame inside).1
    have cr3 : u'.cr3 = u.cr3 := by rw [same]; rfl
    have allocator : u'.allocator = u.allocator := by rw [same]; rfl
    have kept' : Kept alloc fs frames s u' := kept.same cr3 allocator fun t outside i => by
      rw [same]
      refine put_row ?_ i
      rintro rfl
      exact outside inFrames
    refine ⟨u', ?_, kept', ?_⟩
    · have offset : a % 4096 % 8 = a % 8 := Nat.mod_mod_of_dvd a (by decide)
      rw [same]
      simp only [bytes, store_byte, mapped.resolve inside, offset]
    · intro b inside'
      have mem : u'.mem = Radix.put u.mem (heap_frame frames a) (word (a % 4096))
          (Bytes.set_byte (u.mem (heap_frame frames a) (word (a % 4096))) (a % 8) v) := by rw [same]
      rw [kept'.mapped.view inside', mem]
      unfold Bytes.set
      by_cases here : heap_frame frames b = heap_frame frames a ∧ word (b % 4096) = word (a % 4096)
      · rw [here.1, here.2, put_same]
        by_cases byte : b % 8 = a % 8
        · obtain rfl := mapped.address inside' inside here.1 here.2 byte
          rw [if_pos rfl, Bytes.byte_set_byte]
        · rw [if_neg (fun equal => byte (congrArg (· % 8) equal)), Bytes.byte_set_byte_other _ _ byte, mapped.view inside', here.1,
            here.2]
      · rw [put_other here, if_neg ?_, mapped.view inside']
        rintro rfl
        exact here ⟨rfl, rfl⟩

/-- The bytes of an aligned word. -/
theorem HeapMapped.read_word (heap : HeapMapped alloc fs frames s) (inside : InHeap a) (aligned : a % 8 = 0) {w : ℕ}
    (fits : w < 2 ^ 64) (stored : s.mem (heap_frame frames a) (word (a % 4096)) = w) :
    Bytes.read (HeapPages.view s) a 8 = w := by
  refine Bytes.read_of_bytes 8 a w (fun j less => ?_) fits
  have inside' : InHeap (a + j) := by
    unfold InHeap heap_start_addr heap_size at *
    omega
  have frame : heap_frame frames (a + j) = heap_frame frames a := by
    have page : (a + j) / PAGE_SIZE = a / PAGE_SIZE := by
      unfold PAGE_SIZE
      omega
    rw [heap_frame, heap_frame, page]
  have here : word ((a + j) % 4096) = word (a % 4096) := by
    have index : (a + j) % 4096 / 8 = a % 4096 / 8 := by omega
    rw [word, word, index]
  have last : (a + j) % 8 = j := by omega
  rw [heap.view inside', frame, here, last, stored]
  rfl

end

/-! ### The run -/

/-- The pages of the heap are mapped. -/
theorem map_heap_sets (good : Good alloc s.root fs s) (linking : Linking s.mem s.root) (enough : 100 ≤ fs.length) :
    ∃ s₁ gs frames, heap_pages.forM (fun page => map_page alloc page (present_bit ||| writeable_bit)) s = .ok () s₁ ∧
      s₁.root = s.root ∧ HeapMapped alloc gs frames s₁ ∧ frames ⊆ fs ∧ fs.length ≤ gs.length + 100 ∧
      (∀ g, ¬ IsTable s.mem s.root g → g ∉ fs → ¬ IsTable s₁.mem s.root g) ∧
      ∀ q, Usable q → q ∉ heap_pages → walk s₁.mem s.root (path q) = walk s.mem s.root (path q) := by
  have pages : heap_pages.length = 25 := List.length_range'
  have ordered : heap_pages.Nodup := List.nodup_range'
  obtain ⟨s₁, gs, frames, ran, cr3, good₁, linking₁, -, count, drawn, distinct, apart, foreign, mapped, others⟩ :=
    map_page_list good linking ordered (fun page => heap_usable) (by omega)
      (show (present_bit ||| writeable_bit) &&& physical_addr_mask = 0 by decide)
  have root : s₁.root = s.root := by rw [Machine.root, Machine.root, cr3]
  refine ⟨s₁, gs, frames, ran, root, ?_, drawn, by omega, fun g outside other => (foreign g outside other).1, others⟩
  refine ⟨root ▸ good₁, root ▸ linking₁, distinct, root ▸ apart, mapped.imp fun page f walks => ?_⟩
  rw [hardware, root, indices_page, walks]
  rfl

/-- The heap after `init_heap`, and what it leaves of the address space and of the supply. -/
structure HeapSet (alloc : A → ℤ × ℕ × A) (fs gs frames : List ℕ) (s s' : Machine A) : Prop where
  root : s'.root = s.root
  heap : HeapMapped alloc gs frames s'
  given : frames ⊆ fs
  left : fs.length ≤ gs.length + 100
  others : ∀ q, Usable q → q ∉ heap_pages → hardware s' q = hardware s q
  tables : ∀ t, IsTable s'.mem s'.root t → IsTable s.mem s.root t ∨ t ∈ fs
  next : Bytes.read (view s') heap_start_addr 8 = NULL
  size : Bytes.read (view s') (heap_start_addr + 8) 8 = heap_size

theorem init_heap_sets {fuel : ℕ} (good : Good alloc s.root fs s) (linking : Linking s.mem s.root) (enough : 100 ≤ fs.length)
    (many : 25 < fuel) : ∃ s' gs frames, init_heap alloc fuel s = .ok () s' ∧ HeapSet alloc fs gs frames s s' := by
  obtain ⟨s₁, gs, frames, ran, root, heap₁, drawn, count, foreign, others⟩ := map_heap_sets good linking enough
  rw [← map_heap_eq many] at ran
  have first : InHeap heap_start_addr := by decide
  have second : InHeap (heap_start_addr + 8) := by decide
  obtain ⟨f, isFirst⟩ : ∃ f, f = heap_frame frames heap_start_addr := ⟨_, rfl⟩
  have isSecond : heap_frame frames (heap_start_addr + 8) = f := isFirst.symm
  have inFrames : f ∈ frames := by rw [isFirst]; exact (heap₁.frame first).1
  have stores : ∀ {u : Machine A} (events : List Paging.Event) (i : Index) (w : ℕ), HeapMapped alloc gs frames u →
      HeapMapped alloc gs frames (logs { u with mem := put u.mem f i w } events) ∧
        (∀ q, Usable q → hardware (logs { u with mem := put u.mem f i w } events) q = hardware u q) ∧
          ∀ t, IsTable (put u.mem f i w) u.root t ↔ IsTable u.mem u.root t := by
    intro u events i w heap
    refine heap.same rfl rfl fun t outside j => put_row ?_ j
    rintro rfl
    exact outside inFrames
  have resolves₁ : Walk.resolve s₁.mem s₁.root heap_start_addr = some (f, 8 * ((0 : Index) : ℕ)) := by
    rw [heap₁.resolve first, ← isFirst]
    rfl
  have stored₁ := store_run resolves₁ NULL
  obtain ⟨s₂, same₂⟩ : ∃ s₂, s₂ = logs { s₁ with mem := put s₁.mem f 0 NULL } [.store heap_start_addr f 0] := ⟨_, rfl⟩
  obtain ⟨heap₂, walks₂, tables₂⟩ := stores [.store heap_start_addr f 0] 0 NULL heap₁
  rw [← same₂] at stored₁ heap₂ walks₂
  have wrapped : wrap ((heap_start_addr : ℤ) + 8) = heap_start_addr + 8 := by decide
  have resolves₂ : Walk.resolve s₂.mem s₂.root (wrap ((heap_start_addr : ℤ) + 8)) = some (f, 8 * ((1 : Index) : ℕ)) := by
    rw [wrapped, heap₂.resolve second, isSecond]
    rfl
  have stored₂ := store_run resolves₂ heap_size
  obtain ⟨event, isEvent⟩ : ∃ e : Paging.Event, e = .store (wrap ((heap_start_addr : ℤ) + 8)) f 1 := ⟨_, rfl⟩
  rw [← isEvent] at stored₂
  obtain ⟨heap₃, walks₃, tables₃⟩ := stores [event] 1 heap_size heap₂
  refine ⟨_, gs, frames, (bind_ok ran _).trans ((bind_ok stored₁ _).trans stored₂), ⟨?_, heap₃, drawn, by omega, ?_, ?_, ?_, ?_⟩⟩
  · rw [same₂]
    exact root
  · intro q usable outside
    rw [walks₃ q usable, walks₂ q usable, hardware, root, indices_page, others q usable outside, hardware, indices_page]
  · intro t table
    by_contra other
    rw [not_or] at other
    have table₁ : IsTable s₁.mem s₁.root t := (tables₂ t).mp (by rw [same₂] at tables₃; exact (tables₃ t).mp (same₂ ▸ table))
    rw [root] at table₁
    exact foreign t other.1 other.2 table₁
  · refine heap₃.read_word first (by decide) (by decide) ?_
    rw [← isFirst]
    change put s₂.mem f 1 heap_size f 0 = NULL
    rw [put_other (by simp), same₂]
    exact put_same
  · refine heap₃.read_word second (by decide) (by decide) ?_
    rw [isSecond]
    exact put_same

/-- `init_heap` returns with its pages mapped to distinct frames of the supply and the header of one
    free block in them, no other page is mapped otherwise than before, and the tables are as before
    or supplied. -/
theorem init_heap_run {fuel : ℕ} (good : Good alloc s.root fs s) (linking : Linking s.mem s.root) (enough : 100 ≤ fs.length)
    (many : 25 < fuel) :
    ∃ s' gs frames, init_heap alloc fuel s = .ok () s' ∧ s'.root = s.root ∧ HeapMapped alloc gs frames s' ∧ frames ⊆ fs ∧
      fs.length ≤ gs.length + 100 ∧ (∀ q, Usable q → q ∉ heap_pages → hardware s' q = hardware s q) ∧
      (∀ t, IsTable s'.mem s'.root t → IsTable s.mem s.root t ∨ t ∈ fs) ∧
      Bytes.read (view s') heap_start_addr 8 = NULL ∧ Bytes.read (view s') (heap_start_addr + 8) 8 = heap_size := by
  obtain ⟨s', gs, frames, ran, set⟩ := init_heap_sets good linking enough many
  exact ⟨s', gs, frames, ran, set.root, set.heap, set.given, set.left, set.others, set.tables, set.next, set.size⟩

/-- A machine with nothing mapped. -/
def empty_space (frames : List ℕ) : Machine (List ℕ) := { one_table with allocator := frames }

theorem empty_space_root (frames : List ℕ) : (empty_space frames).root = 1 := by
  change address (link 1) = 1
  decide

theorem empty_space_bare (frames : List ℕ) : ∀ j, j ≠ 511 → (empty_space frames).mem (empty_space frames).root j = 0 := by
  rw [empty_space_root]
  exact fun _ other => if_neg fun here => other here.2

theorem empty_space_good {frames : List ℕ} (above : ∀ f ∈ frames, 1 < f ∧ f < 2 ^ 40) (distinct : frames.Nodup) :
    Good from_list (empty_space frames).root frames (empty_space frames) := by
  have bare := empty_space_bare frames
  have slot : next ((empty_space frames).mem 1 511) = some 1 := next_link (by decide)
  rw [← empty_space_root frames] at slot
  have other : ∀ f ∈ frames, f ≠ (empty_space frames).root := by
    intro f member
    have := (above f member).1
    rw [empty_space_root]
    omega
  refine ⟨⟨⟨slot, slot⟩, supplies_from_list frames, fun f member => (above f member).2, fun f member j => ?_,
    fun f member => ⟨other f member, ?_⟩, distinct⟩, bare_tree bare, .inl rfl⟩
  · have := (above f member).1
    exact if_neg fun here => by omega
  · rintro ⟨π, ordinary, reaches⟩
    exact other f member (bare_descend bare ordinary reaches).2

theorem empty_space_supply :
    Good from_list (empty_space (List.range' 2 120)).root (List.range' 2 120) (empty_space (List.range' 2 120)) :=
  empty_space_good (fun f member => by
    have := List.mem_range'_1.mp member
    omega) List.nodup_range'

theorem init_heap_run_empty_space :
    ∃ s' gs frames, init_heap from_list 26 (empty_space (List.range' 2 120)) = .ok () s' ∧
      s'.root = (empty_space (List.range' 2 120)).root ∧ HeapMapped from_list gs frames s' ∧ frames ⊆ List.range' 2 120 ∧
      (List.range' 2 120).length ≤ gs.length + 100 ∧
      (∀ q, Usable q → q ∉ heap_pages → hardware s' q = hardware (empty_space (List.range' 2 120)) q) ∧
      (∀ t, IsTable s'.mem s'.root t →
        IsTable (empty_space (List.range' 2 120)).mem (empty_space (List.range' 2 120)).root t ∨ t ∈ List.range' 2 120) ∧
      Bytes.read (view s') heap_start_addr 8 = NULL ∧ Bytes.read (view s') (heap_start_addr + 8) 8 = heap_size :=
  init_heap_run empty_space_supply (bare_linking (empty_space_bare _)) (by decide) (by decide)

end
end OsC.HeapPages
