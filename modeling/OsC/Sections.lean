import OsC.Remap
import Mathlib.Data.List.Pairwise

/-!
What the loop over the ELF sections maps. It steps by pages while the address
is below that of the section's last byte, and so leaves out the page of a last
byte that begins it (`remap_sections_iff`).
-/
namespace OsC.Sections
open OsC.Word OsC.Frames OsC.Loop OsC.Entry OsC.Walk OsC.Multiboot OsC.Paging OsC.Recursive OsC.Remap

/-- The bytes of a section. -/
def InSection (header : multiboot_elf_section_header) (b : ℕ) : Prop :=
  header.sh_addr ≤ b ∧ b < header.sh_addr + header.sh_size

/-- The allocated sections are formed and have no page in common. -/
structure FormedList (headers : List multiboot_elf_section_header) : Prop where
  formed : ∀ h ∈ headers, elf_section_is_allocated h = true → Formed h
  apart : headers.Pairwise fun g h => elf_section_is_allocated g = true → elf_section_is_allocated h = true →
    ∀ b c, InSection g b → InSection h c → b / PAGE_SIZE ≠ c / PAGE_SIZE

/-- The entry that maps a frame. -/
def leaf_entry (f flags : ℕ) : ℕ := get_frame_start_addr f &&& physical_addr_mask ||| (present_bit ||| flags)

section
variable {σ : Type} {map : ℕ → ℕ → ℕ → EStateM Fault σ Unit} {leaves : σ → ℕ → Option ℕ}

/-- `map` gives the page it is called with its entry, and changes no other page. -/
def MapsExactly (map : ℕ → ℕ → ℕ → EStateM Fault σ Unit) (leaves : σ → ℕ → Option ℕ) : Prop :=
  ∀ page f flags s, ∃ s', map page f flags s = .ok () s' ∧
    leaves s' = Function.update (leaves s) page (some (leaf_entry f flags))

/-- Every byte of every allocated section is identity mapped with the section's
    rights, and no other page is mapped. -/
structure Mapped (leaves : σ → ℕ → Option ℕ) (headers : List multiboot_elf_section_header) (s : σ) : Prop where
  covered : ∀ h ∈ headers, elf_section_is_allocated h = true → ∀ b, InSection h b →
    ∃ e, leaves s (b / PAGE_SIZE) = some e ∧ present e = true ∧ address e = b / PAGE_SIZE ∧
      e.testBit 1 = elf_section_is_writable h ∧ e.testBit 63 = !elf_section_is_exectuable h
  confined : ∀ page e, leaves s page = some e →
    ∃ h ∈ headers, elf_section_is_allocated h = true ∧ ∃ b, InSection h b ∧ b / PAGE_SIZE = page

/-! ### Mapping a list of pages -/

/-- The leaf entries after the pages of a list are identity mapped. -/
def mapped_leaves (m : ℕ → Option ℕ) (pages : List (ℕ × ℕ)) : ℕ → Option ℕ :=
  pages.foldl (fun m page => Function.update m page.1 (some (leaf_entry page.1 page.2))) m

theorem map_pages_run (maps : MapsExactly map leaves) (pages : List (ℕ × ℕ)) (s : σ) :
    ∃ s', map_pages map pages s = .ok () s' ∧ leaves s' = mapped_leaves (leaves s) pages := by
  induction pages generalizing s with
  | nil => exact ⟨s, rfl, rfl⟩
  | cons page pages ih =>
    obtain ⟨s₁, ran, first⟩ := maps page.1 page.1 page.2 s
    obtain ⟨s', rest, all⟩ := ih s₁
    refine ⟨s', (bind_ok ran _).trans rest, ?_⟩
    rw [all, first]
    rfl

theorem mapped_leaves_other {m : ℕ → Option ℕ} {pages : List (ℕ × ℕ)} {q : ℕ} (other : ∀ page ∈ pages, page.1 ≠ q) :
    mapped_leaves m pages q = m q := by
  induction pages generalizing m with
  | nil => rfl
  | cons page pages ih =>
    have tail := ih (m := Function.update m page.1 (some (leaf_entry page.1 page.2)))
      fun p member => other p (List.mem_cons_of_mem page member)
    exact tail.trans (Function.update_of_ne (other page List.mem_cons_self).symm _ _)

theorem mapped_leaves_mem {m : ℕ → Option ℕ} {pages : List (ℕ × ℕ)} {q flags : ℕ} (member : (q, flags) ∈ pages)
    (same : ∀ page ∈ pages, page.1 = q → page.2 = flags) : mapped_leaves m pages q = some (leaf_entry q flags) := by
  induction pages generalizing m with
  | nil => simp at member
  | cons page pages ih =>
    have tail : ∀ p ∈ pages, p.1 = q → p.2 = flags := fun p later => same p (List.mem_cons_of_mem page later)
    by_cases later : (q, flags) ∈ pages
    · exact ih later tail
    · obtain rfl : (q, flags) = page := (List.mem_cons.mp member).resolve_right later
      have others : ∀ p ∈ pages, p.1 ≠ q := by
        intro p inTail key
        exact later (by rw [← key, ← tail p inTail key]; exact inTail)
      exact (mapped_leaves_other others).trans (Function.update_self ..)

/-! ### The pages of the sections -/

theorem remap_sections_eq {fuel : ℕ} {headers : List multiboot_elf_section_header}
    (each : ∀ h ∈ headers, remap_section map fuel h = map_pages map (section_pages h)) :
    remap_sections map fuel headers = map_pages map (headers.flatMap section_pages) := by
  induction headers with
  | nil => rfl
  | cons h headers ih =>
    have rest := ih fun g member => each g (List.mem_cons_of_mem h member)
    have split : map_pages map (section_pages h ++ headers.flatMap section_pages) =
        (map_pages map (section_pages h) >>= fun _ => map_pages map (headers.flatMap section_pages)) := by
      simp [map_pages]
    rw [List.flatMap_cons, split, ← rest, ← each h List.mem_cons_self]
    rfl

theorem mem_section_pages {h : multiboot_elf_section_header} {q flags : ℕ} :
    (q, flags) ∈ section_pages h ↔ elf_section_is_allocated h = true ∧
      ∃ j < section_count h, q = h.sh_addr / PAGE_SIZE + j ∧ flags = section_flags h := by
  unfold section_pages
  cases elf_section_is_allocated h with
  | false => simp
  | true => simp [eq_comm]

/-- A page that the loop maps begins in its section. -/
theorem section_page_begins {h : multiboot_elf_section_header} {j : ℕ} (less : j < section_count h) :
    InSection h (h.sh_addr + 4096 * j) ∧ (h.sh_addr + 4096 * j) / PAGE_SIZE = h.sh_addr / PAGE_SIZE + j := by
  unfold section_count at less
  unfold InSection PAGE_SIZE
  omega

/-- Two sections with bytes in one page are the same. -/
theorem FormedList.same_section {headers : List multiboot_elf_section_header} (formed : FormedList headers)
    {g h : multiboot_elf_section_header} (left : g ∈ headers) (right : h ∈ headers)
    (leftAllocated : elf_section_is_allocated g = true) (rightAllocated : elf_section_is_allocated h = true)
    {b c : ℕ} (inLeft : InSection g b) (inRight : InSection h c) (page : b / PAGE_SIZE = c / PAGE_SIZE) : g = h := by
  by_contra other
  have symmetric : Std.Symm fun g h : multiboot_elf_section_header =>
      elf_section_is_allocated g = true → elf_section_is_allocated h = true →
        ∀ b c, InSection g b → InSection h c → b / PAGE_SIZE ≠ c / PAGE_SIZE :=
    ⟨fun g h apart leftIn rightIn b c inLeft inRight => (apart rightIn leftIn c b inRight inLeft).symm⟩
  exact formed.apart.forall left right other leftAllocated rightAllocated b c inLeft inRight page

/-- The pages of the sections have one entry each. -/
theorem section_pages_flags {headers : List multiboot_elf_section_header} (formed : FormedList headers)
    {g h : multiboot_elf_section_header} (left : g ∈ headers) (right : h ∈ headers) {q a b : ℕ}
    (first : (q, a) ∈ section_pages g) (second : (q, b) ∈ section_pages h) : a = b := by
  obtain ⟨leftAllocated, i, iLess, leftPage, rfl⟩ := mem_section_pages.mp first
  obtain ⟨rightAllocated, j, jLess, rightPage, rfl⟩ := mem_section_pages.mp second
  obtain ⟨inLeft, leftBegins⟩ := section_page_begins iLess
  obtain ⟨inRight, rightBegins⟩ := section_page_begins jLess
  rw [formed.same_section left right leftAllocated rightAllocated inLeft inRight
    (by rw [leftBegins, rightBegins, ← leftPage, ← rightPage])]

/-! ### The entries -/

theorem section_flags_clean (h : multiboot_elf_section_header) :
    (present_bit ||| section_flags h) &&& addressMask = 0 ∧ present (present_bit ||| section_flags h) = true ∧
      (present_bit ||| section_flags h).testBit 1 = elf_section_is_writable h ∧
      (present_bit ||| section_flags h).testBit 63 = !elf_section_is_exectuable h := by
  unfold section_flags
  cases elf_section_is_exectuable h <;> cases elf_section_is_writable h <;> decide

theorem leaf_entry_eq (f flags : ℕ) :
    leaf_entry f flags = get_frame_start_addr f / PAGE_SIZE % 2 ^ 40 * 4096 ||| (present_bit ||| flags) := by
  rw [leaf_entry, show physical_addr_mask = addressMask from rfl, and_addressMask]
  rfl

theorem start_addr_page {f : ℕ} (low : f < 2 ^ 40) : get_frame_start_addr f / PAGE_SIZE = f := by
  rw [start_addr_eq (by omega)]
  exact Nat.mul_div_cancel f (by decide)

/-- The entry of a section's page has the page's frame and the section's rights. -/
theorem leaf_entry_section {f : ℕ} (low : f < 2 ^ 40) (h : multiboot_elf_section_header) :
    present (leaf_entry f (section_flags h)) = true ∧ address (leaf_entry f (section_flags h)) = f ∧
      (leaf_entry f (section_flags h)).testBit 1 = elf_section_is_writable h ∧
      (leaf_entry f (section_flags h)).testBit 63 = !elf_section_is_exectuable h := by
  obtain ⟨clean, isPresent, writable, executable⟩ := section_flags_clean h
  rw [leaf_entry_eq, start_addr_page low, Nat.mod_eq_of_lt low]
  refine ⟨(present_or f _).trans isPresent, address_or low clean, ?_, ?_⟩
  · rw [testBit_or_low f _ (by decide), writable]
  · have top : (f * 4096).testBit 63 = false := Nat.testBit_lt_two_pow (by omega)
    rw [Nat.testBit_or, top, executable, Bool.false_or]

/-! ### Any run of the loop -/

/-- A mapped page is canonical and has a frame that its number gives modulo 2^40. -/
def Truncated (leaves : σ → ℕ → Option ℕ) (s : σ) : Prop :=
  ∀ page e, leaves s page = some e → (page < 2 ^ 35 ∨ 2 ^ 52 - 2 ^ 35 ≤ page) ∧ address e = page % 2 ^ 40

theorem identity_map_page_truncated (maps : MapsExactly map leaves) (h : multiboot_elf_section_header) {f : ℕ} {s s' : σ}
    (before : Truncated leaves s) (ran : identity_map_page map f (section_flags h) s = .ok () s') :
    Truncated leaves s' := by
  have bound : get_frame_start_addr f < 2 ^ 64 := wrap_lt _
  by_cases canonical : Canonical (get_frame_start_addr f)
  · rw [identity_map_page, bind_ok (get_page_for_vaddr_run canonical s)] at ran
    obtain ⟨s₁, ran₁, after⟩ := maps (get_frame_start_addr f / PAGE_SIZE) f (section_flags h) s
    rw [ran₁] at ran
    cases ran
    intro page e found
    rw [after, Function.update_apply] at found
    split at found
    next here =>
      obtain rfl := Option.some.inj found
      rw [leaf_entry_eq, address_or (Nat.mod_lt _ (by decide)) (section_flags_clean h).1, here]
      refine ⟨?_, rfl⟩
      unfold Canonical at canonical
      unfold PAGE_SIZE
      omega
    next => exact before page e found
  · have fails : (decide (get_frame_start_addr f < 0x0000800000000000) ||
        decide (get_frame_start_addr f ≥ 0xffff800000000000)) = false := by
      unfold Canonical at canonical
      simp only [Bool.or_eq_false_iff, decide_eq_false_iff_not]
      omega
    rw [identity_map_page, get_page_for_vaddr, assert, fails] at ran
    cases ran

theorem remap_sections_truncated (maps : MapsExactly map leaves) {fuel : ℕ} {headers : List multiboot_elf_section_header}
    (formed : ∀ h ∈ headers, elf_section_is_allocated h = true → Formed h) {s s' : σ} (before : Truncated leaves s)
    (ended : remap_sections map fuel headers s = .ok () s') : Truncated leaves s' := by
  refine forM_keeps (fun h member s s' before ran => ?_) before ended
  cases allocated : elf_section_is_allocated h with
  | false =>
    rw [remap_section, allocated] at ran
    cases ran
    exact before
  | true =>
    rw [remap_section_loop (formed h member allocated) allocated] at ran
    exact forLoop_keeps (fun addr s s' before ran => identity_map_page_truncated maps h before ran) before ran

/-- A section from below 2^47 whose loop ends does not reach beyond, and its loop had steps for all its pages. -/
theorem remap_section_ended {fuel : ℕ} {h : multiboot_elf_section_header} (formed : Formed h)
    (allocated : elf_section_is_allocated h = true) (low : h.sh_addr < 2 ^ 47) {s s' : σ}
    (ended : remap_section map fuel h s = .ok () s') :
    h.sh_addr + h.sh_size - 1 ≤ 2 ^ 47 ∧ section_count h < fuel := by
  rw [remap_section_loop formed allocated] at ended
  have aligned := formed.aligned
  unfold PAGE_SIZE at aligned
  have steps := fun j (fits : h.sh_addr + 4096 * j < 2 ^ 64) => next_page fits
  have below : h.sh_addr + h.sh_size - 1 ≤ 2 ^ 47 := by
    by_contra beyond
    -- The loop would come to 2^47, where it stops.
    obtain ⟨j, here⟩ : ∃ j, h.sh_addr + 4096 * j = 2 ^ 47 := ⟨(2 ^ 47 - h.sh_addr) / 4096, by omega⟩
    obtain ⟨s₁, s₂, ran⟩ := forLoop_reaches (k := j) (fun i le => by
      rw [steps i (by omega)]
      simp only [decide_eq_true_eq]
      omega) ended
    rw [steps j (by omega), here] at ran
    have canonical := identity_map_page_stops (by unfold get_frame_for_addr PAGE_SIZE; omega) ran
    unfold Canonical get_frame_for_addr PAGE_SIZE at canonical
    omega
  refine ⟨below, forLoop_fuel (fun j less => ?_) ended⟩
  unfold section_count at less
  rw [steps j (by omega)]
  simp only [decide_eq_true_eq]
  omega

/-! ### All sections -/

/-- The entries after the pages of all sections are mapped. -/
def sections_leaves (m : ℕ → Option ℕ) (headers : List multiboot_elf_section_header) : ℕ → Option ℕ :=
  mapped_leaves m (headers.flatMap section_pages)

/-- The mapped page has the entry of the section it belongs to. -/
theorem sections_leaves_mem {headers : List multiboot_elf_section_header} (formed : FormedList headers)
    {h : multiboot_elf_section_header} (member : h ∈ headers) (allocated : elf_section_is_allocated h = true) {j : ℕ}
    (less : j < section_count h) (m : ℕ → Option ℕ) :
    sections_leaves m headers (h.sh_addr / PAGE_SIZE + j) =
      some (leaf_entry (h.sh_addr / PAGE_SIZE + j) (section_flags h)) := by
  have here : (h.sh_addr / PAGE_SIZE + j, section_flags h) ∈ section_pages h :=
    mem_section_pages.mpr ⟨allocated, j, less, rfl, rfl⟩
  refine mapped_leaves_mem (List.mem_flatMap.mpr ⟨h, member, here⟩) ?_
  rintro ⟨q, flags⟩ other rfl
  obtain ⟨g, inList, there⟩ := List.mem_flatMap.mp other
  exact section_pages_flags formed inList member there here

/-- A page that no section is mapped with keeps its entry. -/
theorem sections_leaves_other {headers : List multiboot_elf_section_header} {m : ℕ → Option ℕ} {q : ℕ}
    (other : ∀ h ∈ headers, elf_section_is_allocated h = true → ∀ j < section_count h, q ≠ h.sh_addr / PAGE_SIZE + j) :
    sections_leaves m headers q = m q := by
  refine mapped_leaves_other ?_
  rintro ⟨_, flags⟩ member rfl
  obtain ⟨h, inList, here⟩ := List.mem_flatMap.mp member
  obtain ⟨allocated, j, less, same, -⟩ := mem_section_pages.mp here
  exact other h inList allocated j less same

/-- The loop over sections below 2^47 runs to its end, and maps the pages of the sections. -/
theorem remap_sections_run (maps : MapsExactly map leaves) {fuel : ℕ} {headers : List multiboot_elf_section_header}
    (formed : FormedList headers)
    (below : ∀ h ∈ headers, elf_section_is_allocated h = true → h.sh_addr < 2 ^ 47 ∧ h.sh_addr + h.sh_size - 1 ≤ 2 ^ 47)
    (enough : ∀ h ∈ headers, elf_section_is_allocated h = true → section_count h < fuel) (s : σ) :
    ∃ s', remap_sections map fuel headers s = .ok () s' ∧ leaves s' = sections_leaves (leaves s) headers := by
  rw [remap_sections_eq fun h member => remap_section_eq (formed.formed h member) (below h member) (enough h member)]
  exact map_pages_run maps _ s

/-- A run of the loop over sections that begin below 2^47 mapped the pages of all of them. -/
theorem remap_sections_ended (maps : MapsExactly map leaves) {fuel : ℕ} {headers : List multiboot_elf_section_header}
    (formed : FormedList headers) (low : ∀ h ∈ headers, elf_section_is_allocated h = true → h.sh_addr < 2 ^ 47)
    {s s' : σ} (ended : remap_sections map fuel headers s = .ok () s') :
    (∀ h ∈ headers, elf_section_is_allocated h = true → h.sh_addr + h.sh_size - 1 ≤ 2 ^ 47) ∧
      leaves s' = sections_leaves (leaves s) headers := by
  have reached (h) (member : h ∈ headers) (allocated : elf_section_is_allocated h = true) :
      h.sh_addr + h.sh_size - 1 ≤ 2 ^ 47 ∧ section_count h < fuel := by
    obtain ⟨s₁, s₂, ran⟩ := forM_reaches member ended
    exact remap_section_ended (formed.formed h member allocated) allocated (low h member allocated) ran
  obtain ⟨s₁, ran, after⟩ := remap_sections_run maps formed
    (fun h member allocated => ⟨low h member allocated, (reached h member allocated).1⟩)
    (fun h member allocated => (reached h member allocated).2) s
  rw [ran] at ended
  cases ended
  exact ⟨fun h member allocated => (reached h member allocated).1, after⟩

/-- The loop takes steps for all pages of a section, unless the section's last byte begins a page. -/
theorem section_count_covers {h : multiboot_elf_section_header} (formed : Formed h) :
    h.sh_size % 4096 ≠ 1 ↔ ∀ b, InSection h b → ∃ j < section_count h, b / PAGE_SIZE = h.sh_addr / PAGE_SIZE + j := by
  have aligned := formed.aligned
  have nonempty := formed.nonempty
  unfold InSection section_count PAGE_SIZE at *
  constructor
  · intro other b inside
    exact ⟨(b - h.sh_addr) / 4096, by omega, by omega⟩
  · intro covers last
    obtain ⟨j, less, same⟩ := covers (h.sh_addr + h.sh_size - 1) (by omega)
    omega

/-- The pages of sections of which no last byte begins a page map each byte of them, and nothing else. -/
theorem mapped_of_leaves {headers : List multiboot_elf_section_header} (formed : FormedList headers)
    (whole : ∀ h ∈ headers, elf_section_is_allocated h = true → h.sh_size % 4096 ≠ 1)
    (below : ∀ h ∈ headers, elf_section_is_allocated h = true → h.sh_addr + h.sh_size - 1 ≤ 2 ^ 47)
    {s s' : σ} (empty : ∀ page, leaves s page = none) (after : leaves s' = sections_leaves (leaves s) headers) :
    Mapped leaves headers s' := by
  constructor
  · intro h member allocated b inside
    have isFormed := formed.formed h member allocated
    obtain ⟨j, less, page⟩ := (section_count_covers isFormed).mp (whole h member allocated) b inside
    have low : b / PAGE_SIZE < 2 ^ 40 := by
      have := below h member allocated
      unfold InSection at inside
      unfold PAGE_SIZE
      omega
    refine ⟨leaf_entry (b / PAGE_SIZE) (section_flags h), ?_, leaf_entry_section low h⟩
    rw [after, page]
    exact sections_leaves_mem formed member allocated less _
  · intro page e found
    by_contra outside
    have other : sections_leaves (leaves s) headers page = leaves s page := by
      refine sections_leaves_other fun h member allocated j less same => outside ?_
      obtain ⟨inside, begins⟩ := section_page_begins less
      exact ⟨h, member, allocated, _, inside, begins.trans same.symm⟩
    rw [after, other, empty] at found
    cases found

/-- A section that begins at 2^47 or above has bytes that are not identity mapped. -/
theorem low_of_mapped (maps : MapsExactly map leaves) {fuel : ℕ} {headers : List multiboot_elf_section_header}
    (formed : FormedList headers) {s s' : σ} (empty : ∀ page, leaves s page = none)
    (ended : remap_sections map fuel headers s = .ok () s') (mapped : Mapped leaves headers s')
    {h : multiboot_elf_section_header} (member : h ∈ headers) (allocated : elf_section_is_allocated h = true) :
    h.sh_addr < 2 ^ 47 := by
  have truncated : Truncated leaves s' :=
    remap_sections_truncated maps formed.formed (fun page e found => by simp [empty page] at found) ended
  have nonempty := (formed.formed h member allocated).nonempty
  obtain ⟨e, found, -, frame, -⟩ := mapped.covered h member allocated h.sh_addr ⟨le_refl _, by omega⟩
  obtain ⟨canonical, low⟩ := truncated _ e found
  have := h.addr_lt
  rw [frame] at low
  unfold PAGE_SIZE at canonical low
  omega

/-- A last byte that begins a page is not mapped. -/
theorem whole_of_mapped {headers : List multiboot_elf_section_header} (formed : FormedList headers) {s s' : σ}
    (empty : ∀ page, leaves s page = none) (after : leaves s' = sections_leaves (leaves s) headers)
    (mapped : Mapped leaves headers s') {h : multiboot_elf_section_header} (member : h ∈ headers)
    (allocated : elf_section_is_allocated h = true) : h.sh_size % 4096 ≠ 1 := by
  refine (section_count_covers (formed.formed h member allocated)).mpr fun b inside => ?_
  by_contra uncovered
  obtain ⟨e, found, -⟩ := mapped.covered h member allocated b inside
  have other : sections_leaves (leaves s) headers (b / PAGE_SIZE) = leaves s (b / PAGE_SIZE) := by
    refine sections_leaves_other fun g inList isAllocated j less page => uncovered ?_
    obtain ⟨inOther, begins⟩ := section_page_begins less
    obtain rfl := formed.same_section inList member isAllocated allocated inOther inside (begins.trans page.symm)
    exact ⟨j, less, page⟩
  rw [after, other, empty] at found
  cases found

/-- Whenever the loop over the sections ends, starting with no page mapped, every byte of the sections is identity
    mapped with the rights of its section, and no other page is mapped, exactly when no last byte of a section begins
    a page and all sections begin below 2^47. It does end if the sections lie below 2^47. -/
theorem remap_sections_iff {headers : List multiboot_elf_section_header} (maps : MapsExactly map leaves)
    (formed : FormedList headers) {s : σ} (empty : ∀ page, leaves s page = none) :
    (∀ fuel s', remap_sections map fuel headers s = .ok () s' → (Mapped leaves headers s' ↔
      ∀ h ∈ headers, elf_section_is_allocated h = true → h.sh_size % 4096 ≠ 1 ∧ h.sh_addr < 2 ^ 47)) ∧
    ((∀ h ∈ headers, elf_section_is_allocated h = true → h.sh_addr + h.sh_size ≤ 2 ^ 47) →
      ∃ least, ∀ fuel ≥ least, ∃ s', remap_sections map fuel headers s = .ok () s') := by
  constructor
  · intro fuel s' ended
    constructor
    · intro mapped h member allocated
      have low (g) (inList : g ∈ headers) (isAllocated : elf_section_is_allocated g = true) : g.sh_addr < 2 ^ 47 :=
        low_of_mapped maps formed empty ended mapped inList isAllocated
      have after := (remap_sections_ended maps formed low ended).2
      exact ⟨whole_of_mapped formed empty after mapped member allocated, low h member allocated⟩
    · intro met
      obtain ⟨below, after⟩ :=
        remap_sections_ended maps formed (fun h member allocated => (met h member allocated).2) ended
      exact mapped_of_leaves formed (fun h member allocated => (met h member allocated).1) below empty after
  · intro below
    have low (h) (member : h ∈ headers) (allocated : elf_section_is_allocated h = true) :
        h.sh_addr < 2 ^ 47 ∧ h.sh_addr + h.sh_size - 1 ≤ 2 ^ 47 := by
      have := below h member allocated
      have := (formed.formed h member allocated).nonempty
      omega
    -- No section has more pages than there are below 2^47.
    have enough (fuel) (many : fuel ≥ 2 ^ 36) (h) (member : h ∈ headers) (allocated : elf_section_is_allocated h = true) :
        section_count h < fuel := by
      have := below h member allocated
      unfold section_count
      omega
    refine ⟨2 ^ 36, fun fuel many => ?_⟩
    obtain ⟨s', ran, -⟩ := remap_sections_run maps formed low (enough fuel many) s
    exact ⟨s', ran⟩

end

/-! ### Runs on a map of pages -/

/-- A map of pages as the state. -/
def put_leaf (page f flags : ℕ) : EStateM Fault (ℕ → Option ℕ) Unit :=
  modify fun m => Function.update m page (some (leaf_entry f flags))

theorem put_leaf_exact : MapsExactly put_leaf id := fun _ _ _ _ => ⟨_, rfl, rfl⟩

/-- One allocated section with a byte more than a page. -/
def longer_section : multiboot_elf_section_header :=
  { sh_flags := shf_alloc, sh_addr := 0x180000, sh_size := 4097 }

theorem longer_section_formed : FormedList [longer_section] where
  formed h member _ := by
    obtain rfl := List.mem_singleton.mp member
    exact ⟨by decide, by decide, by decide⟩
  apart := List.pairwise_singleton _ _

theorem remap_sections_iff_longer_section :
    FormedList [longer_section] ∧
    (∀ fuel s', remap_sections put_leaf fuel [longer_section] (fun _ => none) = .ok () s' →
      (Mapped id [longer_section] s' ↔ ∀ h ∈ [longer_section], elf_section_is_allocated h = true →
        h.sh_size % 4096 ≠ 1 ∧ h.sh_addr < 2 ^ 47)) ∧
    ((∀ h ∈ [longer_section], elf_section_is_allocated h = true → h.sh_addr + h.sh_size ≤ 2 ^ 47) →
      ∃ least, ∀ fuel ≥ least, ∃ s', remap_sections put_leaf fuel [longer_section] (fun _ => none) = .ok () s') :=
  ⟨longer_section_formed, remap_sections_iff put_leaf_exact longer_section_formed fun _ => rfl⟩

/-- The loop ends with the last byte of the section unmapped. -/
theorem remap_sections_omits_last_page :
    FormedList [longer_section] ∧ MapsExactly put_leaf id ∧
    ∃ s', remap_sections put_leaf 3 [longer_section] (fun _ => none) = .ok () s' ∧
      InSection longer_section 0x181000 ∧ s' (0x181000 / PAGE_SIZE) = none ∧ ¬ Mapped id [longer_section] s' := by
  have only {P : multiboot_elf_section_header → Prop} (holds : P longer_section) : ∀ h ∈ [longer_section], P h :=
    List.forall_mem_singleton.mpr holds
  obtain ⟨s', ran, after⟩ : ∃ s', remap_sections put_leaf 3 [longer_section] (fun _ => none) = .ok () s' ∧
      id s' = sections_leaves (fun _ => none) [longer_section] :=
    remap_sections_run put_leaf_exact longer_section_formed (only fun _ => by decide) (only fun _ => by decide) _
  have last : s' (0x181000 / PAGE_SIZE) = none := congrFun after _
  refine ⟨longer_section_formed, put_leaf_exact, s', ran, by unfold InSection; decide, last, fun mapped => ?_⟩
  obtain ⟨e, found, -⟩ := mapped.covered longer_section List.mem_cons_self (by decide) 0x181000
    (by unfold InSection; decide)
  rw [id, last] at found
  cases found

end OsC.Sections
