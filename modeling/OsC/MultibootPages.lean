import OsC.Remap

/-!
The pages that the loop of `remap_kernel` over the Multiboot block maps. Its
bound is a sum with a pointer to elements of 8 bytes, and its addresses step by
pages from a start that need not be at the beginning of a page. The pages are those that the
block overlaps only for some small blocks (`remap_multiboot_exact_iff`).
-/
namespace OsC.MultibootPages
open OsC.Word OsC.Frames OsC.Loop OsC.Walk OsC.Multiboot OsC.Paging OsC.Recursive OsC.Remap

/-- What has been mapped: the pages, their frames and flags. -/
abbrev Mapped := List (ℕ × ℕ × ℕ)

/-- Maps exactly the page that it is given. -/
def record (page frame flags : ℕ) : EStateM Fault Mapped Unit := fun mapped => .ok () (mapped ++ [(page, frame, flags)])

def Overlaps (start size page : ℕ) : Prop := ∃ b, start ≤ b ∧ b < start + size ∧ b / PAGE_SIZE = page

/-- The loop ends, and it identity maps the pages that the block overlaps and no others. -/
def Exact (data : multiboot_data) : Prop :=
  ∃ fuel mapped, remap_multiboot record fuel data [] = .ok () mapped ∧ (∀ entry ∈ mapped, entry.2.1 = entry.1) ∧
    ∀ page, page ∈ mapped.map Prod.fst ↔ Overlaps data.start data.total_size page

/-! ### The addresses of the loop -/

section
variable {data : multiboot_data} {start size : ℕ}

theorem overlaps_iff (nonempty : 0 < size) (page : ℕ) :
    Overlaps start size page ↔ start / 4096 ≤ page ∧ page ≤ (start + size - 1) / 4096 := by
  constructor
  · rintro ⟨b, above, below, rfl⟩
    unfold PAGE_SIZE
    omega
  · rintro ⟨above, below⟩
    exact ⟨max start (4096 * page), by omega, by omega, by unfold PAGE_SIZE; omega⟩

theorem iterate_page (k : ℕ) {addr : ℕ} (small : addr < 2 ^ 64) :
    (fun addr : ℕ => wrap (addr + PAGE_SIZE))^[k] addr = (addr + 4096 * k) % 2 ^ 64 := by
  induction k with
  | zero => exact (Nat.mod_eq_of_lt small).symm
  | succ k ih =>
    rw [Function.iterate_succ_apply', ih]
    unfold wrap PAGE_SIZE
    omega

theorem identity_map_canonical {σ : Type} {map : ℕ → ℕ → ℕ → EStateM Fault σ Unit} {f : ℕ} (canonical : Canonical (f * PAGE_SIZE))
    (flags : ℕ) : identity_map_page map f flags = map f f flags := by
  have start : get_frame_start_addr f = f * PAGE_SIZE := by
    refine start_addr_eq ?_
    unfold Canonical PAGE_SIZE at canonical
    omega
  funext s
  rw [identity_map_page, start, bind_ok (get_page_for_vaddr_run canonical s), Nat.mul_div_cancel f (by decide)]

theorem record_all (pages : List ℕ) (flags : ℕ) (mapped : Mapped) :
    (forM pages fun page => record page page flags) mapped = .ok () (mapped ++ pages.map fun page => (page, page, flags)) := by
  induction pages generalizing mapped with
  | nil => simp only [List.map_nil, List.append_nil]; rfl
  | cons page pages ih =>
    have first : record page page flags mapped = .ok () (mapped ++ [(page, page, flags)]) := rfl
    rw [List.forM_cons, bind_ok first, ih, List.append_assoc]
    rfl

/-- The pages of the loop. -/
def visited (data : multiboot_data) : List ℕ :=
  (List.range (multiboot_count data)).map fun j => data.start / PAGE_SIZE + j

/-- The addresses of the loop do not wrap, and it may map their pages. -/
structure Proper (data : multiboot_data) : Prop where
  fits : data.start + 4096 * multiboot_count data < 2 ^ 64
  canonical : ∀ j < multiboot_count data, Canonical (data.start + 4096 * j)

theorem page_canonical {addr : ℕ} : Canonical (addr / PAGE_SIZE * PAGE_SIZE) ↔ Canonical addr := by
  unfold Canonical PAGE_SIZE
  omega

theorem multiboot_bound (fits : data.start + 8 * data.total_size < 2 ^ 64) :
    wrap ((data.start : ℤ) + 8 * data.total_size) = data.start + 8 * data.total_size :=
  wrap_eq (by push_cast; rfl) fits

/-- Its condition holds for the counted addresses. -/
theorem multiboot_holds {j : ℕ} : data.start + 4096 * j ≤ data.start + 8 * data.total_size ↔ j < multiboot_count data := by
  unfold multiboot_count
  omega

theorem Proper.steps (proper : Proper data) (j : ℕ) (le : j ≤ multiboot_count data) :
    (fun addr : ℕ => wrap (addr + PAGE_SIZE))^[j] data.start = data.start + 4096 * j := by
  have fits := proper.fits
  exact (iterate_page j data.start_lt).trans (Nat.mod_eq_of_lt (by omega))

theorem Proper.run (proper : Proper data) {fuel : ℕ} (enough : multiboot_count data < fuel) :
    remap_multiboot record fuel data [] =
      .ok () ((visited data).map fun page => (page, page, present_bit ||| no_exec_bit)) := by
  have fits := proper.fits
  have count : 8 * data.total_size < 4096 * multiboot_count data := by
    unfold multiboot_count
    omega
  have steps := proper.steps
  rw [remap_multiboot, multiboot_bound (by omega), forLoop_eq_forM (multiboot_count data), ← List.range_map_iterate, List.forM_map]
  · have acts : (List.range (multiboot_count data)).forM (fun j => identity_map_page record
        (get_frame_for_addr ((fun addr : ℕ => wrap (addr + PAGE_SIZE))^[j] data.start)) (present_bit ||| no_exec_bit)) =
        (visited data).forM fun page => record page page (present_bit ||| no_exec_bit) := by
      rw [visited, List.forM_eq_forM, List.forM_map]
      refine forM_congr fun j member => ?_
      have less := List.mem_range.mp member
      have frame : get_frame_for_addr (data.start + 4096 * j) = data.start / PAGE_SIZE + j := by
        unfold get_frame_for_addr PAGE_SIZE
        omega
      rw [steps j (le_of_lt less), ← frame]
      exact identity_map_canonical (page_canonical.mpr (proper.canonical j less)) _
    exact (congrFun acts []).trans (record_all _ _ [])
  · intro j less
    rw [steps j (le_of_lt less), decide_eq_true_eq]
    exact multiboot_holds.mpr less
  · rw [steps _ (le_refl _), decide_eq_false_iff_not]
    exact fun holds => absurd (multiboot_holds.mp holds) (lt_irrefl _)
  · exact enough

/-- Enough turns for a loop that ended. -/
theorem Proper.enough (proper : Proper data) {fuel : ℕ} {mapped : Mapped}
    (ended : remap_multiboot record fuel data [] = .ok () mapped) : multiboot_count data < fuel := by
  have fits := proper.fits
  refine forLoop_fuel (fun j less => ?_) ended
  have inside := multiboot_holds.mpr less
  unfold multiboot_count at *
  rw [proper.steps j (le_of_lt less), multiboot_bound (by omega), decide_eq_true_eq]
  exact inside

/-- The body ran at each address up to the first at which the condition fails. -/
theorem canonical_of_ended {fuel : ℕ} {mapped : Mapped} (ended : remap_multiboot record fuel data [] = .ok () mapped)
    (fits : data.start + 8 * data.total_size < 2 ^ 64) {k : ℕ}
    (holds : ∀ j ≤ k, (data.start + 4096 * j) % 2 ^ 64 ≤ data.start + 8 * data.total_size) :
    Canonical ((data.start + 4096 * k) % 2 ^ 64) := by
  rw [remap_multiboot, multiboot_bound fits] at ended
  have conds : ∀ j ≤ k, decide ((fun addr : ℕ => wrap (addr + PAGE_SIZE))^[j] data.start ≤
      data.start + 8 * data.total_size) = true := by
    intro j le
    rw [iterate_page j data.start_lt, decide_eq_true_eq]
    exact holds j le
  obtain ⟨s₁, s₂, acted⟩ := forLoop_reaches conds ended
  rw [iterate_page k data.start_lt] at acted
  have frame : get_frame_for_addr ((data.start + 4096 * k) % 2 ^ 64) < 2 ^ 52 := by
    unfold get_frame_for_addr PAGE_SIZE
    omega
  exact page_canonical.mp (identity_map_page_stops frame acted)

/-- With a bound that wraps the loop does nothing. -/
theorem idle_of_wraps {fuel : ℕ} {mapped : Mapped} (ended : remap_multiboot record fuel data [] = .ok () mapped)
    (wraps : 2 ^ 64 ≤ data.start + 8 * data.total_size) : mapped = [] := by
  have small := data.start_lt
  have size := data.total_size_lt
  have wrapped : wrap ((data.start : ℤ) + 8 * data.total_size) = data.start + 8 * data.total_size - 2 ^ 64 := by
    unfold wrap
    omega
  cases fuel with
  | zero => cases ended
  | succ fuel =>
    rw [remap_multiboot, wrapped, forLoop, if_neg] at ended
    · cases ended
      rfl
    · rw [decide_eq_true_eq]
      omega

/-- The loop ends only if it is proper or does nothing. -/
theorem proper_of_ended {fuel : ℕ} {mapped : Mapped} (ended : remap_multiboot record fuel data [] = .ok () mapped) :
    Proper data ∨ 2 ^ 64 ≤ data.start + 8 * data.total_size ∧ mapped = [] := by
  have small := data.start_lt
  have size := data.total_size_lt
  by_cases fits : data.start + 8 * data.total_size < 2 ^ 64
  · have inside : ∀ j < multiboot_count data, data.start + 4096 * j ≤ data.start + 8 * data.total_size :=
      fun j less => multiboot_holds.mpr less
    refine .inl ⟨?_, fun j less => ?_⟩
    · by_contra wraps
      -- Behind the wrap every address is below the bound, up to one that is not canonical.
      have beyond := canonical_of_ended ended fits (k := multiboot_count data + 2 ^ 35) fun j le => by
        by_cases early : j < multiboot_count data
        · have := inside j early
          omega
        · have last := inside (multiboot_count data - 1) (by unfold multiboot_count; omega)
          unfold multiboot_count at *
          omega
      unfold multiboot_count Canonical at *
      omega
    · have bound := inside j less
      have here := canonical_of_ended ended fits (k := j) fun i le => by
        have := inside i (by omega)
        omega
      rwa [Nat.mod_eq_of_lt (by omega)] at here
  · exact .inr ⟨by omega, idle_of_wraps ended (by omega)⟩

theorem mem_visited (page : ℕ) : page ∈ visited data ↔
    data.start / 4096 ≤ page ∧ page ≤ data.start / 4096 + 8 * data.total_size / 4096 := by
  simp only [visited, List.mem_map, List.mem_range, multiboot_count, PAGE_SIZE]
  constructor
  · rintro ⟨j, less, rfl⟩
    omega
  · rintro ⟨above, below⟩
    exact ⟨page - data.start / 4096, by omega, by omega⟩

/-! ### Exact blocks -/

/-- The block is so small that the loop maps one page, and lies in one page, or so that it maps two,
    and lies in two. -/
def Small (data : multiboot_data) : Prop :=
  0 < data.total_size ∧ data.total_size < 1024 ∧ (data.total_size < 512 ↔ data.start % 4096 + data.total_size ≤ 4096)

theorem visited_exact_iff :
    (∀ page, page ∈ visited data ↔ Overlaps data.start data.total_size page) ↔ Small data := by
  by_cases nonempty : 0 < data.total_size
  · constructor
    · intro same
      have last := (same (data.start / 4096 + 8 * data.total_size / 4096)).mp ((mem_visited _).mpr ⟨by omega, by omega⟩)
      have least := (same ((data.start + data.total_size - 1) / 4096)).mpr ((overlaps_iff nonempty _).mpr ⟨by omega, by omega⟩)
      rw [overlaps_iff nonempty] at last
      rw [mem_visited] at least
      unfold Small
      omega
    · rintro ⟨_, low, one⟩ page
      rw [mem_visited, overlaps_iff nonempty]
      have same : data.start / 4096 + 8 * data.total_size / 4096 = (data.start + data.total_size - 1) / 4096 := by omega
      rw [same]
  · refine ⟨fun same => ?_, fun small => absurd small.1 nonempty⟩
    obtain ⟨b, above, below, -⟩ := (same (data.start / 4096)).mp ((mem_visited _).mpr ⟨by omega, by omega⟩)
    omega

theorem Exact.proper (exact : Exact data) : Proper data := by
  obtain ⟨fuel, mapped, ended, -, same⟩ := exact
  rcases proper_of_ended ended with proper | ⟨wraps, rfl⟩
  · exact proper
  · have small := data.start_lt
    have first := (same (data.start / PAGE_SIZE)).mpr ⟨data.start, le_refl _, by omega, rfl⟩
    cases first

theorem Exact.small (exact : Exact data) : Small data := by
  have proper := exact.proper
  obtain ⟨fuel, mapped, ended, -, same⟩ := exact
  have ran := proper.run (proper.enough ended)
  rw [ended] at ran
  cases ran
  refine visited_exact_iff.mp fun page => ?_
  rw [← same page, List.map_map]
  exact (congrArg (page ∈ ·) (List.map_id _)).symm.to_iff

theorem Small.exact (small : Small data) (proper : Proper data) : Exact data := by
  refine ⟨_, _, proper.run (Nat.lt_succ_self _), ?_, fun page => ?_⟩
  · simp only [List.mem_map]
    rintro entry ⟨page, -, rfl⟩
    rfl
  · rw [← visited_exact_iff.mpr small page, List.map_map]
    exact (congrArg (page ∈ ·) (List.map_id _)).to_iff

/-- The addresses of a block below 4 GiB are proper. -/
theorem proper_of_low (low : data.start < 2 ^ 32) : Proper data := by
  have size := data.total_size_lt
  refine ⟨by unfold multiboot_count; omega, fun j less => .inl ?_⟩
  unfold multiboot_count at less
  omega

/-- The loop maps exactly the pages that the block overlaps only for blocks of less than 1024 bytes
    at proper addresses, as those below 4 GiB are. -/
theorem remap_multiboot_exact_iff (data : multiboot_data) :
    (Exact data ↔ Small data ∧ Proper data) ∧ (data.start < 2 ^ 32 → Proper data) := by
  refine ⟨⟨fun exact => ⟨exact.small, exact.proper⟩, ?_⟩, proper_of_low⟩
  rintro ⟨small, proper⟩
  exact small.exact proper

/-- A block of one page at the beginning of a page. -/
def one_page : multiboot_data where
  start := 0x20000
  total_size := 0x1000
  memory_map := { size := 16, entry_size := 48, memory_maps := [] }
  sectionheaders := []

/-- Nine pages are mapped. -/
theorem remap_multiboot_overshoots : one_page.start % 8 = 0 ∧ ¬ Exact one_page :=
  ⟨by decide, fun exact => absurd exact.small.2.1 (by decide)⟩

end
end OsC.MultibootPages
