import OsC.FrameAllocator
import OsC.Draws
import Mathlib.Data.List.GetD

/-!
Runs of the frame allocator. For a memory map of disjoint entries it visits its
areas in the order of their bases, and the calls of `allocate_frame` draw from a
set of frames that the map, the kernel and the Multiboot block determine
(`Wanted`): in increasing order, all of them, and then fail.
-/
namespace OsC.FrameRuns
open OsC.Loop OsC.Word OsC.Frames OsC.Multiboot OsC.FrameAllocator OsC.Draws

/-- An entry covers the bytes from its base on. -/
def Covers (e : multiboot_memory_map_entry) (b : ℕ) : Prop := e.base_addr ≤ b ∧ b < e.base_addr + e.length

/-- The entries do not wrap and share no byte. -/
structure Sound (m : multiboot_memory_map) : Prop where
  fits : ∀ e ∈ m.memory_maps, e.base_addr + e.length ≤ 2 ^ 64
  apart : m.memory_maps.Pairwise fun e f => ∀ b, Covers e b → ¬ Covers f b

/-- The frame of the last byte of entry `i`. -/
def last_frame (m : multiboot_memory_map) (i : ℕ) : ℕ := get_frame_for_addr (last_addr (entry m i))

/-- The entries that become the current area: those of the length of a page, or
    the first entry if there are none. -/
def Area (m : multiboot_memory_map) (i : ℕ) : Prop :=
  i < m.memory_maps.length ∧
    (PAGE_SIZE ≤ (entry m i).length ∨ i = 0 ∧ ∀ j < m.memory_maps.length, (entry m j).length < PAGE_SIZE)

/-- The frames that the allocator skips. -/
def Reserved (a : frame_allocator) (n : ℕ) : Prop :=
  a.kernel_start ≤ n ∧ n ≤ a.kernel_end ∨ a.multiboot_start ≤ n ∧ n ≤ a.multiboot_end

/-- The frames up to the end of an area that are not skipped. -/
def Wanted (d : multiboot_data) (n : ℕ) : Prop :=
  (∃ i, Area d.memory_map i ∧ n ≤ last_frame d.memory_map i) ∧ ¬ Reserved (init_allocator d) n

/-! ### The memory map -/

section
variable {m : multiboot_memory_map} {i j : ℕ}

theorem entry_mem (inside : i < m.memory_maps.length) : entry m i ∈ m.memory_maps := by
  unfold entry
  rw [List.getD_eq_getElem _ _ inside]
  exact List.getElem_mem inside

theorem Sound.separate (sound : Sound m) (left : i < m.memory_maps.length) (right : j < m.memory_maps.length)
    (other : i ≠ j) (b : ℕ) (covers : Covers (entry m i) b) : ¬ Covers (entry m j) b := by
  unfold entry at covers ⊢
  rw [List.getD_eq_getElem _ _ left] at covers
  rw [List.getD_eq_getElem _ _ right]
  have apart := List.pairwise_iff_getElem.mp sound.apart
  rcases Nat.lt_or_gt_of_ne other with less | less
  · exact apart i j left right less b covers
  · exact fun covered => apart j i right left less b covered covers

/-- A later area of a page begins behind the end of the one before. -/
theorem Sound.behind (sound : Sound m) (left : i < m.memory_maps.length) (right : j < m.memory_maps.length)
    (page : PAGE_SIZE ≤ (entry m j).length) (below : (entry m i).base_addr < (entry m j).base_addr) :
    (entry m i).base_addr + (entry m i).length ≤ (entry m j).base_addr := by
  have other : i ≠ j := by
    rintro rfl
    exact lt_irrefl _ below
  by_contra overlap
  unfold PAGE_SIZE at page
  exact sound.separate left right other (entry m j).base_addr ⟨by omega, by omega⟩ ⟨by omega, by omega⟩

theorem Sound.base_unique (sound : Sound m) (left : i < m.memory_maps.length) (right : j < m.memory_maps.length)
    (pageLeft : PAGE_SIZE ≤ (entry m i).length) (pageRight : PAGE_SIZE ≤ (entry m j).length)
    (same : (entry m i).base_addr = (entry m j).base_addr) : i = j := by
  by_contra other
  unfold PAGE_SIZE at pageLeft pageRight
  exact sound.separate left right other (entry m j).base_addr ⟨by omega, by omega⟩ ⟨by omega, by omega⟩

theorem last_frame_lt (m : multiboot_memory_map) (i : ℕ) : last_frame m i < 2 ^ 52 := by
  have := wrap_lt ((entry m i).base_addr + (entry m i).length - 1)
  unfold last_frame get_frame_for_addr last_addr PAGE_SIZE
  omega

theorem Sound.last_addr (sound : Sound m) (inside : i < m.memory_maps.length)
    (page : PAGE_SIZE ≤ (entry m i).length) :
    last_addr (entry m i) = (entry m i).base_addr + (entry m i).length - 1 := by
  have fits := sound.fits _ (entry_mem inside)
  unfold PAGE_SIZE at page
  exact wrap_eq (by omega) (by omega)

end

/-! ### The search for an area -/

/-- The entries that a search from `min_addr` looks for. -/
def Qualifies (m : multiboot_memory_map) (min_addr i : ℕ) : Prop :=
  min_addr ≤ (entry m i).base_addr ∧ PAGE_SIZE ≤ (entry m i).length

/-- What a search has found after `n` entries: nothing, or the first of the least bases. -/
def Found (m : multiboot_memory_map) (min_addr index n : ℕ) (found : ℕ × ℕ) : Prop :=
  (found = (UINT64_MAX, index) ∧ ∀ i < n, Qualifies m min_addr i → UINT64_MAX ≤ (entry m i).base_addr) ∨
    (found.2 < n ∧ Qualifies m min_addr found.2 ∧ found.1 = (entry m found.2).base_addr ∧
      ∀ i < n, Qualifies m min_addr i → found.1 ≤ (entry m i).base_addr)

theorem select_turn_found {m : multiboot_memory_map} {min_addr index n : ℕ} {found : ℕ × ℕ}
    (before : Found m min_addr index n found) : Found m min_addr index (n + 1) (select_turn m min_addr found n) := by
  have upTo : ∀ i < n + 1, i < n ∨ i = n := fun i less => by omega
  by_cases takes : min_addr ≤ (entry m n).base_addr ∧ (entry m n).length ≥ PAGE_SIZE ∧ found.1 > (entry m n).base_addr
  · have turn : select_turn m min_addr found n = ((entry m n).base_addr, n) := if_pos takes
    rw [turn]
    refine .inr ⟨Nat.lt_succ_self n, ⟨takes.1, takes.2.1⟩, rfl, fun i less qualifies => ?_⟩
    rcases upTo i less with earlier | rfl
    · rcases before with ⟨rfl, none⟩ | ⟨_, _, _, least⟩
      · exact le_trans (le_of_lt takes.2.2) (none i earlier qualifies)
      · exact le_trans (le_of_lt takes.2.2) (least i earlier qualifies)
    · exact le_refl _
  · have turn : select_turn m min_addr found n = found := if_neg takes
    rw [turn]
    have notLess : Qualifies m min_addr n → found.1 ≤ (entry m n).base_addr := by
      rintro ⟨above, page⟩
      exact Nat.not_lt.mp fun less => takes ⟨above, page, less⟩
    rcases before with ⟨rfl, none⟩ | ⟨inside, qualified, base, least⟩
    · refine .inl ⟨rfl, fun i less qualifies => ?_⟩
      rcases upTo i less with earlier | rfl
      · exact none i earlier qualifies
      · exact notLess qualifies
    · refine .inr ⟨by omega, qualified, base, fun i less qualifies => ?_⟩
      rcases upTo i less with earlier | rfl
      · exact least i earlier qualifies
      · exact notLess qualifies

theorem select_found (m : multiboot_memory_map) (min_addr index n : ℕ) :
    Found m min_addr index n ((List.range n).foldl (select_turn m min_addr) (UINT64_MAX, index)) := by
  induction n with
  | zero => exact .inl ⟨rfl, fun i less => absurd less (Nat.not_lt_zero i)⟩
  | succ n ih =>
    rw [List.range_succ, List.foldl_append]
    exact select_turn_found ih

/-- A search in a sound map finds nothing only if no entry qualifies; otherwise it finds the least base. -/
theorem Sound.select_area {m : multiboot_memory_map} (sound : Sound m) (min_addr index : ℕ) :
    (select_area m m.memory_maps.length min_addr index = index ∧
      ∀ i < m.memory_maps.length, ¬ Qualifies m min_addr i) ∨
    ∃ k < m.memory_maps.length, select_area m m.memory_maps.length min_addr index = k ∧ Qualifies m min_addr k ∧
      ∀ i < m.memory_maps.length, Qualifies m min_addr i → (entry m k).base_addr ≤ (entry m i).base_addr := by
  rcases select_found m min_addr index m.memory_maps.length with ⟨found, none⟩ | ⟨inside, qualified, base, least⟩
  · refine .inl ⟨congrArg Prod.snd found, fun i less qualifies => ?_⟩
    have := none i less qualifies
    have := sound.fits _ (entry_mem less)
    have := qualifies.2
    unfold PAGE_SIZE UINT64_MAX at *
    omega
  · refine .inr ⟨_, inside, rfl, qualified, fun i less qualifies => ?_⟩
    rw [← base]
    exact least i less qualifies

/-! ### What a turn keeps -/

/-- The four cases of a turn. -/
theorem turn_cases (a : frame_allocator) :
    (a.entry_index = a.num_entries ∧ allocate_turn a = .inr (-1, 0, a)) ∨
    (a.entry_index ≠ a.num_entries ∧ last_frame a.mem_map a.entry_index < a.next_free_frame ∧
      allocate_turn a = .inl (switch_area a)) ∨
    (a.entry_index ≠ a.num_entries ∧ a.next_free_frame ≤ last_frame a.mem_map a.entry_index ∧
      Reserved a a.next_free_frame ∧ allocate_turn a = .inl (advance a)) ∨
    (a.entry_index ≠ a.num_entries ∧ a.next_free_frame ≤ last_frame a.mem_map a.entry_index ∧
      ¬ Reserved a a.next_free_frame ∧ allocate_turn a = .inr (0, a.next_free_frame, advance a)) := by
  by_cases ended : a.entry_index = a.num_entries
  · exact .inl ⟨ended, by simp [allocate_turn, ended]⟩
  refine .inr ?_
  by_cases past : last_frame a.mem_map a.entry_index < a.next_free_frame
  · refine .inl ⟨ended, past, ?_⟩
    unfold last_frame at past
    simp [allocate_turn, ended, past]
  refine .inr ?_
  have within := Nat.not_lt.mp past
  have notPast : ¬ a.next_free_frame > get_frame_for_addr (last_addr (entry a.mem_map a.entry_index)) := past
  by_cases kernel : a.next_free_frame ≥ a.kernel_start ∧ a.next_free_frame ≤ a.kernel_end
  · exact .inl ⟨ended, within, .inl kernel, by simp only [allocate_turn, if_neg ended, if_neg notPast, if_pos kernel]⟩
  by_cases multiboot : a.next_free_frame ≥ a.multiboot_start ∧ a.next_free_frame ≤ a.multiboot_end
  · refine .inl ⟨ended, within, .inr multiboot, ?_⟩
    simp only [allocate_turn, if_neg ended, if_neg notPast, if_neg kernel, if_pos multiboot]
  · refine .inr ⟨ended, within, ?_, ?_⟩
    · rintro (inKernel | inMultiboot)
      · exact kernel inKernel
      · exact multiboot inMultiboot
    · simp only [allocate_turn, if_neg ended, if_neg notPast, if_neg kernel, if_neg multiboot]

/-- A turn that goes on leaves the area or passes a reserved frame. -/
theorem turn_goes {a b : frame_allocator} (goes : allocate_turn a = .inl b) :
    (a.entry_index ≠ a.num_entries ∧ last_frame a.mem_map a.entry_index < a.next_free_frame ∧ b = switch_area a) ∨
    (a.next_free_frame ≤ last_frame a.mem_map a.entry_index ∧ Reserved a a.next_free_frame ∧ b = advance a) := by
  rcases turn_cases a with ⟨_, turn⟩ | ⟨going, past, turn⟩ | ⟨_, within, reserved, turn⟩ | ⟨_, _, _, turn⟩ <;>
    rw [turn] at goes <;> cases goes
  · exact .inl ⟨going, past, rfl⟩
  · exact .inr ⟨within, reserved, rfl⟩

/-- A turn that returns has no area left, or gives out the frame at the cursor. -/
theorem turn_leaves {a : frame_allocator} {r : ℤ × ℕ × frame_allocator} (leaves : allocate_turn a = .inr r) :
    (a.entry_index = a.num_entries ∧ r = (-1, 0, a)) ∨
    (a.entry_index ≠ a.num_entries ∧ a.next_free_frame ≤ last_frame a.mem_map a.entry_index ∧
      ¬ Reserved a a.next_free_frame ∧ r = (0, a.next_free_frame, advance a)) := by
  rcases turn_cases a with ⟨ended, turn⟩ | ⟨_, _, turn⟩ | ⟨_, _, _, turn⟩ | ⟨going, within, free, turn⟩ <;>
    rw [turn] at leaves <;> cases leaves
  · exact .inl ⟨ended, rfl⟩
  · exact .inr ⟨going, within, free, rfl⟩

theorem advance_next {a : frame_allocator} {m : multiboot_memory_map} {i : ℕ} (within : a.next_free_frame ≤ last_frame m i) :
    (advance a).next_free_frame = a.next_free_frame + 1 := by
  have limit := last_frame_lt m i
  change wrap ((a.next_free_frame : ℤ) + 1) = _
  exact wrap_eq (by omega) (by omega)

/-- Only the two cursors change after `init_allocator`. -/
def FromInit (d : multiboot_data) (a : frame_allocator) : Prop :=
  a = { init_allocator d with next_free_frame := a.next_free_frame, entry_index := a.entry_index }

section
variable {d : multiboot_data} {a : frame_allocator}

theorem FromInit.init : FromInit d (init_allocator d) := rfl

theorem FromInit.switch (fixed : FromInit d a) : FromInit d (switch_area a) := by
  unfold FromInit switch_area at *
  rw [fixed]

theorem FromInit.advance (fixed : FromInit d a) : FromInit d (advance a) := by
  unfold FromInit FrameAllocator.advance at *
  rw [fixed]

theorem FromInit.mem_map (fixed : FromInit d a) : a.mem_map = d.memory_map :=
  congrArg frame_allocator.mem_map fixed

theorem FromInit.reserved (fixed : FromInit d a) (n : ℕ) : Reserved a n ↔ Reserved (init_allocator d) n := by
  rw [fixed]
  rfl

theorem num_entries_eq (m : multiboot_memory_map) : wrap (m.size - 4 * 4) / m.entry_size = m.memory_maps.length := by
  have header := m.header
  have size := m.size_lt
  rw [wrap_eq (n := m.size - 16) (by omega) (by omega), m.counted]

theorem FromInit.num_entries (fixed : FromInit d a) : a.num_entries = d.memory_map.memory_maps.length :=
  (congrArg frame_allocator.num_entries fixed).trans (num_entries_eq d.memory_map)

/-- Where the current area begins, or the top of memory if there is none. -/
def floor (a : frame_allocator) : ℕ :=
  if a.entry_index = a.num_entries then 2 ^ 64 else (entry a.mem_map a.entry_index).base_addr

/-- The cursors in step: the frames of every area below the current one are passed. -/
structure Inv (d : multiboot_data) (a : frame_allocator) : Prop where
  fixed : FromInit d a
  low : a.next_free_frame ≤ 2 ^ 52
  current : a.entry_index ≠ a.num_entries → Area d.memory_map a.entry_index
  passed : ∀ i, Area d.memory_map i → (entry d.memory_map i).base_addr < floor a →
    last_frame d.memory_map i < a.next_free_frame

theorem Inv.init (sound : Sound d.memory_map) : Inv d (init_allocator d) := by
  have count := FromInit.num_entries (FromInit.init (d := d))
  have index : (init_allocator d).entry_index = select_area d.memory_map d.memory_map.memory_maps.length 0 0 := by
    rw [← count]
    rfl
  refine ⟨.init, Nat.zero_le _, ?_, ?_⟩
  · intro notEnded
    rw [count, index] at notEnded
    rw [index]
    rcases sound.select_area 0 0 with ⟨first, none⟩ | ⟨k, inside, found, qualified, _⟩
    · rw [first] at notEnded ⊢
      refine ⟨by omega, .inr ⟨rfl, fun j less => ?_⟩⟩
      exact Nat.not_le.mp fun page => none j less ⟨Nat.zero_le _, page⟩
    · rw [found]
      exact ⟨inside, .inl qualified.2⟩
  · intro i area below
    exfalso
    obtain ⟨inside, shape⟩ := area
    have notEnded : (init_allocator d).entry_index ≠ (init_allocator d).num_entries := by
      rw [count, index]
      rcases sound.select_area 0 0 with ⟨first, _⟩ | ⟨k, less, found, _⟩ <;> omega
    rw [floor, if_neg notEnded, index] at below
    change (entry d.memory_map i).base_addr < (entry d.memory_map _).base_addr at below
    rcases sound.select_area 0 0 with ⟨first, none⟩ | ⟨k, less, found, qualified, least⟩
    · rcases shape with page | ⟨rfl, _⟩
      · exact none i inside ⟨Nat.zero_le _, page⟩
      · rw [first] at below
        exact lt_irrefl _ below
    · rw [found] at below
      rcases shape with page | ⟨_, short⟩
      · exact absurd (least i inside ⟨Nat.zero_le _, page⟩) (by omega)
      · have := short k less
        have := qualified.2
        omega

/-- An area is passed with the current one, or the next search looks for it. -/
theorem Inv.passed_or_above (sound : Sound d.memory_map) (inv : Inv d a) (notEnded : a.entry_index ≠ a.num_entries)
    (past : last_frame d.memory_map a.entry_index < a.next_free_frame) {i : ℕ} (area : Area d.memory_map i) :
    last_frame d.memory_map i < a.next_free_frame ∨
      Qualifies d.memory_map (last_addr (entry d.memory_map a.entry_index)) i := by
  obtain ⟨currentIn, currentShape⟩ := inv.current notEnded
  obtain ⟨inside, shape⟩ := area
  have floorIs : floor a = (entry d.memory_map a.entry_index).base_addr := by
    rw [floor, if_neg notEnded, inv.fixed.mem_map]
  by_cases same : i = a.entry_index
  · exact .inl (same ▸ past)
  -- Two areas have the length of a page: the other kind is the only area.
  have page : PAGE_SIZE ≤ (entry d.memory_map i).length := by
    rcases shape with page | ⟨rfl, short⟩
    · exact page
    · rcases currentShape with page | ⟨zero, _⟩
      · exact absurd (short _ currentIn) (Nat.not_lt.mpr page)
      · exact absurd zero.symm same
  have currentPage : PAGE_SIZE ≤ (entry d.memory_map a.entry_index).length := by
    rcases currentShape with page | ⟨_, short⟩
    · exact page
    · exact absurd (short i inside) (Nat.not_lt.mpr page)
  rcases Nat.lt_trichotomy (entry d.memory_map i).base_addr (entry d.memory_map a.entry_index).base_addr with
    below | equal | above
  · exact .inl (inv.passed i ⟨inside, .inl page⟩ (floorIs ▸ below))
  · exact absurd (sound.base_unique inside currentIn page currentPage equal) same
  · refine .inr ⟨?_, page⟩
    rw [sound.last_addr currentIn currentPage]
    have := sound.behind currentIn inside page above
    omega

theorem Inv.switch (sound : Sound d.memory_map) (inv : Inv d a) (notEnded : a.entry_index ≠ a.num_entries)
    (past : last_frame d.memory_map a.entry_index < a.next_free_frame) :
    Inv d (switch_area a) ∧ floor a < floor (switch_area a) := by
  have count := inv.fixed.num_entries
  have map := inv.fixed.mem_map
  have split := fun i => inv.passed_or_above (i := i) sound notEnded past
  have floorIs : floor a = (entry d.memory_map a.entry_index).base_addr := by
    rw [floor, if_neg notEnded, map]
  have index : (switch_area a).entry_index = select_area d.memory_map d.memory_map.memory_maps.length
      (last_addr (entry d.memory_map a.entry_index)) d.memory_map.memory_maps.length := by
    rw [← count, ← map]
    rfl
  rcases sound.select_area (last_addr (entry d.memory_map a.entry_index)) d.memory_map.memory_maps.length with
    ⟨none, nothing⟩ | ⟨k, inside, found, qualified, least⟩
  · have ended : (switch_area a).entry_index = (switch_area a).num_entries := (index.trans none).trans count.symm
    have top : floor (switch_area a) = 2 ^ 64 := if_pos ended
    refine ⟨⟨inv.fixed.switch, inv.low, fun going => absurd ended going, fun i area _ => ?_⟩, ?_⟩
    · exact (split i area).resolve_right (nothing i area.1)
    · rw [top, floorIs]
      exact (entry d.memory_map a.entry_index).base_lt
  · have current : (switch_area a).entry_index = k := index.trans found
    have going : (switch_area a).entry_index ≠ (switch_area a).num_entries := by
      rw [current]
      exact fun same => absurd (same.trans count) (Nat.ne_of_lt inside)
    have next : floor (switch_area a) = (entry d.memory_map k).base_addr := by
      rw [floor, if_neg going, current, ← map]
      rfl
    refine ⟨⟨inv.fixed.switch, inv.low, ?_, fun i area below => ?_⟩, ?_⟩
    · rw [current]
      exact fun _ => ⟨inside, .inl qualified.2⟩
    · refine (split i area).resolve_right fun qualifies => ?_
      rw [next] at below
      exact absurd (least i area.1 qualifies) (Nat.not_le.mpr below)
    · rw [next, floorIs]
      obtain ⟨currentIn, shape⟩ := inv.current notEnded
      rcases shape with page | ⟨_, short⟩
      · have above := qualified.1
        rw [sound.last_addr currentIn page] at above
        unfold PAGE_SIZE at page
        omega
      · exact absurd (short k inside) (Nat.not_lt.mpr qualified.2)

theorem Inv.advance (inv : Inv d a) (within : a.next_free_frame ≤ last_frame d.memory_map a.entry_index) :
    Inv d (advance a) ∧ (advance a).next_free_frame = a.next_free_frame + 1 := by
  have limit := last_frame_lt d.memory_map a.entry_index
  have next := advance_next within
  refine ⟨⟨inv.fixed.advance, by omega, inv.current, fun i area below => ?_⟩, next⟩
  have := inv.passed i area below
  omega

/-! ### What a call gives out -/

/-- The wanted frames that the cursor has not passed. -/
def Left (d : multiboot_data) (a : frame_allocator) : Set ℕ := {n | Wanted d n ∧ a.next_free_frame ≤ n}

theorem Left.empty (inv : Inv d a) (ended : a.entry_index = a.num_entries) : Left d a = ∅ := by
  refine Set.eq_empty_of_forall_notMem ?_
  rintro n ⟨⟨⟨i, area, within⟩, _⟩, above⟩
  have passed := inv.passed i area (by rw [floor, if_pos ended]; exact (entry d.memory_map i).base_lt)
  omega

theorem Left.skip (inv : Inv d a) (within : a.next_free_frame ≤ last_frame d.memory_map a.entry_index)
    (reserved : Reserved a a.next_free_frame) : Left d (FrameAllocator.advance a) = Left d a := by
  have next := (inv.advance within).2
  ext n
  refine and_congr_right fun wanted => ?_
  have other : n ≠ a.next_free_frame := by
    rintro rfl
    exact wanted.2 ((inv.fixed.reserved _).mp reserved)
  omega

theorem Left.least (inv : Inv d a) (notEnded : a.entry_index ≠ a.num_entries)
    (within : a.next_free_frame ≤ last_frame d.memory_map a.entry_index)
    (free : ¬ Reserved a a.next_free_frame) :
    IsLeast (Left d a) a.next_free_frame ∧
      Left d (FrameAllocator.advance a) = Left d a \ {a.next_free_frame} := by
  have next := (inv.advance within).2
  have wanted : Wanted d a.next_free_frame :=
    ⟨⟨_, inv.current notEnded, within⟩, fun reserved => free ((inv.fixed.reserved _).mpr reserved)⟩
  refine ⟨⟨⟨wanted, le_refl _⟩, fun n left => left.2⟩, ?_⟩
  ext n
  constructor
  · rintro ⟨isWanted, above⟩
    refine ⟨⟨isWanted, by omega⟩, fun same => ?_⟩
    have : n = a.next_free_frame := same
    omega
  · rintro ⟨⟨isWanted, above⟩, other⟩
    have : n ≠ a.next_free_frame := other
    exact ⟨isWanted, by omega⟩

/-- What a call leaves with: it fails when no frame is left, or draws the least one. -/
def Outcome (d : multiboot_data) (a : frame_allocator) (r : ℤ × ℕ × frame_allocator) : Prop :=
  Inv d r.2.2 ∧
    ((r.1 = -1 ∧ Left d a = ∅ ∧ Left d r.2.2 = Left d a ∧ r.2.2.entry_index = r.2.2.num_entries) ∨
      (r.1 = 0 ∧ IsLeast (Left d a) r.2.1 ∧ Left d r.2.2 = Left d a \ {r.2.1} ∧
        r.2.1 < r.2.2.next_free_frame ∧ r.2.2.next_free_frame ≤ 2 ^ 52))

theorem allocate_frame_outcome (sound : Sound d.memory_map) (inv : Inv d a) {r : ℤ × ℕ × frame_allocator}
    (ran : Returns allocate_turn a r) : Outcome d a r := by
  refine Returns.invariant (I := fun b => Inv d b ∧ Left d b = Left d a) (Q := Outcome d a) ?_ ?_ ⟨inv, rfl⟩ ran
  · rintro b c ⟨inv, left⟩ goes
    rcases turn_goes goes with ⟨going, past, rfl⟩ | ⟨within, reserved, rfl⟩
    · rw [inv.fixed.mem_map] at past
      exact ⟨(inv.switch sound going past).1, left⟩
    · rw [inv.fixed.mem_map] at within
      exact ⟨(inv.advance within).1, (Left.skip inv within reserved).trans left⟩
  · rintro b r ⟨inv, left⟩ leaves
    rcases turn_leaves leaves with ⟨ended, rfl⟩ | ⟨going, within, free, rfl⟩
    · exact ⟨inv, .inl ⟨rfl, left ▸ Left.empty inv ended, left, ended⟩⟩
    · rw [inv.fixed.mem_map] at within
      obtain ⟨least, after⟩ := Left.least inv going within free
      obtain ⟨kept, next⟩ := inv.advance within
      exact ⟨kept, .inr ⟨rfl, left ▸ least, left ▸ after, next ▸ Nat.lt_succ_self _, kept.low⟩⟩

theorem allocate_frame_returns (sound : Sound d.memory_map) (inv : Inv d a) : ∃ r, Returns allocate_turn a r := by
  -- Each turn raises the frame cursor or the base of the current area.
  refine Returns.total (I := Inv d) (fun b => (2 ^ 64 - floor b) * 2 ^ 53 + (2 ^ 52 - b.next_free_frame)) ?_ a inv
  intro b c inv goes
  rcases turn_goes goes with ⟨going, past, rfl⟩ | ⟨within, _, rfl⟩
  · rw [inv.fixed.mem_map] at past
    obtain ⟨kept, higher⟩ := inv.switch sound going past
    have same : (switch_area b).next_free_frame = b.next_free_frame := rfl
    have below : floor b < 2 ^ 64 := by
      rw [floor, if_neg going]
      exact (entry b.mem_map b.entry_index).base_lt
    refine ⟨kept, ?_⟩
    rw [same]
    omega
  · rw [inv.fixed.mem_map] at within
    obtain ⟨kept, next⟩ := inv.advance within
    have same : floor (FrameAllocator.advance b) = floor b := rfl
    have limit := last_frame_lt d.memory_map b.entry_index
    refine ⟨kept, ?_⟩
    rw [same, next]
    omega

/-! ### Runs -/

/-- A call of `allocate_frame` on a number of turns. One that takes more counts as failed. -/
def next_frame (turns : ℕ) (a : frame_allocator) : ℤ × ℕ × frame_allocator :=
  (FrameAllocator.allocate_frame turns a).getD (-1, 0, a)

/-- On enough turns it gives what `allocate_frame` returns. -/
theorem next_frame_returns {a : frame_allocator} {r : ℤ × ℕ × frame_allocator} (returns : Returns allocate_turn a r) :
    ∃ least, ∀ turns ≥ least, next_frame turns a = r := by
  obtain ⟨least, ran⟩ := returns
  refine ⟨least, fun turns enough => ?_⟩
  rw [next_frame, FrameAllocator.allocate_frame, iterate_mono enough ran]
  rfl

/-- Calls of `allocate_frame`: their results and frames, and the allocator after them. -/
inductive Calls : frame_allocator → List (ℤ × ℕ) → frame_allocator → Prop
  | nil (a : frame_allocator) : Calls a [] a
  | cons {a b c : frame_allocator} {result : ℤ} {frame : ℕ} {results : List (ℤ × ℕ)}
      (ran : Returns allocate_turn a (result, frame, b)) (rest : Calls b results c) :
      Calls a ((result, frame) :: results) c

/-- The frames returned with result 0. -/
def granted (results : List (ℤ × ℕ)) : List ℕ := (results.filter (·.1 = 0)).map (·.2)

theorem mem_granted {results : List (ℤ × ℕ)} {n : ℕ} : n ∈ granted results ↔ (0, n) ∈ results := by
  simp [granted]

/-- The calls of a run draw from the frames that are left. -/
theorem Calls.drawn (sound : Sound d.memory_map) {b : frame_allocator} {results : List (ℤ × ℕ)} (inv : Inv d a)
    (calls : Calls a results b) : Inv d b ∧ Drawn (Left d a) (granted results) (Left d b) := by
  induction calls with
  | nil a => exact ⟨inv, .nil _⟩
  | @cons a b c result frame results ran rest ih =>
    obtain ⟨kept, outcome⟩ := allocate_frame_outcome sound inv ran
    obtain ⟨last, drawn⟩ := ih kept
    refine ⟨last, ?_⟩
    rcases outcome with ⟨failed, _, same, _⟩ | ⟨worked, least, after, _⟩
    · obtain rfl : result = -1 := failed
      have none : granted ((-1, frame) :: results) = granted results := by simp [granted]
      rw [none, ← same]
      exact drawn
    · obtain rfl : result = 0 := worked
      have one : granted ((0, frame) :: results) = frame :: granted results := by simp [granted]
      rw [one]
      exact .cons least (after ▸ drawn)

/-- Without a current area every call fails and changes nothing. -/
theorem Calls.ended {b : frame_allocator} {results : List (ℤ × ℕ)} (ended : a.entry_index = a.num_entries)
    (calls : Calls a results b) : b = a ∧ ∀ x ∈ results, x.1 = -1 := by
  induction calls with
  | nil a => simp
  | @cons a b c result frame results ran rest ih =>
    have turn : Returns allocate_turn a (-1, 0, a) := .of_inr (by simp [allocate_turn, ended])
    cases ran.unique turn
    obtain ⟨same, fails⟩ := ih ended
    refine ⟨same, fun x member => ?_⟩
    rcases List.mem_cons.mp member with rfl | later
    · rfl
    · exact fails x later

/-- Some run fails at last, and every call before works. -/
theorem exists_complete (sound : Sound d.memory_map) (inv : Inv d a) :
    ∃ results b, Calls a results b ∧ (∀ x ∈ results, x.1 = 0) ∧ ∃ n c, Returns allocate_turn b (-1, n, c) := by
  induction turns : 2 ^ 52 + 1 - a.next_free_frame using Nat.strong_induction_on generalizing a with
  | _ k ih =>
    obtain ⟨⟨result, frame, b⟩, ran⟩ := allocate_frame_returns sound inv
    obtain ⟨kept, outcome⟩ := allocate_frame_outcome sound inv ran
    rcases outcome with ⟨failed, _⟩ | ⟨worked, least, _, later, _⟩
    · obtain rfl : result = -1 := failed
      exact ⟨[], a, .nil a, by simp, frame, b, ran⟩
    · obtain rfl : result = 0 := worked
      have low := kept.low
      have above := least.1.2
      obtain ⟨results, c, calls, works, fails⟩ := ih (2 ^ 52 + 1 - b.next_free_frame) (by simp only at *; omega) kept rfl
      refine ⟨(0, frame) :: results, c, .cons ran calls, fun x member => ?_, fails⟩
      rcases List.mem_cons.mp member with rfl | rest
      · rfl
      · exact works x rest

/-- The frame lies wholly inside an entry of the length of a page. -/
def Whole (d : multiboot_data) (n : ℕ) : Prop :=
  ∃ e ∈ d.memory_map.memory_maps, PAGE_SIZE ≤ e.length ∧ e.base_addr ≤ PAGE_SIZE * n ∧
    PAGE_SIZE * n + PAGE_SIZE ≤ e.base_addr + e.length

theorem Whole.wanted (sound : Sound d.memory_map) {n : ℕ} (whole : Whole d n)
    (free : ¬ Reserved (init_allocator d) n) : Wanted d n := by
  obtain ⟨e, member, page, starts, ends⟩ := whole
  obtain ⟨i, inside, rfl⟩ := List.mem_iff_getElem.mp member
  have same : entry d.memory_map i = d.memory_map.memory_maps[i] := List.getD_eq_getElem _ _ inside
  rw [← same] at page starts ends
  refine ⟨⟨i, ⟨inside, .inl page⟩, ?_⟩, free⟩
  rw [last_frame, sound.last_addr inside page, get_frame_for_addr]
  unfold PAGE_SIZE at *
  omega

/-- In a run over disjoint entries each call returns, the frames increase, some
    call fails, and when one does every frame that lies wholly inside an area and
    outside the kernel and the Multiboot block has been given out, and every later
    call fails and leaves the allocator as it is. -/
theorem allocate_frame_runs (sound : Sound d.memory_map) :
    (∀ results a, Calls (init_allocator d) results a →
      (∃ r, Returns allocate_turn a r) ∧ (granted results).Pairwise (· < ·)) ∧
    (∃ results a, Calls (init_allocator d) results a ∧ (∀ x ∈ results, x.1 = 0) ∧
      ∃ n b, Returns allocate_turn a (-1, n, b)) ∧
    ∀ results a r n b, Calls (init_allocator d) results a → Returns allocate_turn a (r, n, b) → r ≠ 0 →
      r = -1 ∧ (∀ f, Whole d f → ¬ Reserved (init_allocator d) f → f ∈ granted results) ∧
      ∀ later c, Calls b later c → c = b ∧ ∀ x ∈ later, x.1 = -1 := by
  have start := Inv.init sound
  refine ⟨fun results a calls => ?_, exists_complete sound start, fun results a r n b calls ran failed => ?_⟩
  · obtain ⟨inv, drawn⟩ := calls.drawn sound start
    exact ⟨allocate_frame_returns sound inv, drawn.increasing⟩
  · obtain ⟨inv, drawn⟩ := calls.drawn sound start
    obtain ⟨_, outcome⟩ := allocate_frame_outcome sound inv ran
    rcases outcome with ⟨isFailure, none, _, ended⟩ | ⟨worked, _⟩
    · refine ⟨isFailure, fun f whole free => ?_, fun later c rest => rest.ended ended⟩
      have left : f ∈ Left d (init_allocator d) := ⟨whole.wanted sound free, Nat.zero_le f⟩
      rcases drawn.split left with given | still
      · exact given
      · rw [none] at still
        exact absurd still (Set.notMem_empty f)
    · exact absurd worked failed

/-- A reserved area above a usable one, listed first; the kernel lies at the start
    of the usable area and the Multiboot block below it. -/
def two_areas : multiboot_data where
  start := 0x9000
  total_size := 0x500
  memory_map :=
    { size := 64
      entry_size := 24
      memory_maps := [{ base_addr := 0x200000, length := 0x10000, type := 2 },
        { base_addr := 0x100000, length := 0x100000, type := 1 }] }
  sectionheaders := [{ sh_flags := 6, sh_addr := 0x100000, sh_size := 0x8000 }]

theorem two_areas_sound : Sound two_areas.memory_map := by
  refine ⟨fun e member => ?_, ?_⟩
  · have all : ∀ e ∈ two_areas.memory_map.memory_maps, e.base_addr + e.length ≤ 2 ^ 64 := by decide
    exact all e member
  · refine List.pairwise_pair.mpr ?_
    rintro b ⟨_, _⟩ ⟨_, _⟩
    simp only at *
    omega

theorem allocate_frame_runs_two_areas :
    (∀ results a, Calls (init_allocator two_areas) results a →
      (∃ r, Returns allocate_turn a r) ∧ (granted results).Pairwise (· < ·)) ∧
    (∃ results a, Calls (init_allocator two_areas) results a ∧ (∀ x ∈ results, x.1 = 0) ∧
      ∃ n b, Returns allocate_turn a (-1, n, b)) ∧
    ∀ results a r n b, Calls (init_allocator two_areas) results a → Returns allocate_turn a (r, n, b) → r ≠ 0 →
      r = -1 ∧ (∀ f, Whole two_areas f → ¬ Reserved (init_allocator two_areas) f → f ∈ granted results) ∧
      ∀ later c, Calls b later c → c = b ∧ ∀ x ∈ later, x.1 = -1 :=
  allocate_frame_runs two_areas_sound

/-- All bytes of the frame are covered by usable memory. -/
def Available (d : multiboot_data) (n : ℕ) : Prop :=
  ∀ b, PAGE_SIZE * n ≤ b → b < PAGE_SIZE * n + PAGE_SIZE →
    ∃ e ∈ d.memory_map.memory_maps, e.type = multiboot_ram_available ∧ Covers e b

/-- The frames given out are usable memory exactly when every wanted frame is. -/
theorem granted_available_iff (sound : Sound d.memory_map) :
    (∀ results a, Calls (init_allocator d) results a → ∀ n, (0, n) ∈ results → Available d n) ↔
      ∀ n, Wanted d n → Available d n := by
  have start := Inv.init sound
  constructor
  · intro all n wanted
    obtain ⟨results, a, calls, _, r, b, ran⟩ := exists_complete sound start
    obtain ⟨inv, drawn⟩ := calls.drawn sound start
    have left : n ∈ Left d (init_allocator d) := ⟨wanted, Nat.zero_le n⟩
    rcases drawn.split left with given | still
    · exact all results a calls n (mem_granted.mp given)
    · obtain ⟨_, ⟨_, none, _⟩ | ⟨worked, _⟩⟩ := allocate_frame_outcome sound inv ran
      · rw [none] at still
        exact absurd still (Set.notMem_empty n)
      · exact absurd worked (show (-1 : ℤ) ≠ 0 by decide)
  · intro all results a calls n member
    obtain ⟨_, drawn⟩ := calls.drawn sound start
    exact all n (drawn.mem (mem_granted.mpr member)).1

theorem granted_available_iff_two_areas :
    (∀ results a, Calls (init_allocator two_areas) results a → ∀ n, (0, n) ∈ results → Available two_areas n) ↔
      ∀ n, Wanted two_areas n → Available two_areas n :=
  granted_available_iff two_areas_sound

/-- The first call gives out frame 0, which no entry covers. -/
theorem allocate_frame_leaves_areas :
    Sound two_areas.memory_map ∧ ∃ results a n, Calls (init_allocator two_areas) results a ∧ (0, n) ∈ results ∧
      ¬ Available two_areas n := by
  refine ⟨two_areas_sound, [(0, 0)], _, 0, .cons (.of_inr rfl) (.nil _), List.mem_cons_self, fun available => ?_⟩
  obtain ⟨e, member, _, covers, _⟩ := available 0 (le_refl _) (by decide)
  have above : ∀ e ∈ two_areas.memory_map.memory_maps, ¬ e.base_addr ≤ 0 := by decide
  exact above e member covers

/-! ### The kernel and the Multiboot block -/

theorem kernel_turns (headers : List multiboot_elf_section_header) (bounds : ℕ × ℕ) :
    (headers.foldl kernel_turn bounds).1 ≤ bounds.1 ∧ bounds.2 ≤ (headers.foldl kernel_turn bounds).2 ∧
      ∀ s ∈ headers, (0 < s.sh_size → (headers.foldl kernel_turn bounds).1 ≤ s.sh_addr) ∧
        wrap (s.sh_size + s.sh_addr) ≤ (headers.foldl kernel_turn bounds).2 := by
  induction headers generalizing bounds with
  | nil => simp
  | cons header headers ih =>
    obtain ⟨below, above, members⟩ := ih (kernel_turn bounds header)
    have starts : (kernel_turn bounds header).1 ≤ bounds.1 ∧
        (0 < header.sh_size → (kernel_turn bounds header).1 ≤ header.sh_addr) := by
      simp only [kernel_turn]
      split <;> omega
    have ends : bounds.2 ≤ (kernel_turn bounds header).2 ∧
        wrap (header.sh_size + header.sh_addr) ≤ (kernel_turn bounds header).2 := by
      simp only [kernel_turn]
      split <;> omega
    refine ⟨below.trans starts.1, ends.1.trans above, fun s member => ?_⟩
    rcases List.mem_cons.mp member with rfl | later
    · exact ⟨fun nonempty => below.trans (starts.2 nonempty), ends.2.trans above⟩
    · exact members s later

/-- For any memory map, a frame that is given out was outside the reserved frames. -/
theorem Calls.not_reserved {b : frame_allocator} {results : List (ℤ × ℕ)} (fixed : FromInit d a)
    (calls : Calls a results b) {n : ℕ} (member : (0, n) ∈ results) : ¬ Reserved (init_allocator d) n := by
  induction calls with
  | nil a => simp at member
  | @cons a b c result frame results ran rest ih =>
    have outcome : FromInit d b ∧ (result = 0 → ¬ Reserved (init_allocator d) frame) := by
      refine Returns.invariant (I := FromInit d) (Q := fun r =>
        FromInit d r.2.2 ∧ (r.1 = 0 → ¬ Reserved (init_allocator d) r.2.1)) ?_ ?_ fixed ran
      · intro s s' fixed goes
        rcases turn_goes goes with ⟨_, _, rfl⟩ | ⟨_, _, rfl⟩
        · exact fixed.switch
        · exact fixed.advance
      · intro s r fixed leaves
        rcases turn_leaves leaves with ⟨_, rfl⟩ | ⟨_, _, free, rfl⟩
        · exact ⟨fixed, fun worked => absurd worked (show (-1 : ℤ) ≠ 0 by decide)⟩
        · exact ⟨fixed.advance, fun _ reserved => free ((fixed.reserved _).mpr reserved)⟩
    rcases List.mem_cons.mp member with first | later
    · cases first
      exact outcome.2 rfl
    · exact ih outcome.1 later

/-- For any memory map, no frame that is given out shares a byte with a section
    or with the Multiboot block. -/
theorem granted_apart (sections : ∀ s ∈ d.sectionheaders, s.sh_addr + s.sh_size < 2 ^ 64)
    (block : d.start + d.total_size < 2 ^ 64) {results : List (ℤ × ℕ)} {a : frame_allocator}
    (calls : Calls (init_allocator d) results a) {n : ℕ} (member : (0, n) ∈ results) {b : ℕ}
    (starts : PAGE_SIZE * n ≤ b) (ends : b < PAGE_SIZE * n + PAGE_SIZE) :
    (∀ s ∈ d.sectionheaders, ¬ (s.sh_addr ≤ b ∧ b < s.sh_addr + s.sh_size)) ∧
      ¬ (d.start ≤ b ∧ b < d.start + d.total_size) := by
  have free := calls.not_reserved .init member
  have frame : b / PAGE_SIZE = n := by
    unfold PAGE_SIZE at *
    omega
  constructor
  · rintro s inSections ⟨above, below⟩
    obtain ⟨low, high⟩ := (kernel_turns d.sectionheaders (UINT64_MAX, 0)).2.2 s inSections
    have noWrap := sections s inSections
    rw [wrap_eq (n := s.sh_size + s.sh_addr) (by push_cast; rfl) (by omega)] at high
    refine free (.inl ⟨?_, ?_⟩) <;> rw [← frame]
    · exact Nat.div_le_div_right ((low (by omega)).trans above)
    · exact Nat.div_le_div_right (le_trans (by omega) high)
  · rintro ⟨above, below⟩
    have last : wrap ((d.start : ℤ) + d.total_size) = d.start + d.total_size := wrap_eq (by push_cast; rfl) block
    refine free (.inr ⟨?_, ?_⟩) <;> rw [← frame]
    · exact Nat.div_le_div_right above
    · show b / PAGE_SIZE ≤ wrap ((d.start : ℤ) + d.total_size) / PAGE_SIZE
      rw [last]
      exact Nat.div_le_div_right (le_of_lt below)

theorem granted_apart_two_areas :
    (∀ s ∈ two_areas.sectionheaders, ¬ (s.sh_addr ≤ 0 ∧ 0 < s.sh_addr + s.sh_size)) ∧
      ¬ (two_areas.start ≤ 0 ∧ 0 < two_areas.start + two_areas.total_size) :=
  granted_apart (by decide) (by decide) (.cons (.of_inr rfl) (.nil _)) List.mem_cons_self (n := 0) (le_refl _)
    (by decide)

end

end OsC.FrameRuns
