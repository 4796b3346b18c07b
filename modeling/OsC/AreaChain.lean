import OsC.FrameRuns
import Mathlib.Data.Fintype.EquivFin
import Mathlib.Order.Interval.Finset.Nat

/-!
Whether the loop of `allocate_frame` ends. The areas become current one after
another, each with the least base at or above the last byte of the one before.
For an area whose end wraps the last byte lies below its base, so that the areas
may come back to an earlier one; the loop of some later call then does not end
(`allocate_frame_total_iff`).
-/
namespace OsC.AreaChain
open OsC.Loop OsC.Word OsC.Frames OsC.Multiboot OsC.FrameAllocator OsC.FrameRuns Relation

/-! ### Chains that end -/

section
variable {α : Type} {r : α → α → Prop} {a b : α}

/-- A chain that ends comes back to no element. -/
theorem no_return_of_acc (ends : Acc (fun b a => r a b) a) (reaches : ReflTransGen r a b) : ¬ TransGen r b b := by
  have last : Acc (fun b a => r a b) b := by
    induction reaches with
    | refl => exact ends
    | tail _ step ih => exact ih.inv step
  have behind := last.transGen
  clear last reaches
  induction behind with
  | intro b _ ih => exact fun back => ih b (transGen_swap.mpr back) back

/-- Where finitely many elements can be reached and none comes back, every chain ends. -/
theorem acc_of_no_return (finite : {b | ReflTransGen r a b}.Finite) (none : ∀ b, ReflTransGen r a b → ¬ TransGen r b b) :
    Acc (fun b a => r a b) a := by
  have : Finite {b | ReflTransGen r a b} := finite
  have : IsTrans {b | ReflTransGen r a b} fun b c => TransGen r c.1 b.1 := ⟨fun _ _ _ first second => second.trans first⟩
  have : Std.Irrefl fun (b c : {b | ReflTransGen r a b}) => TransGen r c.1 b.1 := ⟨fun b returns => none b.1 b.2 returns⟩
  have founded := Finite.wellFounded_of_trans_of_irrefl fun (b c : {b | ReflTransGen r a b}) => TransGen r c.1 b.1
  have all : ∀ b : {b | ReflTransGen r a b}, Acc (fun b a => r a b) b.1 := by
    intro b
    induction b using founded.induction with
    | _ b ih => exact ⟨_, fun c step => ih ⟨c, b.2.tail step⟩ (.single step)⟩
  exact all ⟨a, .refl⟩

end
/-! ### The next area -/

section
variable {m : multiboot_memory_map} {min_addr i j k : ℕ}

/-- The first of the entries with the least base that a search from `min_addr` looks for. A
    base of `UINT64_MAX` is not found. -/
structure Least (m : multiboot_memory_map) (min_addr j : ℕ) : Prop where
  inside : j < m.memory_maps.length
  qualifies : Qualifies m min_addr j
  below : (entry m j).base_addr < UINT64_MAX
  least : ∀ k < m.memory_maps.length, Qualifies m min_addr k → (entry m j).base_addr ≤ (entry m k).base_addr
  first : ∀ k < j, Qualifies m min_addr k → (entry m j).base_addr < (entry m k).base_addr

/-- The area `j` becomes current behind `i`. -/
def Follows (m : multiboot_memory_map) (i j : ℕ) : Prop := Least m (last_addr (entry m i)) j

theorem Least.unique (left : Least m min_addr j) (right : Least m min_addr k) : j = k := by
  rcases Nat.lt_trichotomy j k with less | same | more
  · have := right.first j less left.qualifies
    have := left.least k right.inside right.qualifies
    omega
  · exact same
  · have := left.first k more right.qualifies
    have := right.least j left.inside left.qualifies
    omega

/-- What a search finds comes before the entries with the same base. -/
theorem select_first (m : multiboot_memory_map) (min_addr index n : ℕ) {found : ℕ × ℕ}
    (isFound : (List.range n).foldl (select_turn m min_addr) (UINT64_MAX, index) = found) :
    found = (UINT64_MAX, index) ∨ found.1 < UINT64_MAX ∧ ∀ k < found.2, Qualifies m min_addr k → found.1 < (entry m k).base_addr := by
  induction n generalizing found with
  | zero => exact .inl isFound.symm
  | succ n ih =>
    rw [List.range_succ, List.foldl_append] at isFound
    obtain ⟨before, isBefore⟩ : ∃ b, b = (List.range n).foldl (select_turn m min_addr) (UINT64_MAX, index) := ⟨_, rfl⟩
    have least : ∀ k < n, Qualifies m min_addr k → before.1 ≤ (entry m k).base_addr := by
      rcases select_found m min_addr index n with ⟨same, none⟩ | ⟨_, _, _, least⟩
      · rw [isBefore, same]
        exact none
      · rw [isBefore]
        exact least
    rw [← isBefore] at isFound
    change select_turn m min_addr before n = found at isFound
    by_cases takes : min_addr ≤ (entry m n).base_addr ∧ (entry m n).length ≥ PAGE_SIZE ∧ before.1 > (entry m n).base_addr
    · rw [select_turn, if_pos takes] at isFound
      subst isFound
      refine .inr ⟨?_, fun k less qualifies => lt_of_lt_of_le takes.2.2 (least k less qualifies)⟩
      rcases ih isBefore.symm with start | ⟨low, -⟩
      · rw [start] at takes
        exact takes.2.2
      · exact lt_trans takes.2.2 low
    · rw [select_turn, if_neg takes] at isFound
      exact isFound ▸ ih isBefore.symm

/-- No entry is to be found. -/
def Nothing (m : multiboot_memory_map) (min_addr : ℕ) : Prop :=
  ∀ j < m.memory_maps.length, Qualifies m min_addr j → UINT64_MAX ≤ (entry m j).base_addr

theorem Nothing.not_least (nothing : Nothing m min_addr) (found : Least m min_addr j) : False :=
  absurd found.below (Nat.not_lt.mpr (nothing j found.inside found.qualifies))

/-- A search finds the first of the least bases, or nothing. -/
theorem select_area_cases (m : multiboot_memory_map) (min_addr index : ℕ) :
    Least m min_addr (select_area m m.memory_maps.length min_addr index) ∨
      select_area m m.memory_maps.length min_addr index = index ∧ Nothing m min_addr := by
  rcases select_found m min_addr index m.memory_maps.length with ⟨same, none⟩ | ⟨inside, qualified, base, least⟩
  · exact .inr ⟨congrArg Prod.snd same, none⟩
  · rcases select_first m min_addr index m.memory_maps.length rfl with same | ⟨low, first⟩
    · refine .inr ⟨congrArg Prod.snd same, fun j inside qualifies => ?_⟩
      have above := least j inside qualifies
      rw [same] at above
      exact above
    · rw [base] at low least first
      exact .inl ⟨inside, qualified, low, least, first⟩

end
/-! ### The loop -/

section
variable {d : multiboot_data} {a b : frame_allocator}

/-- The areas behind an entry. -/
abbrev Ends (m : multiboot_memory_map) (i : ℕ) : Prop := Acc (fun j i => Follows m i j) i

/-- What holds of the allocator: a turn keeps the map, and the cursor is not beyond the last frame. -/
structure Kept (d : multiboot_data) (P : ℕ → Prop) (a : frame_allocator) : Prop where
  fixed : FromInit d a
  low : a.next_free_frame ≤ 2 ^ 52
  current : P a.entry_index

/-- A property of the current area that the search keeps. -/
def Closed (d : multiboot_data) (P : ℕ → Prop) : Prop :=
  ∀ i, P i → i ≠ d.memory_map.memory_maps.length →
    P (select_area d.memory_map d.memory_map.memory_maps.length (last_addr (entry d.memory_map i))
      d.memory_map.memory_maps.length)

variable {P : ℕ → Prop}

theorem Kept.ended_iff (kept : Kept d P a) : a.entry_index = a.num_entries ↔
    a.entry_index = d.memory_map.memory_maps.length := by
  rw [kept.fixed.num_entries]

theorem Kept.switch (closed : Closed d P) (kept : Kept d P a) (going : a.entry_index ≠ a.num_entries) :
    Kept d P (switch_area a) := by
  have next : P (switch_area a).entry_index := by
    have searched := closed _ kept.current fun same => going (kept.ended_iff.mpr same)
    rw [← kept.fixed.num_entries, ← kept.fixed.mem_map] at searched
    exact searched
  exact ⟨kept.fixed.switch, kept.low, next⟩

theorem Kept.advance (kept : Kept d P a) (within : a.next_free_frame ≤ last_frame a.mem_map a.entry_index) :
    Kept d P (advance a) ∧ (advance a).next_free_frame = a.next_free_frame + 1 := by
  have limit := last_frame_lt a.mem_map a.entry_index
  have next := advance_next within
  exact ⟨⟨kept.fixed.advance, by omega, kept.current⟩, next⟩

/-- What a call that returns leaves. -/
theorem Kept.returns (closed : Closed d P) (kept : Kept d P a) {r : ℤ × ℕ × frame_allocator} (ran : Returns allocate_turn a r) :
    Kept d P r.2.2 ∧ (r.2.2.entry_index = d.memory_map.memory_maps.length ∨ a.next_free_frame < r.2.2.next_free_frame) := by
  refine Returns.invariant (I := fun b => Kept d P b ∧ a.next_free_frame ≤ b.next_free_frame) (Q := fun r =>
    Kept d P r.2.2 ∧ (r.2.2.entry_index = d.memory_map.memory_maps.length ∨ a.next_free_frame < r.2.2.next_free_frame))
    ?_ ?_ ⟨kept, le_refl _⟩ ran
  · rintro b c ⟨kept, above⟩ goes
    rcases turn_goes goes with ⟨going, _, rfl⟩ | ⟨within, _, rfl⟩
    · exact ⟨kept.switch closed going, above⟩
    · obtain ⟨after, next⟩ := kept.advance within
      exact ⟨after, by omega⟩
  · rintro b r ⟨kept, above⟩ leaves
    rcases turn_leaves leaves with ⟨ended, rfl⟩ | ⟨_, within, _, rfl⟩
    · exact ⟨kept, .inl (kept.ended_iff.mp ended)⟩
    · obtain ⟨after, next⟩ := kept.advance within
      exact ⟨after, .inr (by rw [next]; omega)⟩

theorem Kept.calls (closed : Closed d P) (kept : Kept d P a) {results : List (ℤ × ℕ)} (calls : Calls a results b) : Kept d P b := by
  induction calls with
  | nil => exact kept
  | cons ran _ ih => exact ih (kept.returns closed ran).1

theorem Kept.init (start : P (select_area d.memory_map d.memory_map.memory_maps.length 0 0)) : Kept d P (init_allocator d) := by
  refine ⟨.init, Nat.zero_le _, ?_⟩
  have index : (init_allocator d).entry_index = select_area d.memory_map (init_allocator d).num_entries 0 0 := rfl
  rw [index, FromInit.num_entries .init]
  exact start

/-! ### Chains that end -/

/-- There is no area left, or the areas behind the current one end. -/
def Ending (d : multiboot_data) (i : ℕ) : Prop := i = d.memory_map.memory_maps.length ∨ Ends d.memory_map i

theorem ending_closed (d : multiboot_data) : Closed d (Ending d) := by
  rintro i (ended | ends) going
  · exact absurd ended going
  · rcases select_area_cases d.memory_map (last_addr (entry d.memory_map i)) d.memory_map.memory_maps.length with found | none
    · exact .inr (ends.inv found)
    · exact .inl none.1

theorem returns_of_ended (kept : Kept d P a) (ended : a.entry_index = d.memory_map.memory_maps.length) :
    Returns allocate_turn a (-1, 0, a) := by
  refine .of_inr ?_
  rw [allocate_turn, if_pos (kept.ended_iff.mpr ended)]

/-- A call returns if the areas end: each turn goes on to the next area or raises the frame cursor. -/
theorem returns_of_ending (kept : Kept d (Ending d) a) : ∃ r, Returns allocate_turn a r := by
  rcases kept.current with ended | ends
  · exact ⟨_, returns_of_ended kept ended⟩
  · obtain ⟨i, isCurrent⟩ : ∃ i, i = a.entry_index := ⟨_, rfl⟩
    rw [← isCurrent] at ends
    induction ends generalizing a with
    | intro i _ ih =>
      obtain ⟨left, isLeft⟩ : ∃ left, left = 2 ^ 52 - a.next_free_frame := ⟨_, rfl⟩
      induction left using Nat.strong_induction_on generalizing a with
      | _ left frames =>
        rcases turn_cases a with ⟨_, turn⟩ | ⟨going, _, turn⟩ | ⟨_, within, _, turn⟩ | ⟨_, _, _, turn⟩
        · exact ⟨_, .of_inr turn⟩
        · have switched := kept.switch (ending_closed d) going
          have index : (switch_area a).entry_index = select_area d.memory_map d.memory_map.memory_maps.length
              (last_addr (entry d.memory_map i)) d.memory_map.memory_maps.length := by
            rw [isCurrent, ← kept.fixed.num_entries, ← kept.fixed.mem_map]
            rfl
          rcases select_area_cases d.memory_map (last_addr (entry d.memory_map i)) d.memory_map.memory_maps.length with
            found | none
          · rw [← index] at found
            obtain ⟨r, ran⟩ := ih _ found switched rfl
            exact ⟨r, .of_inl turn ran⟩
          · exact ⟨_, .of_inl turn (returns_of_ended switched (index.trans none.1))⟩
        · obtain ⟨after, next⟩ := kept.advance within
          have low := after.low
          obtain ⟨r, ran⟩ := frames (2 ^ 52 - (advance a).next_free_frame) (by omega) after isCurrent rfl
          exact ⟨r, .of_inl turn ran⟩
        · exact ⟨_, .of_inr turn⟩

/-! ### Chains that do not end -/

/-- There is an area behind the current one, and the areas behind it do not end. -/
def Endless (d : multiboot_data) (i : ℕ) : Prop := i ≠ d.memory_map.memory_maps.length ∧ ¬ Ends d.memory_map i

theorem endless_closed (d : multiboot_data) : Closed d (Endless d) := by
  rintro i ⟨-, endless⟩ -
  obtain ⟨j, follows, still⟩ : ∃ j, Follows d.memory_map i j ∧ ¬ Ends d.memory_map j := by
    by_contra none
    refine endless ⟨_, fun j follows => ?_⟩
    by_contra still
    exact none ⟨j, follows, still⟩
  rcases select_area_cases d.memory_map (last_addr (entry d.memory_map i)) d.memory_map.memory_maps.length with found | ⟨_, none⟩
  · rw [found.unique follows]
    exact ⟨Nat.ne_of_lt follows.inside, still⟩
  · exact absurd follows none.not_least

/-- Where the areas do not end, each call that returns raises the frame cursor, and some call does not return. -/
theorem not_total_of_endless (kept : Kept d (Endless d) a)
    (total : ∀ results b, Calls a results b → ∃ r, Returns allocate_turn b r) : False := by
  obtain ⟨left, isLeft⟩ : ∃ left, left = 2 ^ 52 - a.next_free_frame := ⟨_, rfl⟩
  induction left using Nat.strong_induction_on generalizing a with
  | _ left ih =>
    obtain ⟨⟨result, frame, b⟩, ran⟩ := total [] a (.nil a)
    obtain ⟨after, ended | higher⟩ := kept.returns (endless_closed d) ran
    · exact after.current.1 ended
    · have low : b.next_free_frame ≤ 2 ^ 52 := after.low
      change a.next_free_frame < b.next_free_frame at higher
      exact ih (2 ^ 52 - b.next_free_frame) (by omega) after (fun results c calls => total _ c (.cons ran calls)) rfl

/-! ### When the loop ends -/

/-- From the area with the least base on, no area comes back to itself. -/
def NoReturn (m : multiboot_memory_map) : Prop :=
  ∀ i j, Least m 0 i → ReflTransGen (Follows m) i j → ¬ TransGen (Follows m) j j

theorem ends_iff (m : multiboot_memory_map) : NoReturn m ↔ ∀ i, Least m 0 i → Ends m i := by
  constructor
  · intro none i first
    refine acc_of_no_return ?_ fun j => none i j first
    refine (Set.finite_Iio m.memory_maps.length).subset fun j reaches => ?_
    rcases ReflTransGen.cases_tail reaches with same | ⟨k, _, follows⟩
    · exact same ▸ first.inside
    · exact follows.inside
  · intro ends i j first reaches
    exact no_return_of_acc (ends i first) reaches

theorem no_return_of_total (total : ∀ results a, Calls (init_allocator d) results a → ∃ r, Returns allocate_turn a r) :
    NoReturn d.memory_map := by
  refine (ends_iff _).mpr fun i first => ?_
  by_contra endless
  refine not_total_of_endless (.init ?_) total
  rcases select_area_cases d.memory_map 0 0 with found | ⟨_, none⟩
  · rw [found.unique first]
    exact ⟨Nat.ne_of_lt first.inside, endless⟩
  · exact absurd first none.not_least

theorem total_of_no_return (none : NoReturn d.memory_map) (results : List (ℤ × ℕ)) (a : frame_allocator)
    (calls : Calls (init_allocator d) results a) : ∃ r, Returns allocate_turn a r := by
  refine returns_of_ending (Kept.calls (ending_closed d) (.init ?_) calls)
  rcases select_area_cases d.memory_map 0 0 with found | ⟨_, nothing⟩
  · exact .inr ((ends_iff _).mp none _ found)
  · -- Without a first area none follows.
    refine .inr ⟨_, fun j follows => ?_⟩
    exact absurd follows.below (Nat.not_lt.mpr (nothing j follows.inside ⟨Nat.zero_le _, follows.qualifies.2⟩))

/-- An area that does not wrap is followed by one with a higher base. -/
theorem Follows.higher {m : multiboot_memory_map} {i j : ℕ} (follows : Follows m i j) (page : PAGE_SIZE ≤ (entry m i).length)
    (fits : (entry m i).base_addr + (entry m i).length ≤ 2 ^ 64) : (entry m i).base_addr < (entry m j).base_addr := by
  have last : last_addr (entry m i) = (entry m i).base_addr + (entry m i).length - 1 := by
    unfold PAGE_SIZE at page
    exact wrap_eq (by omega) (by omega)
  have above := follows.qualifies.1
  rw [last] at above
  unfold PAGE_SIZE at page
  omega

/-- If no entry of a page wraps, none comes back to itself. -/
theorem no_return_of_fits {m : multiboot_memory_map}
    (fits : ∀ e ∈ m.memory_maps, PAGE_SIZE ≤ e.length → e.base_addr + e.length ≤ 2 ^ 64) : NoReturn m := by
  intro i j first reaches back
  obtain ⟨k, -, follows⟩ := TransGen.tail'_iff.mp back
  have higher : ∀ {l}, TransGen (Follows m) j l → (entry m j).base_addr < (entry m l).base_addr := by
    intro l chain
    induction chain with
    | single step => exact step.higher follows.qualifies.2 (fits _ (entry_mem follows.inside) follows.qualifies.2)
    | tail chain step ih =>
      obtain ⟨_, -, before⟩ := TransGen.tail'_iff.mp chain
      exact lt_trans ih (step.higher before.qualifies.2 (fits _ (entry_mem before.inside) before.qualifies.2))
  exact lt_irrefl _ (higher back)

/-- For any memory map, the loop ends in every state that calls of `allocate_frame` reach exactly if no area comes back
    to itself. So it does if no entry of a page wraps. -/
theorem allocate_frame_total_iff (d : multiboot_data) :
    ((∀ results a, Calls (init_allocator d) results a → ∃ r, Returns allocate_turn a r) ↔ NoReturn d.memory_map) ∧
      ((∀ e ∈ d.memory_map.memory_maps, PAGE_SIZE ≤ e.length → e.base_addr + e.length ≤ 2 ^ 64) → NoReturn d.memory_map) :=
  ⟨⟨no_return_of_total, total_of_no_return⟩, no_return_of_fits⟩

/-- One area, whose end wraps to below its base. -/
def wrapping : multiboot_data where
  start := 0x7000
  total_size := 0x600
  memory_map :=
    { size := 56
      entry_size := 40
      memory_maps := [{ base_addr := 0x300000, length := 2 ^ 64 - 0x1000, type := 1 }] }
  sectionheaders := []

/-- The area comes back to itself, so that some call does not return. -/
theorem allocate_frame_not_total :
    ¬ ∀ results a, Calls (init_allocator wrapping) results a → ∃ r, Returns allocate_turn a r := by
  have follows : ∀ min_addr ≤ 0x300000, Least wrapping.memory_map min_addr 0 := by
    intro min_addr low
    refine ⟨by decide, ⟨low, by decide⟩, by decide, fun k inside _ => ?_, fun k less => absurd less (Nat.not_lt_zero k)⟩
    have zero : k = 0 := Nat.lt_one_iff.mp inside
    rw [zero]
  have self : Follows wrapping.memory_map 0 0 := follows _ (by decide)
  intro total
  exact no_return_of_total total 0 0 (follows 0 (Nat.zero_le _)) .refl (.single self)

end
end OsC.AreaChain
