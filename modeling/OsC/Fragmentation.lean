import OsC.HeapRuns

/-!
What a heap can still serve. Blocks are split and never joined, so that however
a run goes on, and even if it frees everything, a request is met in it only if
the head, a free node or a live block is large enough already
(`served_later_iff`). A run whose requests all have one size is the exception: it
splits nothing, and its heap is as large as the most blocks live at a time
(`pool_meets_iff`).
-/
namespace OsC.Fragmentation
open OsC.Word OsC.Links OsC.Tiling OsC.Blocks OsC.Kmalloc OsC.HeapRefine OsC.HeapRuns

/-- A well-formed call. -/
def Step (s s' : State) : Prop := ∃ c fuel, WellFormed 32 s c ∧ call fuel s c = some s'

/-- The calls of a run from the state on. -/
def Onward : State → State → Prop := Relation.ReflTransGen Step

/-- The head, a free node or a live block is large enough for `n` bytes. -/
def Servable (s : State) (n : ℕ) : Prop :=
  n + 32 ≤ s.heap.size s.heap.free_list_head ∨ ¬ FallsThrough s.heap n ∨
    ∃ addr ∈ s.live, n ≤ s.heap.size (get_free_node_from_addr addr)

/-! ### Blocks are never joined -/

def Serves (L : Layout) (n : ℕ) : Prop := n + 32 ≤ L.head.size ∨ ∃ b ∈ L.free ++ L.live, n ≤ b.size

section
variable {L L' : Layout} {n : ℕ}

/-- A block is split into smaller ones. -/
theorem taken_serves {k : ℕ} {front back : List Blk} {b : Blk} (free : L.free = front ++ b :: back) (enough : k ≤ b.size)
    (serves : Serves (L.taken k front b back) n) : Serves L n := by
  have whole : b ∈ L.free ++ L.live := by simp [free]
  rcases serves with head | ⟨c, member, large⟩
  · exact .inl head
  · have parts : c ∈ front ∨ c ∈ Layout.leftover k b ∨ c ∈ back ∨ c = Layout.granted k b ∨ c ∈ L.live := by
      simpa [Layout.taken, or_assoc] using member
    rcases parts with before | rest | behind | rfl | live
    · exact .inr ⟨c, by simp [free, before], large⟩
    · unfold Layout.leftover at rest
      split at rest
      next => cases rest
      next =>
        obtain rfl := List.mem_singleton.mp rest
        exact .inr ⟨b, whole, by change n ≤ b.size - k - 16 at large; omega⟩
    · exact .inr ⟨c, by simp [free, behind], large⟩
    · refine .inr ⟨b, whole, le_trans large ?_⟩
      unfold Layout.granted
      split
      next => exact le_refl b.size
      next => exact enough
    · exact .inr ⟨c, List.mem_append_right _ live, large⟩

theorem cut_serves {k : ℕ} (enough : k + 32 ≤ L.head.size) (serves : Serves (L.cut k) n) : Serves L n := by
  rcases serves with head | ⟨c, member, large⟩
  · change n + 32 ≤ L.head.size - k - 16 at head
    exact .inl (by omega)
  · have parts : c ∈ L.free ∨ c = ⟨L.head.addr, k⟩ ∨ c ∈ L.live := by simpa [Layout.cut] using member
    rcases parts with free | rfl | live
    · exact .inr ⟨c, List.mem_append_left _ free, large⟩
    · change n ≤ k at large
      exact .inl (by omega)
    · exact .inr ⟨c, List.mem_append_right _ live, large⟩

theorem malloc_serves {k : ℕ} (fits : L.Fits 32 k) (serves : Serves (L.malloc k).2 n) : Serves L n := by
  unfold Layout.malloc at serves
  cases found : Layout.fit k L.free with
  | some parts =>
    obtain ⟨front, b, back⟩ := parts
    obtain ⟨free, enough, -⟩ := Layout.fit_some found
    rw [found] at serves
    exact taken_serves free enough serves
  | none =>
    rw [found] at serves
    exact cut_serves (fits (Layout.fit_none.mp found)) serves

theorem release_serves {b : Blk} (live : b ∈ L.live) : Serves (L.release b) n ↔ Serves L n := by
  have same : ∀ c, c ∈ (L.release b).free ++ (L.release b).live ↔ c ∈ L.free ++ L.live := by
    intro c
    have order : (b :: L.free ++ L.live.erase b).Perm (L.free ++ L.live) :=
      List.perm_middle.symm.trans ((List.perm_cons_erase live).symm.append_left L.free)
    exact order.mem_iff
  unfold Serves
  simp only [same]
  rfl

/-- A well-formed call leaves nothing that could not be served before it. -/
theorem step_serves {s s' : State} (holds : Holds 32 s L) (step : Step s s') :
    ∃ L', Holds 32 s' L' ∧ ∀ n, Serves L' n → Serves L n := by
  obtain ⟨c, fuel, formed, ran⟩ := step
  obtain ⟨_, L', moves, holds', -⟩ := holds.step (by decide) formed ran
  refine ⟨L', holds', fun n serves => ?_⟩
  cases moves with
  | kmalloc k => exact malloc_serves (holds.fits (n := k) formed rfl) serves
  | stays live large => exact serves
  | @moves b k live small =>
    obtain ⟨node, size⟩ := holds.represents.node_size live
    have fits : L.Fits 32 k := holds.fits formed (by simp [Call.requests, node, size, Nat.not_le.mpr small])
    have kept : b ∈ (L.malloc k).2.live := by
      rw [(Layout.malloc_live k L).2.2]
      exact List.mem_cons_of_mem _ live
    exact malloc_serves fits ((release_serves kept).mp serves)
  | kfree live => exact (release_serves live).mp serves

theorem onward_serves {s s' : State} (holds : Holds 32 s L) (onward : Onward s s') :
    ∃ L', Holds 32 s' L' ∧ ∀ n, Serves L' n → Serves L n := by
  induction onward with
  | refl => exact ⟨L, holds, fun _ serves => serves⟩
  | tail _ step ih =>
    obtain ⟨L₁, holds₁, before⟩ := ih
    obtain ⟨L₂, holds₂, after⟩ := step_serves holds₁ step
    exact ⟨L₂, holds₂, fun n serves => before n (after n serves)⟩

/-- What a layout serves, said of the heap. -/
theorem servable_iff {s : State} (holds : Holds 32 s L) (n : ℕ) : Servable s n ↔ Serves L n := by
  have rep := holds.represents
  have head : s.heap.size s.heap.free_list_head = L.head.size := by
    rw [rep.head]
    exact rep.sizes L.head List.mem_cons_self
  have free : ¬ FallsThrough s.heap n ↔ ∃ b ∈ L.free, n ≤ b.size := by
    rw [fallsThrough_iff rep]
    push Not
    rfl
  have live : (∃ addr ∈ s.live, n ≤ s.heap.size (get_free_node_from_addr addr)) ↔ ∃ b ∈ L.live, n ≤ b.size := by
    constructor
    · rintro ⟨addr, member, large⟩
      obtain ⟨b, live, rfl⟩ := holds.block member
      obtain ⟨node, size⟩ := rep.node_size live
      rw [node, size] at large
      exact ⟨b, live, large⟩
    · rintro ⟨b, live, large⟩
      obtain ⟨node, size⟩ := rep.node_size live
      refine ⟨b.payload, holds.live.mem_iff.mp (List.mem_map_of_mem live), ?_⟩
      rw [node, size]
      exact large
  rw [Servable, head, free, live, Serves]
  simp only [List.mem_append, or_and_right, exists_or]

end

/-- A request is met at some later time, whatever is freed until then, exactly
    when the head, a free node or a live block is large enough for it now. -/
theorem served_later_iff {s : State} (run : Run 32 s) (n : ℕ) : (∃ s', Onward s s' ∧ Meets s'.heap n) ↔ Servable s n := by
  obtain ⟨L, holds⟩ := run.holds (by decide) (by decide)
  rw [servable_iff holds]
  constructor
  · rintro ⟨s', onward, meets⟩
    obtain ⟨L', holds', before⟩ := onward_serves holds onward
    refine before n ?_
    by_cases small : ∀ b ∈ L'.free, b.size < n
    · exact .inl (fits_of_meets holds'.represents meets small)
    · push Not at small
      obtain ⟨b, free, large⟩ := small
      exact .inr ⟨b, List.mem_append_left _ free, large⟩
  · have room := holds.room
    have here : L.Fits 32 n → ∃ s', Onward s s' ∧ Meets s'.heap n := fun fits =>
      ⟨s, .refl, meets_of_fits holds.represents (by omega) fits⟩
    rintro (head | ⟨b, member, large⟩)
    · exact here fun _ => head
    rcases List.mem_append.mp member with free | live
    · exact here fun small => absurd (small b free) (Nat.not_lt.mpr large)
    -- The block has to be freed first.
    · have formed : WellFormed 32 s (.kfree b.payload) := holds.formed (.kfree live) fun _ asked => (by cases asked)
      refine ⟨_, .single ⟨_, 0, formed, rfl⟩, meets_of_fits (holds.represents.kfree live) ?_ ?_⟩
      · change 16 ≤ L.head.size
        omega
      · intro small
        exact absurd (small b List.mem_cons_self) (Nat.not_lt.mpr large)

/-- With 60000 of the bytes given out, 70000 are never available again. -/
theorem served_later_iff_once_split : ∃ s, Run 32 s ∧ s.live = [1073741840] ∧ ¬ ∃ s', Onward s s' ∧ Meets s'.heap 70000 := by
  have formed : WellFormed 32 ⟨init_heap fun _ => 0, []⟩ (.kmalloc 60000) := by
    refine ⟨fun addr asked => (by cases asked), fun bytes asked _ => ?_⟩
    cases asked
    decide
  have run := Run.step (.kmalloc 60000) 1 (.init fun _ => 0) formed rfl
  refine ⟨_, run, rfl, fun later => ?_⟩
  rcases (served_later_iff run 70000).mp later with head | free | ⟨addr, live, large⟩
  · exact absurd head (by decide)
  · exact free ⟨1, rfl⟩
  · obtain rfl := List.mem_singleton.mp live
    exact absurd large (by decide)

/-! ### Blocks of one size -/

/-- The runs that only give out and free blocks of `n` bytes, with the most blocks
    live at a time. -/
inductive Pool (n : ℕ) : State → ℕ → Prop
  | init (mem : Bytes.Memory) : Pool n ⟨init_heap mem, []⟩ 0
  | kmalloc {s s' : State} {peak : ℕ} (fuel : ℕ) (before : Pool n s peak) (ran : call fuel s (.kmalloc n) = some s') :
      Pool n s' (max peak (s.live.length + 1))
  | kfree {s s' : State} {peak : ℕ} (fuel addr : ℕ) (before : Pool n s peak) (live : addr ∈ s.live)
      (ran : call fuel s (.kfree addr) = some s') : Pool n s' peak

/-- All blocks have `n` bytes, and there are `peak` of them. -/
structure Uniform (n peak : ℕ) (L : Layout) : Prop where
  sizes : ∀ b ∈ L.free ++ L.live, b.size = n
  count : L.free.length + L.live.length = peak
  head : L.head.size + peak * (n + 16) = heap_size

section
variable {L : Layout} {n peak : ℕ}

/-- A request takes a whole block, or all blocks are live. -/
theorem Uniform.malloc (uniform : Uniform n peak L) (fits : max peak (L.live.length + 1) * (n + 16) + 16 ≤ heap_size) :
    L.Fits 32 n ∧ Uniform n (max peak (L.live.length + 1)) (L.malloc n).2 := by
  obtain ⟨sizes, count, head⟩ := uniform
  cases shape : L.free with
  | nil =>
    have all : L.live.length = peak := by simpa [shape] using count
    have grown : max peak (L.live.length + 1) = peak + 1 := by omega
    have one : (peak + 1) * (n + 16) = peak * (n + 16) + (n + 16) := Nat.succ_mul peak (n + 16)
    rw [grown, one] at fits
    have cut : L.malloc n = (⟨L.head.addr, n⟩, L.cut n) := by simp [Layout.malloc, shape, Layout.fit]
    rw [grown, cut]
    refine ⟨fun _ => by omega, ⟨?_, ?_, ?_⟩⟩
    · intro b member
      have parts : b = ⟨L.head.addr, n⟩ ∨ b ∈ L.live := by simpa [Layout.cut, shape] using member
      rcases parts with rfl | live
      · rfl
      · exact sizes b (List.mem_append_right _ live)
    · simp [Layout.cut, shape, all]
    · change L.head.size - n - 16 + (peak + 1) * (n + 16) = heap_size
      omega
  | cons b rest =>
    have size : b.size = n := sizes b (by simp [shape])
    have kept : max peak (L.live.length + 1) = peak := by
      simp only [shape, List.length_cons] at count
      omega
    have whole : L.malloc n = (b, ⟨L.head, rest, b :: L.live⟩) := by
      simp [Layout.malloc, shape, Layout.fit, size, Layout.granted, Layout.taken, Layout.leftover]
    rw [kept, whole]
    refine ⟨fun small => absurd (small b (by simp [shape])) (by omega), ⟨?_, ?_, head⟩⟩
    · intro c member
      refine sizes c ?_
      simp only [shape, List.mem_append, List.mem_cons] at member ⊢
      tauto
    · simp only [shape, List.length_cons] at count ⊢
      omega

theorem Uniform.release {b : Blk} (uniform : Uniform n peak L) (live : b ∈ L.live) : Uniform n peak (L.release b) := by
  have order : ((L.release b).free ++ (L.release b).live).Perm (L.free ++ L.live) :=
    List.perm_middle.symm.trans ((List.perm_cons_erase live).symm.append_left L.free)
  refine ⟨fun c member => uniform.sizes c (order.mem_iff.mp member), ?_, uniform.head⟩
  have same := order.length_eq
  rw [List.length_append, List.length_append] at same
  exact same.trans uniform.count

/-- As long as the blocks fit, the run is one whose requests leave 32 bytes of the head. -/
theorem Pool.holds {s : State} (pool : Pool n s peak) (fits : peak * (n + 16) + 16 ≤ heap_size) :
    Run 32 s ∧ ∃ L, Holds 32 s L ∧ Uniform n peak L := by
  induction pool with
  | init mem =>
    have run : Run 32 ⟨init_heap mem, []⟩ := .init mem
    refine ⟨run, initial, ⟨represents_init mem, List.Perm.refl _, by decide⟩, ⟨?_, rfl, ?_⟩⟩
    · intro b member
      cases member
    · rw [Nat.zero_mul]
      rfl
  | @kmalloc s s' peak fuel before ran ih =>
    have less : peak * (n + 16) ≤ max peak (s.live.length + 1) * (n + 16) :=
      Nat.mul_le_mul_right (n + 16) (le_max_left peak _)
    obtain ⟨run, L, holds, uniform⟩ := ih (by omega)
    have count : L.live.length = s.live.length := by simpa using holds.live.length_eq
    rw [← count] at fits ⊢
    obtain ⟨enough, after⟩ := uniform.malloc fits
    have formed : WellFormed 32 s (.kmalloc n) := by
      refine holds.formed (.kmalloc n) fun bytes asked => ?_
      cases asked
      exact enough
    obtain ⟨_, L', moves, holds', -⟩ := holds.step (by decide) formed ran
    cases moves
    exact ⟨run.step _ fuel formed ran, _, holds', after⟩
  | @kfree s s' peak fuel addr before live ran ih =>
    obtain ⟨run, L, holds, uniform⟩ := ih fits
    obtain ⟨b, member, rfl⟩ := holds.block live
    have formed : WellFormed 32 s (.kfree b.payload) := holds.formed (.kfree member) fun _ asked => (by cases asked)
    obtain rfl := Option.some.inj ran
    exact ⟨run.step _ fuel formed rfl, _, ⟨holds.represents.kfree member, erase_payload holds.live member, holds.room⟩,
      uniform.release member⟩

/-- In a run with blocks of one size the head stands behind as many blocks as were
    live at a time, and a request is met exactly when they and the one that it
    adds fit in the heap with 16 bytes to spare. -/
theorem pool_meets_iff {s : State} (pool : Pool n s peak) (fits : peak * (n + 16) + 16 ≤ heap_size) :
    s.heap.free_list_head = heap_start_addr + peak * (n + 16) ∧
      (Meets s.heap n ↔ max peak (s.live.length + 1) * (n + 16) + 16 ≤ heap_size) := by
  obtain ⟨-, L, holds, uniform⟩ := pool.holds fits
  have rep := holds.represents
  have count : L.live.length = s.live.length := by simpa using holds.live.length_eq
  have top := rep.top
  have head := uniform.head
  refine ⟨?_, ?_⟩
  · rw [rep.head]
    omega
  rw [← count]
  constructor
  · intro meets
    have blocks := uniform.count
    cases shape : L.free with
    | nil =>
      have enough : n + 32 ≤ L.head.size := fits_of_meets rep meets (by simp [shape])
      have all : L.live.length = peak := by simpa [shape] using blocks
      have one : (peak + 1) * (n + 16) = peak * (n + 16) + (n + 16) := Nat.succ_mul peak (n + 16)
      rw [all, max_eq_right (Nat.le_succ peak), one]
      omega
    | cons b rest =>
      rw [shape, List.length_cons] at blocks
      rw [max_eq_left (by omega)]
      exact fits
  · intro room
    have := holds.room
    exact meets_of_fits rep (by omega) (uniform.malloc room).1

end

/-- Two blocks of 51168 bytes fit, and one of them freed and given out again does. -/
theorem pool_meets_iff_two_blocks : ∃ s, Pool 51168 s 2 ∧ s.heap.free_list_head = heap_start_addr + 2 * (51168 + 16) ∧
    (Meets s.heap 51168 ↔ max 2 (s.live.length + 1) * (51168 + 16) + 16 ≤ heap_size) := by
  have first := Pool.kmalloc (n := 51168) 1 (.init fun _ => 0) rfl
  have second := first.kmalloc 1 rfl
  have pool := second.kfree 0 1073741840 (by decide) rfl
  exact ⟨_, pool, pool_meets_iff pool (by decide)⟩

end OsC.Fragmentation
