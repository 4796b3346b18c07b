import OsC.HeapRuns

/-!
The alignment of the heap. `kmalloc` names an alignment of 8 but passes on the
request as it is, so that a block or node keeps to multiples of 8 exactly as
long as each request either is one or is served by a whole node
(`aligned_iff`).
-/
namespace OsC.Alignment
open OsC.Loop OsC.Links OsC.Blocks OsC.Kmalloc OsC.HeapRefine OsC.HeapRuns

/-- The variable of `kmalloc`. -/
def alignment : ℕ := 8

/-- The returned addresses, the head and the nodes of the free list are aligned. -/
structure Aligned (s : State) : Prop where
  live : ∀ addr ∈ s.live, alignment ∣ addr
  head : alignment ∣ s.heap.free_list_head
  list : ∃ nodes, Chain s.heap.next s.heap.free_list_head nodes ∧ 0 ∉ nodes ∧ ∀ node ∈ nodes, alignment ∣ node

/-- The first node that is large enough has too little left for another one. -/
def ServedWhole (h : Heap) (bytes : ℕ) : Prop :=
  ∃ node, Returns (fit_step h bytes) h.free_list_head (some node) ∧ h.size (h.next node) - bytes < minimum_alloc_size

/-- The bytes that a call asks of `allocate_memory` are a multiple of 8, or a whole node serves them. -/
def Rounded (s : State) (c : Call) : Prop :=
  ∀ bytes, c.requests s = some bytes → alignment ∣ bytes ∨ ServedWhole s.heap bytes

/-- The states of the runs whose calls are all rounded. -/
inductive RoundedRun : State → Prop
  | init (mem : Bytes.Memory) : RoundedRun ⟨init_heap mem, []⟩
  | step {s s' : State} (c : Call) (fuel : ℕ) (before : RoundedRun s) (formed : WellFormed 16 s c)
      (rounded : Rounded s c) (ran : call fuel s c = some s') : RoundedRun s'

/-! ### Layouts -/

def AlignedLayout (L : Layout) : Prop := ∀ b ∈ L.blocks, alignment ∣ b.addr

/-- The layout serves a request with a whole free block. -/
def Whole (n : ℕ) (L : Layout) : Prop := ∃ front b back, Layout.fit n L.free = some (front, b, back) ∧ b.size - n < 32

section
variable {s s' : State} {L L' : Layout} {n : ℕ} {c : Call} {out : Option Blk}

theorem aligned_payload {b : Blk} : alignment ∣ b.payload ↔ alignment ∣ b.addr := by
  unfold alignment Blk.payload
  omega

theorem aligned_layout (holds : Holds 16 s L) : Aligned s ↔ AlignedLayout L := by
  have rep := holds.represents
  have nonzero : 0 ∉ L.free.map Blk.addr := by
    intro member
    obtain ⟨b, free, zero⟩ := List.mem_map.mp member
    have := rep.bounds (Layout.free_mem free)
    omega
  have chain : Chain s.heap.next s.heap.free_list_head (L.free.map Blk.addr) := by
    rw [rep.head]
    exact rep.chain
  constructor
  · rintro ⟨live, head, nodes, listed, nonzero', list⟩ b member
    obtain rfl := listed.unique chain nonzero' nonzero
    rcases List.mem_cons.mp member with rfl | member
    · rwa [rep.head] at head
    rcases List.mem_append.mp member with isFree | isLive
    · exact list b.addr (List.mem_map_of_mem isFree)
    · exact aligned_payload.mp (live b.payload (holds.live.mem_iff.mp (List.mem_map_of_mem isLive)))
  · intro aligned
    refine ⟨?_, ?_, L.free.map Blk.addr, chain, nonzero, ?_⟩
    · intro addr live
      obtain ⟨b, isLive, rfl⟩ := holds.block live
      exact aligned_payload.mpr (aligned b (Layout.live_mem isLive))
    · rw [rep.head]
      exact aligned L.head List.mem_cons_self
    · intro node member
      obtain ⟨b, isFree, rfl⟩ := List.mem_map.mp member
      exact aligned b (Layout.free_mem isFree)

/-- A request adds at most one header, `16 + n` bytes behind an old one. -/
theorem aligned_malloc (aligned : AlignedLayout L) : AlignedLayout (L.malloc n).2 ↔ alignment ∣ n ∨ Whole n L := by
  have behind : ∀ {a : ℕ}, alignment ∣ a → (alignment ∣ a + 16 + n ↔ alignment ∣ n) := by
    intro a old
    unfold alignment at *
    omega
  unfold Layout.malloc
  cases found : Layout.fit n L.free with
  | none =>
    have notWhole : ¬ Whole n L := by
      rintro ⟨front, b, back, some, _⟩
      rw [found] at some
      cases some
    have old : alignment ∣ L.head.addr := aligned L.head List.mem_cons_self
    simp only [notWhole, or_false]
    constructor
    · intro after
      exact (behind old).mp (after _ List.mem_cons_self)
    · intro divides b member
      simp only [Layout.blocks, Layout.cut, List.mem_cons, List.mem_append] at member
      rcases member with rfl | free | rfl | live
      · exact (behind old).mpr divides
      · exact aligned b (Layout.free_mem free)
      · exact old
      · exact aligned b (Layout.live_mem live)
  | some parts =>
    obtain ⟨front, b, back⟩ := parts
    obtain ⟨free, _, _⟩ := Layout.fit_some found
    have order := L.blocks_taken free
    have old : alignment ∣ b.addr := aligned b (order.mem_iff.mpr List.mem_cons_self)
    have others : ∀ c ∈ L.head :: (front ++ back ++ L.live), alignment ∣ c.addr := fun c member =>
      aligned c (order.mem_iff.mpr (List.mem_cons_of_mem b member))
    have whole : Whole n L ↔ b.size - n < 32 := by
      constructor
      · rintro ⟨front', b', back', found', small⟩
        rw [found] at found'
        cases found'
        exact small
      · intro small
        exact ⟨front, b, back, found, small⟩
    rw [whole]
    constructor
    · intro after
      by_cases small : b.size - n < 32
      · exact .inr small
      · have new := after ⟨b.addr + 16 + n, b.size - n - 16⟩ (by simp [Layout.blocks, Layout.taken, Layout.leftover, small])
        exact .inl ((behind old).mp new)
    · intro condition c member
      rw [(L.taken_perm n front b back).mem_iff, List.mem_cons, List.mem_append] at member
      rcases member with rfl | isLeft | other
      · rw [Layout.granted_addr]
        exact old
      · by_cases small : b.size - n < 32
        · simp [Layout.leftover, small] at isLeft
        · obtain rfl : c = ⟨b.addr + 16 + n, b.size - n - 16⟩ := by simpa [Layout.leftover, small] using isLeft
          exact (behind old).mpr (condition.resolve_right small)
      · exact others c other

theorem aligned_release {b : Blk} (live : b ∈ L.live) : AlignedLayout (L.release b) ↔ AlignedLayout L := by
  have order := Layout.release_perm live
  constructor
  · intro aligned c member
    exact aligned c (order.mem_iff.mpr member)
  · intro aligned c member
    exact aligned c (order.mem_iff.mp member)

/-- The walk of `allocate_memory` finds a node that serves the request as a whole
    exactly when the layout has such a block. -/
theorem servedWhole_iff {h : Heap} (rep : Represents h L) : ServedWhole h n ↔ Whole n L := by
  have walked := rep.walk_list n (Nat.lt_succ_self _)
  have found : ∀ {front b back}, Layout.fit n L.free = some (front, b, back) →
      h.size (h.next (lastFrom L.head.addr (front.map Blk.addr))) = b.size := by
    intro front b back fits
    obtain ⟨free, _, _⟩ := Layout.fit_some fits
    rw [rep.link_at free, rep.sizes b (Layout.free_mem (by simp [free]))]
  constructor
  · rintro ⟨node, returned, small⟩
    have same := returned.unique ⟨_, walked⟩
    obtain ⟨⟨front, b, back⟩, fits, rfl⟩ := Option.map_eq_some_iff.mp same.symm
    rw [found fits] at small
    exact ⟨front, b, back, fits, small⟩
  · rintro ⟨front, b, back, fits, small⟩
    refine ⟨_, ⟨_, walked.trans (by rw [fits]; rfl)⟩, ?_⟩
    rw [found fits]
    exact small

/-! ### Runs -/

/-- From an aligned state a call leads to an aligned state exactly when it is rounded. -/
theorem aligned_step {fuel : ℕ} (holds : Holds 16 s L) (aligned : Aligned s) (formed : WellFormed 16 s c)
    (ran : call fuel s c = some s') : Aligned s' ↔ Rounded s c := by
  have rep := holds.represents
  have before := (aligned_layout holds).mp aligned
  obtain ⟨_, L', moves, after, _⟩ := holds.step (le_refl 16) formed ran
  rw [aligned_layout after]
  have asks : ∀ {n : ℕ}, c.requests s = some n → (Rounded s c ↔ alignment ∣ n ∨ Whole n L) := by
    intro n asked
    rw [← servedWhole_iff rep]
    constructor
    · intro rounded
      exact rounded n asked
    · intro condition m asked'
      obtain rfl := Option.some.inj (asked.symm.trans asked')
      exact condition
  have quiet : c.requests s = none → Rounded s c := by
    intro none n asked
    rw [none] at asked
    cases asked
  cases moves with
  | kmalloc n =>
    rw [asks rfl]
    exact aligned_malloc before
  | @stays b n live large =>
    obtain ⟨node, size⟩ := rep.node_size live
    exact iff_of_true before (quiet (by simp [Call.requests, node, size, large]))
  | @moves b n live small =>
    obtain ⟨node, size⟩ := rep.node_size live
    have stillLive : b ∈ (L.malloc n).2.live := by
      rw [(Layout.malloc_live n L).2.2]
      exact List.mem_cons_of_mem _ live
    rw [asks (n := n) (by simp [Call.requests, node, size, Nat.not_le.mpr small]), aligned_release stillLive]
    exact aligned_malloc before
  | @kfree b live => exact iff_of_true ((aligned_release live).mpr before) (quiet rfl)

theorem aligned_init (mem : Bytes.Memory) : Aligned ⟨init_heap mem, []⟩ := by
  refine (aligned_layout ⟨represents_init mem, List.Perm.refl _, by decide⟩).mpr ?_
  intro b member
  obtain rfl : b = ⟨heap_start_addr, heap_size⟩ := by simpa [initial, Layout.blocks] using member
  decide

theorem RoundedRun.run (run : RoundedRun s) : Run 16 s := by
  induction run with
  | init mem => exact .init mem
  | step c fuel before formed rounded ran ih => exact .step c fuel ih formed ran

/-- In every state of a run of rounded calls everything is aligned, and it
    stays so over the next call exactly when that is rounded too. -/
theorem aligned_iff (run : RoundedRun s) :
    Aligned s ∧ ∀ c fuel s', WellFormed 16 s c → call fuel s c = some s' → (Aligned s' ↔ Rounded s c) := by
  have aligned : Aligned s := by
    induction run with
    | init mem => exact aligned_init mem
    | step c fuel before formed rounded ran ih =>
      obtain ⟨L, holds⟩ := before.run.holds (le_refl 16) (by decide)
      exact (aligned_step holds ih formed ran).mpr rounded
  obtain ⟨L, holds⟩ := run.run.holds (le_refl 16) (by decide)
  exact ⟨aligned, fun c fuel s' formed ran => aligned_step holds aligned formed ran⟩

end

theorem aligned_iff_of_one_call : ∃ s, RoundedRun s ∧ s.live = [1073741840] ∧ Aligned s ∧
    ∀ c fuel s', WellFormed 16 s c → call fuel s c = some s' → (Aligned s' ↔ Rounded s c) := by
  have formed : WellFormed 16 ⟨init_heap fun _ => 0, []⟩ (.kmalloc 40) := by
    refine ⟨fun addr released => (nomatch released), fun bytes asked _ => ?_⟩
    cases asked
    decide
  have rounded : Rounded ⟨init_heap fun _ => 0, []⟩ (.kmalloc 40) := by
    intro bytes asked
    cases asked
    exact .inl (by decide)
  have run := RoundedRun.step (.kmalloc 40) 1 (.init fun _ => 0) formed rounded rfl
  exact ⟨_, run, rfl, aligned_iff run⟩

/-- One byte asked for moves the head, and the block after it, off the alignment. -/
theorem kmalloc_unaligned : ∃ s, Run 16 s ∧ s.live = [1073741857, 1073741840] ∧ ¬ Aligned s := by
  have formed : ∀ {s : State} (n : ℕ), n + 16 ≤ s.heap.size s.heap.free_list_head → WellFormed 16 s (.kmalloc n) := by
    intro s n room
    refine ⟨fun addr released => (nomatch released), fun bytes asked _ => ?_⟩
    cases asked
    exact room
  obtain ⟨s, ran, live, large, ends⟩ : ∃ s, call 1 ⟨init_heap fun _ => 0, []⟩ (.kmalloc 1) = some s ∧
      s.live = [1073741840] ∧ s.heap.size s.heap.free_list_head = 102383 ∧ s.heap.free_list_head = 1073741841 ∧
        s.heap.next s.heap.free_list_head = 0 := by
    refine ⟨_, rfl, ?_, ?_, ?_, ?_⟩ <;> decide +kernel
  have first := Run.step (.kmalloc 1) 1 (.init fun _ => 0) (formed 1 (by decide)) ran
  obtain ⟨t, ran', live'⟩ : ∃ t, call 1 s (.kmalloc 8) = some t ∧ t.live = [1073741857, 1073741840] := by
    have leaves : fit_step s.heap 8 s.heap.free_list_head = .inr none := by simp [fit_step, ends.2]
    refine ⟨_, by simp [call, kmalloc, allocate_memory, iterate, leaves]; rfl, ?_⟩
    simp [allocate_from_head, ends.1, live, sizeof_free_node]
    rfl
  have second := Run.step (.kmalloc 8) 1 first (formed 8 (by rw [large]; decide)) ran'
  refine ⟨t, second, live', fun aligned => ?_⟩
  have returned := aligned.live 1073741857 (by rw [live']; exact List.mem_cons_self)
  exact absurd returned (by decide)

end OsC.Alignment
