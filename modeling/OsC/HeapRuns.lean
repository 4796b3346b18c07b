import OsC.HeapRefine

/-!
Runs of the heap: `init_heap` and then any calls that free or reallocate only
live blocks. As long as every request that reaches the head leaves room for a
new head, the heap stays a tiling of its interval by live blocks, free nodes
and the head (`heap_run_tiles`). A request stays inside the mapped heap exactly
when a free node serves it or the head has 32 bytes beyond it
(`kmalloc_meets_iff`).
-/
namespace OsC.HeapRuns
open OsC.Loop OsC.Word OsC.Frames OsC.Links OsC.Tiling OsC.Blocks OsC.Kmalloc OsC.HeapRefine

inductive Call
  | kmalloc (bytes : ℕ)
  | krealloc (addr bytes : ℕ)
  | kfree (addr : ℕ)
  deriving DecidableEq, Repr

/-- The heap and the addresses given out and not yet freed. -/
structure State where
  heap : Heap
  live : List ℕ

def call (fuel : ℕ) (s : State) : Call → Option State
  | .kmalloc bytes => (kmalloc fuel bytes s.heap).map fun (addr, h) => ⟨h, addr :: s.live⟩
  | .krealloc old bytes => (krealloc fuel old bytes s.heap).map fun (addr, h) => ⟨h, addr :: s.live.erase old⟩
  | .kfree addr => some ⟨kfree addr s.heap, s.live.erase addr⟩

/-- The address that a call frees or reallocates. -/
def Call.releases : Call → Option ℕ
  | .kmalloc _ => none
  | .krealloc addr _ => some addr
  | .kfree addr => some addr

/-- The bytes that a call asks of `allocate_memory`. -/
def Call.requests (s : State) : Call → Option ℕ
  | .kmalloc bytes => some bytes
  | .krealloc addr bytes => if s.heap.size (get_free_node_from_addr addr) ≥ bytes then none else some bytes
  | .kfree _ => none

/-- No node behind the head is large enough: the walk of `allocate_memory` ends without one. -/
def FallsThrough (h : Heap) (bytes : ℕ) : Prop := Returns (fit_step h bytes) h.free_list_head none

/-- A call releases only a live address, and a request that reaches the head
    leaves `margin` of its bytes. -/
structure WellFormed (margin : ℕ) (s : State) (c : Call) : Prop where
  live : ∀ addr, c.releases = some addr → addr ∈ s.live
  room : ∀ bytes, c.requests s = some bytes → FallsThrough s.heap bytes →
    bytes + margin ≤ s.heap.size s.heap.free_list_head

/-- The states of the runs whose calls are well formed. -/
inductive Run (margin : ℕ) : State → Prop
  | init (mem : Bytes.Memory) : Run margin ⟨init_heap mem, []⟩
  | step {s s' : State} (c : Call) (fuel : ℕ) (before : Run margin s) (formed : WellFormed margin s c)
      (ran : call fuel s c = some s') : Run margin s'

/-! ### Runs keep a layout -/

/-- The layout of a heap after `init_heap`. -/
def initial : Layout := ⟨⟨heap_start_addr, heap_size⟩, [], []⟩

theorem represents_init (mem : Bytes.Memory) : Represents (init_heap mem) initial := by
  obtain ⟨h, isH⟩ : ∃ h : Heap, h = ⟨mem, heap_start_addr,
    init_heap_pages (heap_size / PAGE_SIZE + 1) heap_start_addr, []⟩ := ⟨_, rfl⟩
  have made : init_heap mem = (h.setNext heap_start_addr 0).setSize heap_start_addr heap_size := by rw [isH]; rfl
  have fits : heap_size < 2 ^ 64 := by decide
  refine ⟨?_, ?_, ?_, tiles_single (by decide), rfl⟩
  · rw [made, isH]; rfl
  · intro b member
    obtain rfl : b = ⟨heap_start_addr, heap_size⟩ := by simpa [initial, Layout.blocks] using member
    rw [made, size_setSize fits separate_self, if_pos rfl]
  · show (init_heap mem).next heap_start_addr = 0
    rw [made, next_setSize separate_self, next_setNext (by decide) separate_self, if_pos rfl]

/-- The walk ends without a node exactly when no free block of the layout is large enough. -/
theorem fallsThrough_iff {h : Heap} {L : Layout} (rep : Represents h L) (n : ℕ) :
    FallsThrough h n ↔ ∀ b ∈ L.free, b.size < n := by
  have walked := rep.walk_list n (Nat.lt_succ_self _)
  rw [← Layout.fit_none]
  constructor
  · intro falls
    have same := falls.unique ⟨_, walked⟩
    exact Option.map_eq_none_iff.mp same.symm
  · intro none
    exact ⟨_, by simpa [none] using walked⟩

/-- A layout whose live blocks are the live addresses of a state. -/
structure Holds (margin : ℕ) (s : State) (L : Layout) : Prop where
  represents : Represents s.heap L
  live : (L.live.map Blk.payload).Perm s.live
  room : margin ≤ L.head.size + 16

theorem Holds.block {margin addr : ℕ} {s : State} {L : Layout} (holds : Holds margin s L) (live : addr ∈ s.live) :
    ∃ b ∈ L.live, b.payload = addr :=
  List.mem_map.mp (holds.live.mem_iff.mpr live)

/-- The head keeps its margin over a request that leaves it. -/
theorem malloc_room {margin n : ℕ} {L : Layout} (fits : L.Fits margin n) (room : margin ≤ L.head.size + 16) :
    margin ≤ (L.malloc n).2.head.size + 16 := by
  unfold Layout.malloc
  cases found : Layout.fit n L.free with
  | some parts => exact room
  | none =>
    have := fits (Layout.fit_none.mp found)
    simp only [Layout.cut]
    omega

/-- Erasing a live block erases its address. -/
theorem erase_payload {blocks : List Blk} {addrs : List ℕ} (same : (blocks.map Blk.payload).Perm addrs) {b : Blk}
    (live : b ∈ blocks) : ((blocks.erase b).map Blk.payload).Perm (addrs.erase b.payload) := by
  have moved := ((List.perm_cons_erase live).map Blk.payload).symm.trans same
  simpa using moved.erase b.payload

theorem erase_cons_perm {a x : ℕ} {addrs : List ℕ} (member : a ∈ addrs) :
    ((x :: addrs).erase a).Perm (x :: addrs.erase a) := by
  by_cases same : x = a
  · subst same
    simpa using List.perm_cons_erase member
  · rw [List.erase_cons_tail (by simpa using same)]

/-- What a call does to a layout, and the block that it returns. -/
inductive Moves (L : Layout) : Call → Option Blk → Layout → Prop
  | kmalloc (n : ℕ) : Moves L (.kmalloc n) (L.malloc n).1 (L.malloc n).2
  | stays {b : Blk} {n : ℕ} (live : b ∈ L.live) (large : n ≤ b.size) : Moves L (.krealloc b.payload n) b L
  | moves {b : Blk} {n : ℕ} (live : b ∈ L.live) (small : b.size < n) :
      Moves L (.krealloc b.payload n) (L.malloc n).1 ((L.malloc n).2.release b)
  | kfree {b : Blk} (live : b ∈ L.live) : Moves L (.kfree b.payload) none (L.release b)

/-- The requests of a well-formed call fit in the layout. -/
theorem Holds.fits {margin n : ℕ} {s : State} {L : Layout} {c : Call} (holds : Holds margin s L)
    (formed : WellFormed margin s c) (asked : c.requests s = some n) : L.Fits margin n := by
  have rep := holds.represents
  intro small
  have room := formed.room n asked ((fallsThrough_iff rep n).mpr small)
  rwa [rep.head, rep.sizes L.head List.mem_cons_self] at room

theorem Fits.weaker {margin less n : ℕ} {L : Layout} (fits : L.Fits margin n) (le : less ≤ margin) : L.Fits less n := by
  intro small
  have := fits small
  omega

/-- A call of a layout is well formed where its requests fit. -/
theorem Holds.formed {margin : ℕ} {s : State} {L L' : Layout} {c : Call} {out : Option Blk} (holds : Holds margin s L)
    (moves : Moves L c out L') (fits : ∀ n, c.requests s = some n → L.Fits margin n) : WellFormed margin s c := by
  have rep := holds.represents
  refine ⟨fun addr released => ?_, fun n asked falls => ?_⟩
  · have payload : ∀ {b}, b ∈ L.live → b.payload ∈ s.live := fun live =>
      holds.live.mem_iff.mp (List.mem_map_of_mem live)
    cases moves with
    | kmalloc n => cases released
    | stays live large =>
      cases released
      exact payload live
    | moves live small =>
      cases released
      exact payload live
    | kfree live =>
      cases released
      exact payload live
  · rw [rep.head, rep.sizes L.head List.mem_cons_self]
    exact fits n asked ((fallsThrough_iff rep n).mp falls)

/-- It returns, on more steps than there are free nodes, and the address that it
    returns is the first live one. -/
theorem Holds.serves {margin fuel : ℕ} {s : State} {L L' : Layout} {c : Call} {out : Option Blk} (least : 16 ≤ margin)
    (holds : Holds margin s L) (moves : Moves L c out L') (fits : ∀ n, c.requests s = some n → L.Fits margin n)
    (enough : L.free.length < fuel) :
    ∃ s', call fuel s c = some s' ∧ Holds margin s' L' ∧ ∀ b ∈ out, s'.live.head? = some b.payload := by
  have rep := holds.represents
  cases moves with
  | kmalloc n =>
    obtain ⟨h', _, all, after, _⟩ := rep.kmalloc (Fits.weaker (fits n rfl) least)
    refine ⟨⟨h', (L.malloc n).1.payload :: s.live⟩, by rw [call, all fuel enough]; rfl,
      ⟨after, ?_, malloc_room (fits n rfl) holds.room⟩, ?_⟩
    · rw [(Layout.malloc_live n L).2.2]
      exact holds.live.cons _
    · intro b same
      cases same
      rfl
  | @stays b n live large =>
    obtain ⟨h', all, after⟩ := rep.krealloc live (fun small => absurd small (Nat.not_lt.mpr large))
    rw [if_pos (show b.size ≥ n from large)] at after
    have ran := all fuel enough
    rw [if_pos (show b.size ≥ n from large)] at ran
    have same := List.perm_cons_erase (holds.live.mem_iff.mp (List.mem_map_of_mem live))
    refine ⟨⟨h', b.payload :: s.live.erase b.payload⟩, by rw [call, ran]; rfl,
      ⟨after, holds.live.trans same, holds.room⟩, ?_⟩
    intro c same
    cases same
    rfl
  | @moves b n live small =>
    obtain ⟨node, size⟩ := rep.node_size live
    have asked := fits n (by simp [Call.requests, node, size, Nat.not_le.mpr small])
    obtain ⟨h', all, after⟩ := rep.krealloc live (fun _ => Fits.weaker asked least)
    rw [if_neg (show ¬ b.size ≥ n from Nat.not_le.mpr small)] at after
    have ran := all fuel enough
    rw [if_neg (show ¬ b.size ≥ n from Nat.not_le.mpr small)] at ran
    refine ⟨⟨h', (L.malloc n).1.payload :: s.live.erase b.payload⟩, by rw [call, ran]; rfl,
      ⟨after, ?_, malloc_room asked holds.room⟩, ?_⟩
    · have liveAfter : (L.malloc n).2.live = (L.malloc n).1 :: L.live := (Layout.malloc_live n L).2.2
      simp only [Layout.release, liveAfter]
      have grown : (((L.malloc n).1 :: L.live).map Blk.payload).Perm ((L.malloc n).1.payload :: s.live) := holds.live.cons _
      have moved := erase_payload grown (List.mem_cons_of_mem _ live)
      exact moved.trans (erase_cons_perm (holds.live.mem_iff.mp (List.mem_map_of_mem live)))
    · intro c same
      cases same
      rfl
  | @kfree b live => exact ⟨_, rfl, ⟨rep.kfree live, erase_payload holds.live live, holds.room⟩, by simp⟩

theorem call_mono {fuel more : ℕ} {s s' : State} {c : Call} (le : fuel ≤ more) (ran : call fuel s c = some s') :
    call more s c = some s' := by
  cases c with
  | kmalloc n =>
    obtain ⟨r, first, rfl⟩ := Option.map_eq_some_iff.mp ran
    rw [call, kmalloc_mono le first]
    rfl
  | krealloc old n =>
    obtain ⟨r, first, rfl⟩ := Option.map_eq_some_iff.mp ran
    rw [call, krealloc_mono le first]
    rfl
  | kfree addr => exact ran

/-- A well-formed call moves the layout. -/
theorem Holds.step {margin fuel : ℕ} {s s' : State} {L : Layout} {c : Call} (least : 16 ≤ margin)
    (holds : Holds margin s L) (formed : WellFormed margin s c) (ran : call fuel s c = some s') :
    ∃ out L', Moves L c out L' ∧ Holds margin s' L' ∧ ∀ b ∈ out, s'.live.head? = some b.payload := by
  obtain ⟨out, L', moves⟩ : ∃ out L', Moves L c out L' := by
    cases c with
    | kmalloc n => exact ⟨_, _, .kmalloc n⟩
    | krealloc old n =>
      obtain ⟨b, live, rfl⟩ := holds.block (formed.live old rfl)
      by_cases large : n ≤ b.size
      · exact ⟨_, _, .stays live large⟩
      · exact ⟨_, _, .moves live (Nat.not_le.mp large)⟩
    | kfree addr =>
      obtain ⟨b, live, rfl⟩ := holds.block (formed.live addr rfl)
      exact ⟨_, _, .kfree live⟩
  -- A result on any number of steps is the result on enough steps.
  have enough : L.free.length < max fuel (L.free.length + 1) := by omega
  obtain ⟨t, served, after⟩ := holds.serves least moves (fun n asked => holds.fits formed asked) enough
  obtain rfl := Option.some.inj ((call_mono (le_max_left fuel _) ran).symm.trans served)
  exact ⟨out, L', moves, after⟩

/-- Every state of a run is a layout of live blocks, free nodes and the head. -/
theorem Run.holds {margin : ℕ} {s : State} (least : 16 ≤ margin) (most : margin ≤ heap_size) (run : Run margin s) :
    ∃ L, Holds margin s L := by
  induction run with
  | init mem =>
    refine ⟨initial, represents_init mem, List.Perm.refl _, ?_⟩
    simp only [initial]
    omega
  | step c fuel before formed ran ih =>
    obtain ⟨L, holds⟩ := ih
    obtain ⟨_, L', _, after, _⟩ := holds.step least formed ran
    exact ⟨L', after⟩

/-! ### Runs tile the heap -/

/-- The bytes of a node or block: its header and the payload that it records. -/
def extent (h : Heap) (node : ℕ) : ℕ × ℕ := (node, node + sizeof_free_node + h.size node)

/-- In every state of a run whose head requests leave room for a header, the
    live blocks, the nodes of the free list and the head tile the heap with the
    16 bytes behind it; the list is acyclic, holds no live block, and the walk of
    `allocate_memory` along it ends. -/
theorem heap_run_tiles {s : State} (run : Run 16 s) :
    ∃ nodes, Chain s.heap.next s.heap.free_list_head nodes ∧ 0 ∉ nodes ∧ (s.heap.free_list_head :: nodes).Nodup ∧
      (∀ addr ∈ s.live, get_free_node_from_addr addr ∉ s.heap.free_list_head :: nodes) ∧
      Tiles heap_start_addr (heap_start_addr + 16 + heap_size)
        ((s.heap.free_list_head :: (nodes ++ s.live.map get_free_node_from_addr)).map (extent s.heap)) ∧
      ∀ n, ∃ found, Returns (fit_step s.heap n) s.heap.free_list_head found := by
  obtain ⟨L, holds⟩ := run.holds (le_refl 16) (by decide)
  have rep := holds.represents
  have distinct := rep.addrs_nodup
  -- The nodes of the live addresses are the live blocks, in another order.
  have lives : (L.live.map Blk.addr).Perm (s.live.map get_free_node_from_addr) := by
    have moved := holds.live.map get_free_node_from_addr
    rw [List.map_map] at moved
    refine (List.Perm.of_eq ?_).trans moved
    refine List.map_congr_left fun b live => ?_
    exact (rep.node_size live).1.symm
  have order : (L.blocks.map Blk.addr).Perm
      (s.heap.free_list_head :: (L.free.map Blk.addr ++ s.live.map get_free_node_from_addr)) := by
    rw [rep.head]
    simpa [Layout.blocks] using lives.append_left (L.free.map Blk.addr)
  have distinct' : (s.heap.free_list_head :: L.free.map Blk.addr ++ s.live.map get_free_node_from_addr).Nodup :=
    order.nodup_iff.mp distinct
  refine ⟨L.free.map Blk.addr, ?_, ?_, (List.nodup_append.mp distinct').1, ?_, ?_, ?_⟩
  · rw [rep.head]
    exact rep.chain
  · intro member
    obtain ⟨b, free, zero⟩ := List.mem_map.mp member
    have inside := rep.bounds (Layout.free_mem free)
    omega
  · intro addr live isFree
    exact (List.nodup_append.mp distinct').2.2 _ isFree _ (List.mem_map_of_mem live) rfl
  · have extents : L.blocks.map Blk.extent = (L.blocks.map Blk.addr).map (extent s.heap) := by
      rw [List.map_map]
      refine List.map_congr_left fun b member => ?_
      simp [Blk.extent, extent, rep.sizes b member, sizeof_free_node]
    have tiled : Tiles heap_start_addr (heap_start_addr + 16 + heap_size) (L.blocks.map Blk.extent) := rep.tiled
    rw [extents] at tiled
    exact tiled.perm (order.map (extent s.heap))
  · intro n
    exact ⟨_, _, rep.walk_list n (Nat.lt_succ_self _)⟩

theorem heap_run_tiles_of_two_calls :
    ∃ s, Run 16 s ∧ s.live = [] ∧ s.heap.free_list_head = 1073741857 ∧ s.heap.next 1073741857 = 1073741824 ∧
      ∃ nodes, Chain s.heap.next s.heap.free_list_head nodes ∧ 0 ∉ nodes ∧ (s.heap.free_list_head :: nodes).Nodup ∧
        (∀ addr ∈ s.live, get_free_node_from_addr addr ∉ s.heap.free_list_head :: nodes) ∧
        Tiles heap_start_addr (heap_start_addr + 16 + heap_size)
          ((s.heap.free_list_head :: (nodes ++ s.live.map get_free_node_from_addr)).map (extent s.heap)) ∧
        ∀ n, ∃ found, Returns (fit_step s.heap n) s.heap.free_list_head found := by
  have allocates : WellFormed 16 ⟨init_heap fun _ => 0, []⟩ (.kmalloc 17) := by
    refine ⟨fun addr h => (nomatch h), fun bytes asked _ => ?_⟩
    cases asked
    decide
  obtain ⟨s₁, isFirst⟩ : ∃ s₁, call 1 ⟨init_heap fun _ => 0, []⟩ (.kmalloc 17) = some s₁ := ⟨_, rfl⟩
  have live : s₁.live = [1073741840] := by
    cases isFirst
    rfl
  have frees : WellFormed 16 s₁ (.kfree 1073741840) := by
    refine ⟨fun addr released => ?_, fun bytes asked _ => (nomatch asked)⟩
    cases released
    rw [live]
    exact List.mem_singleton_self _
  have first : Run 16 s₁ := .step (.kmalloc 17) 1 (.init fun _ => 0) allocates isFirst
  cases isFirst
  have run := Run.step (.kfree 1073741840) 1 first frees rfl
  exact ⟨_, run, rfl, rfl, by decide, heap_run_tiles run⟩

/-! ### When a request stays inside the mapped heap -/

/-- `kmalloc(n)` wraps no computation and either reports failure with the heap
    unchanged or gives out a block that lies in the mapped heap, like every
    header field it stores. -/
def Meets (h : Heap) (n : ℕ) : Prop :=
  ∃ fuel addr h' new, kmalloc fuel n h = some (addr, h') ∧ h'.trace = new ++ h.trace ∧ NoWrap new ∧
    ((addr = 0 ∧ h'.mem = h.mem ∧ h'.free_list_head = h.free_list_head) ∨
      (heap_start_addr ≤ get_free_node_from_addr addr ∧ addr + n ≤ heap_start_addr + heap_size ∧
        ∀ a, .header a ∈ new → heap_start_addr ≤ a ∧ a + 8 ≤ heap_start_addr + heap_size))

theorem header_inside {h : Heap} {L : Layout} (rep : Represents h L) (room : 16 ≤ L.head.size) {c : Blk}
    (member : c ∈ L.blocks) : heap_start_addr ≤ c.addr ∧ c.addr + 16 ≤ heap_start_addr + heap_size := by
  have top := rep.top
  have bounds := rep.bounds member
  have head := rep.bounds (b := L.head) List.mem_cons_self
  unfold heap_start_addr heap_size at *
  by_cases same : c = L.head
  · subst same; omega
  · have := rep.apart member List.mem_cons_self same
    omega

/-- A block other than the head ends before the last 16 bytes of the interval. -/
theorem block_inside {h : Heap} {L : Layout} (rep : Represents h L) (room : 16 ≤ L.head.size) {c : Blk}
    (live : c ∈ L.live) : c.payload + c.size ≤ heap_start_addr + heap_size := by
  have top := rep.top
  have cIn : c ∈ L.blocks := Layout.live_mem live
  have bounds := rep.bounds cIn
  have different : c ≠ L.head := by
    intro same
    have distinct := (List.nodup_cons.mp rep.addrs_nodup).1
    exact distinct (same ▸ List.mem_map_of_mem (List.mem_append_right _ live))
  have apart := rep.apart cIn List.mem_cons_self different
  unfold heap_start_addr heap_size Blk.payload at *
  omega

theorem meets_of_fits {h : Heap} {L : Layout} (rep : Represents h L) (room : 16 ≤ L.head.size) {n : ℕ}
    (fits : L.Fits 32 n) : Meets h n := by
  obtain ⟨h', new, ran, after, trace, headers, exact⟩ := rep.kmalloc (fun small => by have := fits small; omega)
  have roomAfter : 32 ≤ (L.malloc n).2.head.size + 16 := malloc_room fits (by omega)
  obtain ⟨gLive, gSize, _⟩ := Layout.malloc_live n L
  obtain ⟨node, _⟩ := after.node_size gLive
  have gIn : (L.malloc n).1 ∈ (L.malloc n).2.blocks := Layout.live_mem gLive
  have inside := block_inside after (by omega) gLive
  refine ⟨_, _, h', new, ran _ (Nat.lt_succ_self _), trace, exact, .inr ⟨?_, by omega, ?_⟩⟩
  · rw [node]
    exact (header_inside after (by omega) gIn).1
  · intro a member
    obtain ⟨c, cIn, place⟩ := headers a member
    have := header_inside after (by omega) cIn
    omega

theorem fits_of_meets {h : Heap} {L : Layout} (rep : Represents h L) {n : ℕ} (meets : Meets h n) : L.Fits 32 n := by
  intro small
  obtain ⟨fuel, addr, h', new, ran, trace, exact, outcome⟩ := meets
  have headIn : L.head ∈ L.blocks := List.mem_cons_self
  have bounds := rep.bounds headIn
  have top := rep.top
  have size := rep.sizes L.head headIn
  simp only [kmalloc, allocate_memory, Option.map_eq_some_iff, exists_exists_and_eq_and] at ran
  obtain ⟨found, walked, result⟩ := ran
  obtain rfl : found = none := Returns.unique ⟨fuel, walked⟩ ((fallsThrough_iff rep n).mpr small)
  obtain ⟨rfl, rfl⟩ := Prod.mk.inj result
  have events : (allocate_from_head h n).2.trace = [.header (L.head.addr + 8), .header L.head.addr,
      .header (wrap (L.head.addr + 16 + n)), .header (wrap (L.head.addr + 16 + n) + 8),
      .computed (L.head.size - n - 16), .computed (L.head.addr + 16 + n)] ++ h.trace := by
    simp [allocate_from_head, Heap.setNext, Heap.setSize, Heap.compute, sizeof_free_node, rep.head, size]
  obtain rfl := List.append_cancel_right (trace.symm.trans events)
  have room := exact (L.head.size - n - 16) (by simp)
  have place : wrap ((L.head.addr : ℤ) + 16 + n) = L.head.addr + 16 + n :=
    wrap_eq (by omega) (by omega)
  rcases outcome with ⟨zero, _⟩ | ⟨_, _, inside⟩
  · have old : (allocate_from_head h n).1 = L.head.addr := rep.head
    rw [old] at zero
    unfold wrap sizeof_free_node at zero
    omega
  · have last := inside (wrap (L.head.addr + 16 + n) + 8) (by simp)
    rw [place] at last
    unfold heap_start_addr heap_size at last top
    omega

/-- In every state of a run whose head requests all leave 32 bytes, a request
    stays in the mapped heap exactly when a node behind the head is large enough
    or the head has 32 bytes beyond it. -/
theorem kmalloc_meets_iff {s : State} (run : Run 32 s) (n : ℕ) :
    Meets s.heap n ↔ ¬ FallsThrough s.heap n ∨ n + 32 ≤ s.heap.size s.heap.free_list_head := by
  obtain ⟨L, holds⟩ := run.holds (by decide) (by decide)
  have rep := holds.represents
  have head : s.heap.size s.heap.free_list_head = L.head.size := by
    rw [rep.head]
    exact rep.sizes L.head List.mem_cons_self
  have room := holds.room
  rw [fallsThrough_iff rep, head]
  constructor
  · intro meets
    exact or_iff_not_imp_left.mpr fun small => fits_of_meets rep meets (not_not.mp small)
  · intro condition
    refine meets_of_fits rep (by omega) fun small => ?_
    rcases condition with large | enough
    · exact absurd small large
    · exact enough

theorem kmalloc_meets_iff_at_start :
    Meets (init_heap fun _ => 0) 102368 ↔
      ¬ FallsThrough (init_heap fun _ => 0) 102368 ∨
        102368 + 32 ≤ (init_heap fun _ => 0).size (init_heap fun _ => 0).free_list_head :=
  kmalloc_meets_iff (.init fun _ => 0) 102368

/-- The first request may not take the whole size that the head records. -/
theorem kmalloc_whole_heap_leaves : ∃ s, Run 16 s ∧ Run 32 s ∧ 102400 < 2 ^ 64 ∧ ¬ Meets s.heap 102400 := by
  refine ⟨_, .init fun _ => 0, .init fun _ => 0, by decide, fun meets => ?_⟩
  have room := fits_of_meets (represents_init fun _ => 0) meets (by simp [initial])
  simp [initial, heap_size] at room

end OsC.HeapRuns
