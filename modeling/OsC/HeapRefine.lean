import OsC.Kmalloc
import OsC.Blocks
import OsC.Links

/-!
The heap in memory stands for a layout of blocks: the head pointer and the
links of the free list name its blocks and every header holds its block's size
(`Represents`). Each allocator function keeps such a layout and changes it as
the layout's own operation does.
-/
namespace OsC.HeapRefine
open OsC.Bytes OsC.Word OsC.Loop OsC.Links OsC.Tiling OsC.Blocks OsC.Kmalloc

/-! ### Header fields -/

/-- Two headers are the same or do not overlap. -/
def Separate (a x : ℕ) : Prop := x = a ∨ x + 16 ≤ a ∨ a + 16 ≤ x

variable {h : Heap} {a x v : ℕ}

theorem next_setNext (value : v < 2 ^ 64) (separate : Separate a x) :
    (h.setNext a v).next x = if x = a then v else h.next x := by
  unfold Heap.next Heap.setNext
  by_cases same : x = a
  · subst same
    simp [read_write h.mem 8 x v value]
  · simp only [if_neg same]
    exact read_write_apart h.mem v (by unfold Separate at separate; omega)

theorem size_setNext (separate : Separate a x) : (h.setNext a v).size x = h.size x :=
  read_write_apart h.mem v (by unfold Separate at separate; omega)

theorem next_setSize (separate : Separate a x) : (h.setSize a v).next x = h.next x :=
  read_write_apart h.mem v (by unfold Separate at separate; omega)

theorem size_setSize (value : v < 2 ^ 64) (separate : Separate a x) :
    (h.setSize a v).size x = if x = a then v else h.size x := by
  unfold Heap.size Heap.setSize
  by_cases same : x = a
  · subst same
    simp [read_write h.mem 8 (x + 8) v value]
  · simp only [if_neg same]
    exact read_write_apart h.mem v (by unfold Separate at separate; omega)

@[simp] theorem next_compute (e : ℤ) : (h.compute e).next x = h.next x := rfl
@[simp] theorem size_compute (e : ℤ) : (h.compute e).size x = h.size x := rfl

theorem next_lt : h.next x < 2 ^ 64 := read_lt h.mem 8 x
theorem size_lt : h.size x < 2 ^ 64 := read_lt h.mem 8 (x + 8)

theorem separate_self : Separate a a := .inl rfl

/-- A header behind a block with `n` bytes of payload. -/
theorem separate_behind (a n : ℕ) : Separate (a + 16 + n) a := .inr (.inl (Nat.le_add_right _ n))

theorem separate_before (a n : ℕ) : Separate a (a + 16 + n) := .inr (.inr (Nat.le_add_right _ n))

/-! ### What one allocation does to the headers -/

/-- The node after `node` is given away whole: it is unlinked and keeps its size. -/
theorem allocate_from_list_whole {node o n : ℕ} (link : h.next node = o) (enough : n ≤ h.size o)
    (small : h.size o - n < 32) (apart : node + 16 ≤ o ∨ o + 16 ≤ node) :
    ∃ h', allocate_from_list h n node = (o, h') ∧ h'.free_list_head = h.free_list_head ∧
      h'.trace = [.header node, .header (o + 8), .header o, .computed (h.size o - n)] ++ h.trace ∧
      (∀ x, Separate o x → Separate node x →
        h'.next x = (if x = node then h.next o else if x = o then 0 else h.next x) ∧ h'.size x = h.size x) := by
  have bound : h.size o < 2 ^ 64 := size_lt
  have isSmall : wrap ((h.size o : ℤ) - n) < minimum_alloc_size := by
    unfold wrap minimum_alloc_size sizeof_free_node; omega
  refine ⟨(((h.compute (h.size o - n)).setNext o 0).setSize o (h.size o)).setNext node (h.next o), ?_, rfl, rfl, ?_⟩
  · simp [allocate_from_list, link, isSmall]
  intro x sepO sepNode
  have sepBoth : Separate node o := by unfold Separate; omega
  constructor
  · rw [next_setNext (by simpa using next_lt) sepNode, next_setSize sepO, next_setNext (by omega) sepO]
    simp
  · rw [size_setNext sepNode, size_setSize (by simpa using bound) sepO, size_setNext sepO]
    by_cases same : x = o
    · simp [same]
    · simp [same]

/-- The node after `node` is cut: its first `n` bytes are given away and the
    rest becomes a node in its place. -/
theorem allocate_from_list_split {node o n : ℕ} (link : h.next node = o) (spare : n + 32 ≤ h.size o)
    (top : o + 16 + h.size o < 2 ^ 64) :
    ∃ h', allocate_from_list h n node = (o, h') ∧ h'.free_list_head = h.free_list_head ∧
      h'.trace = [.header node, .header (o + 8), .header o, .header (o + 16 + n), .header (o + 16 + n + 8),
        .computed (h.size o - n - 16), .computed (o + 16 + n), .computed (h.size o - n)] ++ h.trace ∧
      (∀ x, Separate o x → Separate node x → Separate (o + 16 + n) x →
        h'.next x = (if x = node then o + 16 + n else if x = o then 0 else if x = o + 16 + n then h.next o
          else h.next x) ∧
        h'.size x = if x = o then n else if x = o + 16 + n then h.size o - n - 16 else h.size x) := by
  have free : wrap ((h.size o : ℤ) - n) = h.size o - n := wrap_eq (by omega) (by omega)
  have large : ¬ h.size o - n < minimum_alloc_size := by unfold minimum_alloc_size sizeof_free_node; omega
  have positive : h.size o - n ≠ 0 := by omega
  have place : wrap ((o : ℤ) + 16 + n) = o + 16 + n := wrap_eq (by omega) (by omega)
  have rest : wrap (((h.size o - n : ℕ) : ℤ) - 16) = h.size o - n - 16 := wrap_eq (by omega) (by omega)
  have exact : ((h.size o - n : ℕ) : ℤ) - 16 = h.size o - n - 16 := by omega
  obtain ⟨cut, isCut⟩ : ∃ cut, cut = (((h.compute (h.size o - n)).compute (o + 16 + n)).compute
    ((h.size o - n : ℕ) - 16)).setSize (o + 16 + n) (h.size o - n - 16) := ⟨_, rfl⟩
  refine ⟨(((cut.setNext (o + 16 + n) (cut.next o)).setNext o 0).setSize o n).setNext node (o + 16 + n), ?_, ?_, ?_, ?_⟩
  · simp only [allocate_from_list, link, size_compute, free, large, if_false, ne_eq, positive,
      not_false_eq_true, if_true, sizeof_free_node, Nat.cast_ofNat, place, rest, isCut]
  · simp [isCut, Heap.setNext, Heap.setSize, Heap.compute]
  · simp [isCut, Heap.setNext, Heap.setSize, Heap.compute, exact]
  intro x sepO sepNode sepNew
  subst isCut
  have sepNewO : Separate (o + 16 + n) o := separate_behind o n
  constructor
  · rw [next_setNext (by omega) sepNode, next_setSize sepO, next_setNext (by omega) sepO,
      next_setNext (by simpa using next_lt) sepNew, next_setSize sepNew, next_setSize sepNewO]
    simp
  · rw [size_setNext sepNode, size_setSize (by omega) sepO, size_setNext sepO, size_setNext sepNew,
      size_setSize (by omega) sepNew]
    simp

/-- The head is cut: its first `n` bytes are given away and the head moves
    behind them, with the list. -/
theorem allocate_from_head_fields {n : ℕ} (top : h.free_list_head + 16 + n < 2 ^ 64) :
    ∃ h', allocate_from_head h n = (h.free_list_head, h') ∧
      h'.free_list_head = h.free_list_head + 16 + n ∧
      h'.trace = [.header (h.free_list_head + 8), .header h.free_list_head, .header (h.free_list_head + 16 + n),
        .header (h.free_list_head + 16 + n + 8), .computed (h.size h.free_list_head - n - 16),
        .computed (h.free_list_head + 16 + n)] ++ h.trace ∧
      (∀ x, Separate h.free_list_head x → Separate (h.free_list_head + 16 + n) x →
        h'.next x = (if x = h.free_list_head then 0 else if x = h.free_list_head + 16 + n
          then h.next h.free_list_head else h.next x) ∧
        h'.size x = if x = h.free_list_head then n else if x = h.free_list_head + 16 + n
          then wrap (h.size h.free_list_head - n - 16) else h.size x) := by
  have place : wrap ((h.free_list_head : ℤ) + 16 + n) = h.free_list_head + 16 + n :=
    wrap_eq (by omega) (by omega)
  refine ⟨_, rfl, ?_, ?_, ?_⟩
  · simpa [sizeof_free_node] using place
  · simp [Heap.setNext, Heap.setSize, Heap.compute, sizeof_free_node, place]
  · intro x sepHead sepNew
    have sepNewHead : Separate (h.free_list_head + 16 + n) h.free_list_head := separate_behind _ n
    simp only [sizeof_free_node, Nat.cast_ofNat, place]
    constructor
    · show ((Heap.setNext _ h.free_list_head 0).setSize h.free_list_head n).next x = _
      rw [next_setSize sepHead, next_setNext (by omega) sepHead,
        next_setNext (by rw [next_setSize sepNewHead]; exact next_lt) sepNew, next_setSize sepNew,
        next_setSize sepNewHead]
      simp
    · show ((Heap.setNext _ h.free_list_head 0).setSize h.free_list_head n).size x = _
      rw [size_setSize (by omega) sepHead, size_setNext sepHead, size_setNext sepNew, size_setSize (wrap_lt _) sepNew]
      simp

/-! ### Calls end with one result -/

theorem kmalloc_mono {fuel more n : ℕ} (le : fuel ≤ more) {r : ℕ × Heap} (ran : kmalloc fuel n h = some r) :
    kmalloc more n h = some r := by
  simp only [kmalloc, allocate_memory, Option.map_eq_some_iff, exists_exists_and_eq_and] at ran ⊢
  obtain ⟨found, walked, rfl⟩ := ran
  exact ⟨found, iterate_mono le walked, rfl⟩

theorem krealloc_mono {fuel more addr n : ℕ} (le : fuel ≤ more) {r : ℕ × Heap}
    (ran : krealloc fuel addr n h = some r) : krealloc more addr n h = some r := by
  unfold krealloc at ran ⊢
  by_cases large : h.size (get_free_node_from_addr addr) ≥ n
  · simpa [large] using ran
  · simp only [large, if_false, Option.map_eq_some_iff] at ran ⊢
    obtain ⟨r', first, rfl⟩ := ran
    exact ⟨r', kmalloc_mono le first, rfl⟩

/-! ### The layout that a heap stands for -/

structure Represents (h : Heap) (L : Layout) : Prop where
  head : h.free_list_head = L.head.addr
  sizes : ∀ b ∈ L.blocks, h.size b.addr = b.size
  chain : Chain h.next L.head.addr (L.free.map Blk.addr)
  tiled : L.Tiled heap_start_addr (heap_start_addr + 16 + heap_size)
  /-- The head is the end of the heap. -/
  top : L.head.addr + 16 + L.head.size = heap_start_addr + 16 + heap_size

/-- The header fields of the events are those of blocks of the layout. -/
def HeadersIn (L : Layout) (events : List Event) : Prop :=
  ∀ a, .header a ∈ events → ∃ c ∈ L.blocks, a = c.addr ∨ a = c.addr + 8
/-- No computation of the events leaves 64 bits. -/
def NoWrap (events : List Event) : Prop := ∀ v, .computed v ∈ events → 0 ≤ v ∧ v < 2 ^ 64

section
variable {L : Layout} {a : ℕ} {v : ℤ} {events : List Event}

theorem headersIn_nil : HeadersIn L [] := fun _ member => nomatch member

theorem headersIn_header : HeadersIn L (.header a :: events) ↔
    (∃ c ∈ L.blocks, a = c.addr ∨ a = c.addr + 8) ∧ HeadersIn L events := by
  simp [HeadersIn]

theorem headersIn_computed : HeadersIn L (.computed v :: events) ↔ HeadersIn L events := by
  simp [HeadersIn]

theorem noWrap_nil : NoWrap [] := fun _ member => nomatch member

theorem noWrap_header : NoWrap (.header a :: events) ↔ NoWrap events := by
  simp [NoWrap]

theorem noWrap_computed : NoWrap (.computed v :: events) ↔ (0 ≤ v ∧ v < 2 ^ 64) ∧ NoWrap events := by
  simp [NoWrap]

end

namespace Represents
variable {L : Layout} {b c : Blk} {n : ℕ}

theorem bounds (rep : Represents h L) (member : b ∈ L.blocks) :
    1073741824 ≤ b.addr ∧ b.addr + 16 + b.size ≤ 1073844240 := by
  have inside := Tiles.inside rep.tiled (List.mem_map_of_mem member)
  simpa [heap_start_addr, heap_size, Blk.extent] using inside

theorem apart (rep : Represents h L) (first : b ∈ L.blocks) (second : c ∈ L.blocks) (different : b ≠ c) :
    b.addr + 16 + b.size ≤ c.addr ∨ c.addr + 16 + c.size ≤ b.addr := by
  have extents : b.extent ≠ c.extent := by
    intro equal
    obtain ⟨addr, top⟩ := Prod.mk.inj equal
    exact different (by cases b; cases c; simp only [Blk.mk.injEq] at addr top ⊢; omega)
  exact Tiles.apart_of_ne rep.tiled (List.mem_map_of_mem first) (List.mem_map_of_mem second) extents

theorem separate (rep : Represents h L) (first : b ∈ L.blocks) (second : c ∈ L.blocks) :
    Separate b.addr c.addr := by
  by_cases same : b = c
  · exact .inl (same ▸ rfl)
  · have := rep.apart first second same
    unfold Separate
    omega

theorem addrs_nodup (rep : Represents h L) : (L.blocks.map Blk.addr).Nodup := by
  have distinct := Tiles.nodup rep.tiled
  have same : L.blocks.map Blk.addr = (L.blocks.map Blk.extent).map Prod.fst := by simp [Blk.extent, Function.comp_def]
  rw [same]
  refine distinct.map_on ?_
  intro s first t second start
  exact Tiles.eq_of_start rep.tiled first second start

/-- The other blocks once the free block `b` is taken. -/
theorem others (rep : Represents h L) {front back : List Blk} (free : L.free = front ++ b :: back)
    (member : c ∈ L.head :: (front ++ back ++ L.live)) : c ∈ L.blocks ∧ b ∈ L.blocks ∧ c.addr ≠ b.addr := by
  have order := L.blocks_taken free
  have distinct := (order.map Blk.addr).nodup_iff.mp rep.addrs_nodup
  obtain ⟨fresh, _⟩ := List.nodup_cons.mp distinct
  refine ⟨order.mem_iff.mpr (List.mem_cons_of_mem b member), order.mem_iff.mpr List.mem_cons_self, ?_⟩
  intro same
  exact fresh (same ▸ List.mem_map_of_mem member)

/-- The walk of `allocate_memory` ends, at the node before the first that fits. -/
theorem walk {free : List Blk} {start : ℕ} (chain : Chain h.next start (free.map Blk.addr))
    (sizes : ∀ b ∈ free, h.size b.addr = b.size) (nonzero : ∀ b ∈ free, b.addr ≠ 0) {fuel : ℕ}
    (enough : free.length < fuel) :
    iterate (fit_step h n) fuel start =
      some ((Layout.fit n free).map fun found => lastFrom start (found.1.map Blk.addr)) := by
  induction free generalizing start fuel with
  | nil =>
    obtain ⟨fuel, rfl⟩ : ∃ k, fuel = k + 1 := ⟨fuel - 1, by omega⟩
    have ends : h.next start = 0 := chain
    have leaves : fit_step h n start = .inr none := by simp [fit_step, ends]
    rw [iterate_of_inr leaves]
    rfl
  | cons c rest ih =>
    obtain ⟨fuel, rfl⟩ : ∃ k, fuel = k + 1 := ⟨fuel - 1, by omega⟩
    have link : h.next start = c.addr := chain.1
    have nonzeroC : c.addr ≠ 0 := nonzero c List.mem_cons_self
    have sizeC : h.size c.addr = c.size := sizes c List.mem_cons_self
    by_cases large : n ≤ c.size
    · have leaves : fit_step h n start = .inr (some start) := by simp [fit_step, link, nonzeroC, sizeC, large]
      rw [iterate_of_inr leaves]
      simp [Layout.fit, large, lastFrom]
    · have goes : fit_step h n start = .inl c.addr := by simp [fit_step, link, nonzeroC, sizeC, large]
      have shorter : rest.length < fuel := by simp at enough; omega
      have tail := ih chain.2 (fun b member => sizes b (List.mem_cons_of_mem c member))
        (fun b member => nonzero b (List.mem_cons_of_mem c member)) shorter
      rw [iterate_of_inl goes, tail]
      simp [Layout.fit, large, Function.comp_def, lastFrom]

theorem walk_list (rep : Represents h L) (n : ℕ) {fuel : ℕ} (enough : L.free.length < fuel) :
    iterate (fit_step h n) fuel h.free_list_head =
      some ((Layout.fit n L.free).map fun found => lastFrom L.head.addr (found.1.map Blk.addr)) := by
  rw [rep.head]
  exact walk rep.chain (fun b free => rep.sizes b (Layout.free_mem free))
    (fun b free => by have := rep.bounds (Layout.free_mem free); omega) enough

/-- Taking the free block behind `front` from the list keeps a layout: `next`
    and `size` of the result agree with the old heap on all other blocks. -/
theorem take (rep : Represents h L) {h' : Heap} {front back : List Blk} (free : L.free = front ++ b :: back)
    (enough : n ≤ b.size) (head : h'.free_list_head = h.free_list_head)
    (others : ∀ c ∈ L.head :: (front ++ back ++ L.live), h'.size c.addr = c.size ∧
      (c.addr ≠ lastFrom L.head.addr (front.map Blk.addr) → h'.next c.addr = h.next c.addr))
    (given : h'.size b.addr = (Layout.granted n b).size)
    (left : ∀ c ∈ Layout.leftover n b, h'.size c.addr = c.size ∧ h'.next c.addr = h.next b.addr)
    (link : h'.next (lastFrom L.head.addr (front.map Blk.addr)) =
      ((Layout.leftover n b).map Blk.addr).headD (h.next b.addr)) :
    Represents h' (L.taken n front b back) := by
  have chain := rep.chain
  simp only [free, List.map_append, List.map_cons] at chain
  have distinct := rep.addrs_nodup
  have order := (L.blocks_taken free).map Blk.addr
  have distinct' := List.nodup_cons.mp (order.nodup_iff.mp distinct)
  have frontNodup : (L.head.addr :: front.map Blk.addr).Nodup := by
    refine distinct'.2.sublist ?_
    simp
  have backLinks : ∀ x ∈ back.map Blk.addr, h'.next x = h.next x := by
    intro x member
    obtain ⟨c, inBack, rfl⟩ := List.mem_map.mp member
    refine (others c (by simp [inBack])).2 ?_
    intro same
    have isFront : c.addr ∈ L.head.addr :: front.map Blk.addr := same ▸ lastFrom_mem _ _
    have dup := distinct'.2
    simp only [List.map_cons, List.map_append] at dup
    rw [← List.cons_append, ← List.cons_append] at dup
    exact (List.nodup_append.mp (List.nodup_append.mp dup).1).2.2 c.addr isFront c.addr member rfl
  refine ⟨head.trans rep.head, ?_, ?_, ?_, rep.top⟩
  · intro c member
    rw [(L.taken_perm n front b back).mem_iff, List.mem_cons, List.mem_append] at member
    rcases member with rfl | isLeft | other
    · rw [Layout.granted_addr]; exact given
    · exact (left c isLeft).1
    · exact (others c other).1
  · have tail : Chain h.next b.addr (back.map Blk.addr) := (chain_append.mp chain).2.2
    have spliced : Chain h'.next (lastFrom L.head.addr (front.map Blk.addr))
        ((Layout.leftover n b ++ back).map Blk.addr) := by
      unfold Layout.leftover at left link ⊢
      by_cases small : b.size - n < 32
      · simp only [small, if_true, List.map_nil, List.headD_nil, List.nil_append] at link ⊢
        exact tail.move link backLinks
      · simp only [small, if_false, List.map_cons, List.map_nil, List.headD_cons, List.cons_append,
          List.nil_append] at link ⊢
        have new := left ⟨b.addr + 16 + n, b.size - n - 16⟩ (by simp [small])
        exact ⟨link, tail.move new.2 backLinks⟩
    show Chain h'.next L.head.addr ((front ++ Layout.leftover n b ++ back).map Blk.addr)
    rw [List.append_assoc, List.map_append]
    refine chain.splice frontNodup ?_ spliced
    intro x member notLast
    obtain ⟨c, inFront, rfl⟩ : ∃ c ∈ L.head :: front, c.addr = x := by
      rw [← List.map_cons] at member
      exact List.mem_map.mp member
    exact (others c (Layout.front_mem inFront)).2 notLast
  · exact Layout.taken_tiled rep.tiled free enough

theorem link_at (rep : Represents h L) {front back : List Blk} (free : L.free = front ++ b :: back) :
    h.next (lastFrom L.head.addr (front.map Blk.addr)) = b.addr := by
  have chain := rep.chain
  simp only [free, List.map_append, List.map_cons] at chain
  exact (chain_append.mp chain).2.1

/-- The cell before a free block is another block of the layout. -/
theorem before (rep : Represents h L) {front back : List Blk} (free : L.free = front ++ b :: back) :
    ∃ c ∈ L.blocks, c.addr = lastFrom L.head.addr (front.map Blk.addr) ∧ c ≠ b ∧
      ∀ n, c ∈ (L.taken n front b back).blocks := by
  have member := lastFrom_mem L.head.addr (front.map Blk.addr)
  rw [← List.map_cons] at member
  obtain ⟨c, inFront, addr⟩ := List.mem_map.mp member
  obtain ⟨inBlocks, _, different⟩ := rep.others free (Layout.front_mem inFront)
  refine ⟨c, inBlocks, addr, fun same => different (same ▸ rfl), fun n => ?_⟩
  rcases List.mem_cons.mp inFront with rfl | inFront
  · exact List.mem_cons_self
  · exact List.mem_cons_of_mem _ (by simp [Layout.taken, inFront])

/-- A request that a free block serves as a whole. -/
theorem allocate_whole (rep : Represents h L) {front back : List Blk} (free : L.free = front ++ b :: back)
    (enough : n ≤ b.size) (small : b.size - n < 32) :
    ∃ h' new, allocate_from_list h n (lastFrom L.head.addr (front.map Blk.addr)) = (b.addr, h') ∧
      Represents h' (L.taken n front b back) ∧ h'.trace = new ++ h.trace ∧
      HeadersIn (L.taken n front b back) new ∧ NoWrap new := by
  have link := rep.link_at free
  obtain ⟨c, inBlocks, cAddr, different, inNew⟩ := rep.before free
  have grantedIn : Layout.granted n b ∈ (L.taken n front b back).blocks := by simp [Layout.blocks, Layout.taken]
  have bIn : b ∈ L.blocks := by simp [Layout.blocks, free]
  have size := rep.sizes b bIn
  have bounds := rep.bounds bIn
  have apart := rep.apart inBlocks bIn different
  rw [← cAddr] at link ⊢
  obtain ⟨h', ran, head, trace, fields⟩ := allocate_from_list_whole link (n := n) (by omega) (by omega) (by omega)
  refine ⟨h', _, ran, ?_, trace, ?_, ?_⟩
  · refine rep.take free enough head ?_ ?_ ?_ ?_
    · intro d other
      obtain ⟨dIn, _, dNot⟩ := rep.others free other
      obtain ⟨next, sizeD⟩ := fields d.addr (rep.separate bIn dIn) (rep.separate inBlocks dIn)
      refine ⟨sizeD.trans (rep.sizes d dIn), fun notLast => ?_⟩
      rw [next, if_neg (by rw [cAddr]; exact notLast), if_neg dNot]
    · rw [(fields b.addr separate_self (rep.separate inBlocks bIn)).2, size]
      simp [Layout.granted, small]
    · simp [Layout.leftover, small]
    · rw [← cAddr, (fields c.addr (rep.separate bIn inBlocks) separate_self).1]
      simp [Layout.leftover, small]
  · have grantedAddr := Layout.granted_addr n b
    simp only [headersIn_header, headersIn_computed, headersIn_nil, and_true]
    exact ⟨⟨c, inNew n, .inl rfl⟩, ⟨_, grantedIn, .inr (by rw [grantedAddr])⟩, ⟨_, grantedIn, .inl grantedAddr.symm⟩⟩
  · simp only [noWrap_header, noWrap_computed, noWrap_nil, and_true]
    omega

/-- A request that a free block serves with its first bytes. -/
theorem allocate_split (rep : Represents h L) {front back : List Blk} (free : L.free = front ++ b :: back)
    (enough : n ≤ b.size) (large : ¬ b.size - n < 32) :
    ∃ h' new, allocate_from_list h n (lastFrom L.head.addr (front.map Blk.addr)) = (b.addr, h') ∧
      Represents h' (L.taken n front b back) ∧ h'.trace = new ++ h.trace ∧
      HeadersIn (L.taken n front b back) new ∧ NoWrap new := by
  have link := rep.link_at free
  obtain ⟨c, inBlocks, cAddr, different, inNew⟩ := rep.before free
  have grantedIn : Layout.granted n b ∈ (L.taken n front b back).blocks := by simp [Layout.blocks, Layout.taken]
  have newIn : (⟨b.addr + 16 + n, b.size - n - 16⟩ : Blk) ∈ (L.taken n front b back).blocks := by
    simp [Layout.blocks, Layout.taken, Layout.leftover, large]
  have bIn : b ∈ L.blocks := by simp [Layout.blocks, free]
  have size := rep.sizes b bIn
  have bounds := rep.bounds bIn
  have apart := rep.apart inBlocks bIn different
  have sepNew : ∀ d ∈ L.blocks, d.addr ≠ b.addr → Separate (b.addr + 16 + n) d.addr := by
    intro d dIn dNot
    have := rep.apart dIn bIn (fun same => dNot (same ▸ rfl))
    unfold Separate
    omega
  have sepNewB : Separate (b.addr + 16 + n) b.addr := separate_behind _ n
  have sepB : Separate b.addr (b.addr + 16 + n) := separate_before _ n
  have sepC : Separate c.addr (b.addr + 16 + n) := by unfold Separate; omega
  rw [← cAddr] at link ⊢
  obtain ⟨h', ran, head, trace, fields⟩ := allocate_from_list_split link (n := n) (by omega) (by omega)
  refine ⟨h', _, ran, ?_, trace, ?_, ?_⟩
  · refine rep.take free enough head ?_ ?_ ?_ ?_
    · intro d other
      obtain ⟨dIn, _, dNot⟩ := rep.others free other
      have := rep.apart dIn bIn (fun same => dNot (same ▸ rfl))
      obtain ⟨next, sizeD⟩ := fields d.addr (rep.separate bIn dIn) (rep.separate inBlocks dIn) (sepNew d dIn dNot)
      refine ⟨?_, fun notLast => ?_⟩
      · rw [sizeD, if_neg dNot, if_neg (by omega), rep.sizes d dIn]
      · rw [next, if_neg (by rw [cAddr]; exact notLast), if_neg dNot, if_neg (by omega)]
    · rw [(fields b.addr separate_self (rep.separate inBlocks bIn) sepNewB).2]
      simp [Layout.granted, large]
    · intro d isLeft
      obtain rfl : d = ⟨b.addr + 16 + n, b.size - n - 16⟩ := by simpa [Layout.leftover, large] using isLeft
      obtain ⟨next, sizeD⟩ := fields _ sepB sepC separate_self
      refine ⟨?_, ?_⟩
      · rw [sizeD, if_neg (by omega), if_pos rfl, size]
      · rw [next, if_neg (by omega), if_neg (by omega), if_pos rfl]
    · rw [← cAddr, (fields c.addr (rep.separate bIn inBlocks) separate_self (sepNew c inBlocks (by omega))).1]
      simp [Layout.leftover, large]
  · have grantedAddr := Layout.granted_addr n b
    simp only [headersIn_header, headersIn_computed, headersIn_nil, and_true]
    exact ⟨⟨c, inNew n, .inl rfl⟩, ⟨_, grantedIn, .inr (by rw [grantedAddr])⟩, ⟨_, grantedIn, .inl grantedAddr.symm⟩,
      ⟨_, newIn, .inl rfl⟩, ⟨_, newIn, .inr rfl⟩⟩
  · simp only [noWrap_header, noWrap_computed, noWrap_nil, and_true]
    omega

/-- A request that a free block serves. -/
theorem allocate_from_list (rep : Represents h L) {front back : List Blk} (free : L.free = front ++ b :: back)
    (enough : n ≤ b.size) :
    ∃ h' new, Kmalloc.allocate_from_list h n (lastFrom L.head.addr (front.map Blk.addr)) = (b.addr, h') ∧
      Represents h' (L.taken n front b back) ∧ h'.trace = new ++ h.trace ∧
      HeadersIn (L.taken n front b back) new ∧ NoWrap new := by
  by_cases small : b.size - n < 32
  · exact rep.allocate_whole free enough small
  · exact rep.allocate_split free enough small

/-- A request that is cut off the head. -/
theorem allocate_from_head (rep : Represents h L) (enough : n + 16 ≤ L.head.size) :
    ∃ h' new, Kmalloc.allocate_from_head h n = (L.head.addr, h') ∧ Represents h' (L.cut n) ∧
      h'.trace = new ++ h.trace ∧ HeadersIn (L.cut n) new ∧ NoWrap new := by
  have headIn : L.head ∈ L.blocks := List.mem_cons_self
  have size := rep.sizes L.head headIn
  have bounds := rep.bounds headIn
  obtain ⟨h', ran, head, trace, fields⟩ := allocate_from_head_fields (h := h) (n := n) (by rw [rep.head]; omega)
  have rest : wrap ((L.head.size : ℤ) - n - 16) = L.head.size - n - 16 := wrap_eq (by omega) (by omega)
  rw [rep.head, size] at fields
  rw [rest] at fields
  rw [rep.head] at ran head trace
  have others : ∀ d ∈ L.free ++ L.live, d ∈ L.blocks ∧ h'.next d.addr = h.next d.addr ∧ h'.size d.addr = d.size := by
    intro d member
    have dIn : d ∈ L.blocks := List.mem_cons_of_mem _ member
    have distinct := (List.nodup_cons.mp rep.addrs_nodup).1
    have dNot : d.addr ≠ L.head.addr := fun same => distinct (same ▸ List.mem_map_of_mem member)
    have := rep.apart dIn headIn (fun same => dNot (same ▸ rfl))
    obtain ⟨next, sizeD⟩ := fields d.addr (rep.separate headIn dIn) (by unfold Separate; omega)
    refine ⟨dIn, ?_, ?_⟩
    · rw [next, if_neg dNot, if_neg (by omega)]
    · rw [sizeD, if_neg dNot, if_neg (by omega), rep.sizes d dIn]
  have sepNew : Separate L.head.addr (L.head.addr + 16 + n) := separate_before _ n
  obtain ⟨nextNew, sizeNew⟩ := fields _ sepNew separate_self
  refine ⟨h', _, ran, ⟨head, ?_, ?_, Layout.cut_tiled rep.tiled enough, ?_⟩, trace, ?_, ?_⟩
  · intro d member
    simp only [Layout.blocks, Layout.cut, List.mem_cons, List.mem_append] at member
    rcases member with rfl | free | rfl | live
    · rw [sizeNew, if_neg (by omega), if_pos rfl]
    · exact (others d (List.mem_append_left _ free)).2.2
    · have sepHead : Separate (L.head.addr + 16 + n) L.head.addr := separate_behind _ n
      rw [(fields L.head.addr separate_self sepHead).2, if_pos rfl]
    · exact (others d (List.mem_append_right _ live)).2.2
  · refine rep.chain.move ?_ ?_
    · show h'.next (L.head.addr + 16 + n) = _
      rw [nextNew, if_neg (by omega), if_pos rfl]
    · intro x member
      obtain ⟨d, free, rfl⟩ := List.mem_map.mp member
      exact (others d (List.mem_append_left _ free)).2.1
  · have := rep.top
    simp only [Layout.cut]
    omega
  · have oldIn : (⟨L.head.addr, n⟩ : Blk) ∈ (L.cut n).blocks := by simp [Layout.blocks, Layout.cut]
    have newIn : (⟨L.head.addr + 16 + n, L.head.size - n - 16⟩ : Blk) ∈ (L.cut n).blocks := List.mem_cons_self
    simp only [headersIn_header, headersIn_computed, headersIn_nil, and_true]
    exact ⟨⟨_, oldIn, .inr rfl⟩, ⟨_, oldIn, .inl rfl⟩, ⟨_, newIn, .inl rfl⟩, ⟨_, newIn, .inr rfl⟩⟩
  · simp only [noWrap_header, noWrap_computed, noWrap_nil, and_true]
    omega

/-- `kmalloc` ends and serves a request as the layout does. -/
theorem kmalloc (rep : Represents h L) (fits : L.Fits 16 n) :
    ∃ h' new, (∀ fuel, L.free.length < fuel → Kmalloc.kmalloc fuel n h = some ((L.malloc n).1.payload, h')) ∧
      Represents h' (L.malloc n).2 ∧ h'.trace = new ++ h.trace ∧ HeadersIn (L.malloc n).2 new ∧ NoWrap new := by
  unfold Layout.malloc
  cases found : Layout.fit n L.free with
  | some parts =>
    obtain ⟨front, b, back⟩ := parts
    obtain ⟨free, enough, _⟩ := Layout.fit_some found
    obtain ⟨h', new, ran, after, rest⟩ := rep.allocate_from_list free enough
    have bIn : b ∈ L.blocks := by simp [Layout.blocks, free]
    have bounds := rep.bounds bIn
    refine ⟨h', new, fun fuel more => ?_, after, rest⟩
    have place : wrap ((b.addr : ℤ) + sizeof_free_node) = b.addr + 16 := by
      unfold wrap sizeof_free_node; omega
    simp [Kmalloc.kmalloc, allocate_memory, rep.walk_list n more, found, ran, place, Blk.payload, Layout.granted_addr]
  | none =>
    have enough := fits (Layout.fit_none.mp found)
    obtain ⟨h', new, ran, after, rest⟩ := rep.allocate_from_head enough
    have bounds := rep.bounds (b := L.head) List.mem_cons_self
    refine ⟨h', new, fun fuel more => ?_, after, rest⟩
    have place : wrap ((L.head.addr : ℤ) + sizeof_free_node) = L.head.addr + 16 := by
      unfold wrap sizeof_free_node; omega
    simp [Kmalloc.kmalloc, allocate_memory, rep.walk_list n more, found, ran, place, Blk.payload]

/-- `kfree` puts a live block in front of the free list. -/
theorem kfree (rep : Represents h L) (live : b ∈ L.live) :
    Represents (Kmalloc.kfree b.payload h) (L.release b) := by
  have headIn : L.head ∈ L.blocks := List.mem_cons_self
  have bIn : b ∈ L.blocks := Layout.live_mem live
  have bounds := rep.bounds bIn
  have node : get_free_node_from_addr b.payload = b.addr := by
    unfold get_free_node_from_addr wrap Blk.payload sizeof_free_node; omega
  have distinct : (L.head.addr :: (L.free.map Blk.addr ++ L.live.map Blk.addr)).Nodup := by
    simpa [Layout.blocks] using rep.addrs_nodup
  have headNot : b.addr ≠ L.head.addr := by
    intro same
    exact (List.nodup_cons.mp distinct).1 (same ▸ List.mem_append_right _ (List.mem_map_of_mem live))
  have fields : ∀ c ∈ L.blocks, (Kmalloc.kfree b.payload h).next c.addr =
      (if c.addr = L.head.addr then b.addr else if c.addr = b.addr then h.next L.head.addr else h.next c.addr) ∧
      (Kmalloc.kfree b.payload h).size c.addr = c.size := by
    intro c member
    have sepB := rep.separate bIn member
    have sepHead := rep.separate headIn member
    simp only [Kmalloc.kfree, node, rep.head, Heap.setNext]
    constructor
    · show ((h.setNext b.addr (h.next L.head.addr)).setNext L.head.addr b.addr).next c.addr = _
      rw [next_setNext (by omega) sepHead, next_setNext next_lt sepB]
    · show ((h.setNext b.addr (h.next L.head.addr)).setNext L.head.addr b.addr).size c.addr = _
      rw [size_setNext sepHead, size_setNext sepB, rep.sizes c member]
  have order := Layout.release_perm live
  refine ⟨rep.head, ?_, ⟨?_, ?_⟩, Layout.release_tiled rep.tiled live, rep.top⟩
  · intro c member
    exact (fields c (order.mem_iff.mp member)).2
  · show (Kmalloc.kfree b.payload h).next L.head.addr = b.addr
    rw [(fields L.head headIn).1, if_pos rfl]
  · refine rep.chain.move ?_ ?_
    · rw [(fields b bIn).1, if_neg headNot, if_pos rfl]
    · intro x member
      obtain ⟨c, free, rfl⟩ := List.mem_map.mp member
      have notHead : c.addr ≠ L.head.addr := by
        intro same
        exact (List.nodup_cons.mp distinct).1 (same ▸ List.mem_append_left _ member)
      have notB : c.addr ≠ b.addr :=
        (List.nodup_append.mp (List.nodup_cons.mp distinct).2).2.2 c.addr member b.addr (List.mem_map_of_mem live)
      rw [(fields c (List.mem_cons_of_mem _ (List.mem_append_left _ free))).1, if_neg notHead, if_neg notB]

/-- A heap stands for a layout as long as no header byte of its blocks changes. -/
theorem frame (rep : Represents h L) {h' : Heap} (head : h'.free_list_head = h.free_list_head)
    (same : ∀ b ∈ L.blocks, ∀ x, b.addr ≤ x → x < b.addr + 16 → h'.mem x = h.mem x) : Represents h' L := by
  have next : ∀ b ∈ L.blocks, h'.next b.addr = h.next b.addr := by
    intro b member
    exact read_congr 8 b.addr (fun x low high => same b member x low (by omega))
  refine ⟨head.trans rep.head, ?_, ?_, rep.tiled, rep.top⟩
  · intro b member
    rw [← rep.sizes b member]
    exact read_congr 8 (b.addr + 8) (fun x low high => same b member x (by omega) (by omega))
  · refine rep.chain.move (next L.head List.mem_cons_self) ?_
    intro x member
    obtain ⟨c, free, rfl⟩ := List.mem_map.mp member
    exact next c (List.mem_cons_of_mem _ (List.mem_append_left _ free))

end Represents

/-- Copying changes only the bytes copied to. -/
theorem kmemcpy_outside (m : Memory) {dest src n x : ℕ} (top : dest + n ≤ 2 ^ 64) (outside : x < dest ∨ dest + n ≤ x) :
    kmemcpy m dest src n x = m x := by
  induction n with
  | zero => rfl
  | succ n ih =>
    have place : wrap ((dest : ℤ) + n) = dest + n := wrap_eq (by omega) (by omega)
    rw [kmemcpy, place, set_other _ _ (by omega)]
    exact ih (by omega) (by omega)

/-- Copying to bytes apart from the source copies them. -/
theorem kmemcpy_copies (m : Memory) {dest src n i : ℕ} (top : dest + n ≤ 2 ^ 64) (top' : src + n ≤ 2 ^ 64)
    (apart : dest + n ≤ src ∨ src + n ≤ dest) (less : i < n) : kmemcpy m dest src n (dest + i) = m (src + i) := by
  induction n with
  | zero => omega
  | succ n ih =>
    have place : wrap ((dest : ℤ) + n) = dest + n := wrap_eq (by omega) (by omega)
    have source : wrap ((src : ℤ) + n) = src + n := wrap_eq (by omega) (by omega)
    rw [kmemcpy, place, source]
    by_cases last : i = n
    · subst last
      rw [set_same]
      exact kmemcpy_outside m (by omega) (by omega)
    · rw [set_other _ _ (by omega)]
      exact ih (by omega) (by omega) (by omega) (by omega)

namespace Represents
variable {L : Layout} {b c : Blk} {n : ℕ}

theorem node_size (rep : Represents h L) (live : b ∈ L.live) :
    get_free_node_from_addr b.payload = b.addr ∧ h.size b.addr = b.size := by
  have bIn : b ∈ L.blocks := Layout.live_mem live
  refine ⟨?_, rep.sizes b bIn⟩
  have := rep.bounds bIn
  unfold get_free_node_from_addr wrap Blk.payload sizeof_free_node
  omega

/-- Copying into the payload of a block leaves every header alone. -/
theorem copy (rep : Represents h L) (member : b ∈ L.blocks) (enough : n ≤ b.size) (src : ℕ) :
    Represents { h with mem := kmemcpy h.mem b.payload src n } L := by
  have bounds := rep.bounds member
  refine rep.frame rfl ?_
  intro c other x low high
  refine kmemcpy_outside h.mem (by unfold Blk.payload; omega) ?_
  unfold Blk.payload
  by_cases same : c = b
  · subst same; omega
  · have := rep.apart other member same
    omega

/-- `krealloc` of a live block that is too small: a new block is taken, the
    bytes of the old one are copied and the old one is freed. -/
theorem krealloc_moves (rep : Represents h L) (live : b ∈ L.live) (small : b.size < n) (fits : L.Fits 16 n) :
    ∃ h' u, Represents h' (L.malloc n).2 ∧ Represents u ((L.malloc n).2.release b) ∧
      u = Kmalloc.kfree b.payload { h' with mem := kmemcpy h'.mem (L.malloc n).1.payload b.payload b.size } ∧
      ∀ fuel, L.free.length < fuel → Kmalloc.kmalloc fuel n h = some ((L.malloc n).1.payload, h') ∧
        Kmalloc.krealloc fuel b.payload n h = some ((L.malloc n).1.payload, u) := by
  obtain ⟨node, sizeB⟩ := rep.node_size live
  obtain ⟨h', _, ran, after, _⟩ := rep.kmalloc fits
  obtain ⟨gLive, enough, order⟩ := Layout.malloc_live n L
  have bLive : b ∈ (L.malloc n).2.live := by
    rw [order]
    exact List.mem_cons_of_mem _ live
  have gIn : (L.malloc n).1 ∈ (L.malloc n).2.blocks := Layout.live_mem gLive
  have size : h'.size b.addr = b.size := (after.node_size bLive).2
  have copied := after.copy gIn (n := b.size) (by omega) b.payload
  refine ⟨h', _, after, copied.kfree bLive, rfl, fun fuel more => ⟨ran fuel more, ?_⟩⟩
  simp [Kmalloc.krealloc, node, sizeB, Nat.not_le.mpr small, ran fuel more, size]

/-- `krealloc` of a live block: it stays when it is large enough, otherwise a
    new block is taken and the old one freed. -/
theorem krealloc (rep : Represents h L) (live : b ∈ L.live) (fits : b.size < n → L.Fits 16 n) :
    ∃ h', (∀ fuel, L.free.length < fuel → Kmalloc.krealloc fuel b.payload n h =
        some (if b.size ≥ n then b.payload else (L.malloc n).1.payload, h')) ∧
      Represents h' (if b.size ≥ n then L else (L.malloc n).2.release b) := by
  by_cases large : b.size ≥ n
  · obtain ⟨node, sizeB⟩ := rep.node_size live
    refine ⟨h, fun fuel _ => ?_, by simpa [large] using rep⟩
    simp [Kmalloc.krealloc, node, sizeB, large]
  · obtain ⟨_, u, _, after, _, ran⟩ := rep.krealloc_moves live (Nat.not_le.mp large) (fits (Nat.not_le.mp large))
    refine ⟨u, fun fuel more => ?_, by simpa [large] using after⟩
    simpa [large] using (ran fuel more).2

end Represents
end OsC.HeapRefine
