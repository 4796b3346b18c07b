import OsC.HeapRuns

/-!
Which block serves a request. `allocate_memory` takes the first node behind the
head that is large enough, in the order of the list, and cuts the head only if
there is none (`allocate_memory_first_fit`). What a node has to spare takes its
place in the list; the other nodes keep their places, links and sizes. A block
that was freed is the first node, so that it serves the next request that fits.
-/
namespace OsC.FirstFit
open OsC.Loop OsC.Word OsC.Links OsC.Blocks OsC.Kmalloc OsC.HeapRefine OsC.HeapRuns

/-- What takes the place of a node that serves `n` bytes. -/
def remainder (h : Heap) (n node : ℕ) : List ℕ := if n + 32 ≤ h.size node then [node + 16 + n] else []

/-- `node`, between `front` and `back` in the list, serves `n` bytes. -/
structure Takes (h h' : Heap) (n : ℕ) (front : List ℕ) (node : ℕ) (back : List ℕ) : Prop where
  first : ∀ c ∈ front, h.size c < n
  enough : n ≤ h.size node
  head : h'.free_list_head = h.free_list_head
  list : Chain h'.next h.free_list_head (front ++ remainder h n node ++ back)
  spare : ∀ c ∈ remainder h n node, h'.size c = h.size node - n - 16 ∧ 16 ≤ h'.size c
  sizes : ∀ c ∈ h.free_list_head :: (front ++ back), h'.size c = h.size c
  links : ∀ c ∈ h.free_list_head :: (front ++ back), c ≠ lastFrom h.free_list_head front → h'.next c = h.next c

/-- The head serves `n` bytes: it moves behind them, with the list. -/
structure Cuts (h h' : Heap) (n : ℕ) (nodes : List ℕ) : Prop where
  none : ∀ c ∈ nodes, h.size c < n
  head : h'.free_list_head = h.free_list_head + 16 + n
  rest : n + 16 ≤ h.size h.free_list_head → h'.size h'.free_list_head = h.size h.free_list_head - n - 16
  list : Chain h'.next h'.free_list_head nodes
  sizes : ∀ c ∈ nodes, h'.size c = h.size c
  links : ∀ c ∈ nodes, h'.next c = h.next c

section
variable {h : Heap} {L : Layout} {b : Blk} {n : ℕ}

/-- The sizes of the free nodes in the heap are those of the layout. -/
theorem small_iff (rep : Represents h L) {free : List Blk} (sub : ∀ b ∈ free, b ∈ L.blocks) :
    (∀ c ∈ free.map Blk.addr, h.size c < n) ↔ ∀ b ∈ free, b.size < n := by
  rw [List.forall_mem_map]
  exact forall₂_congr fun b member => by rw [rep.sizes b (sub b member)]

theorem remainder_eq (rep : Represents h L) (inside : b ∈ L.blocks) :
    remainder h n b.addr = (Layout.leftover n b).map Blk.addr := by
  rw [remainder, Layout.leftover, rep.sizes b inside]
  by_cases spare : n + 32 ≤ b.size
  · rw [if_pos spare, if_neg (by omega)]
    rfl
  · rw [if_neg spare, if_pos (by omega)]
    rfl

/-- The blocks that stay in the list keep their sizes. -/
theorem kept_sizes {h' : Heap} {front back : List Blk} (rep : Represents h L) (free : L.free = front ++ b :: back)
    (after : Represents h' (L.taken n front b back)) : ∀ c ∈ L.head :: (front ++ back), h'.size c.addr = h.size c.addr := by
  intro c member
  have was : c ∈ L.blocks := by
    rcases List.mem_cons.mp member with rfl | member
    · exact List.mem_cons_self
    · have listed : c ∈ front ++ b :: back := by
        rcases List.mem_append.mp member with inFront | inBack
        · exact List.mem_append_left _ inFront
        · exact List.mem_append_right _ (List.mem_cons_of_mem _ inBack)
      exact Layout.free_mem (free ▸ listed)
  rw [rep.sizes c was]
  refine after.sizes c ?_
  rcases List.mem_cons.mp member with rfl | member
  · exact List.mem_cons_self
  · have listed : c ∈ front ++ Layout.leftover n b ++ back := by
      rcases List.mem_append.mp member with inFront | inBack
      · exact List.mem_append_left _ (List.mem_append_left _ inFront)
      · exact List.mem_append_right _ inBack
    exact Layout.free_mem listed

/-- What is left has a payload of at least 16 bytes. -/
theorem spare_sizes {h' : Heap} {front back : List Blk} (rep : Represents h L) (inside : b ∈ L.blocks)
    (after : Represents h' (L.taken n front b back)) :
    ∀ c ∈ remainder h n b.addr, h'.size c = h.size b.addr - n - 16 ∧ 16 ≤ h'.size c := by
  intro c member
  rw [remainder_eq rep inside] at member
  obtain ⟨d, left, rfl⟩ := List.mem_map.mp member
  have size : h'.size d.addr = d.size :=
    after.sizes d (List.mem_cons_of_mem _ (List.mem_append_left _ (List.mem_append_left _ (List.mem_append_right _ left))))
  rw [size, rep.sizes b inside]
  unfold Layout.leftover at left
  split at left
  · cases left
  · obtain rfl := List.mem_singleton.mp left
    exact ⟨rfl, by simp only; omega⟩

/-- A request that a free block serves. -/
theorem takes_of_fit (rep : Represents h L) {front back : List Blk} (found : Layout.fit n L.free = some (front, b, back)) :
    ∃ h', (∀ fuel, L.free.length < fuel → allocate_memory fuel n h = some (b.addr, h')) ∧
      n ≤ h'.size b.addr ∧ h'.size b.addr ≤ n + 31 ∧ Takes h h' n (front.map Blk.addr) b.addr (back.map Blk.addr) := by
  obtain ⟨free, enough, small⟩ := Layout.fit_some found
  obtain ⟨h', _, ran, after, _⟩ := rep.allocate_from_list free enough
  have inBlocks : ∀ c ∈ front ++ b :: back, c ∈ L.blocks := fun c member =>
    Layout.free_mem (free ▸ member)
  have inside : b ∈ L.blocks := inBlocks b (List.mem_append_right _ List.mem_cons_self)
  have granted : h'.size b.addr = (Layout.granted n b).size := by
    rw [← Layout.granted_addr n b]
    exact after.sizes _ (List.mem_cons_of_mem _ (List.mem_append_right _ List.mem_cons_self))
  have list : Chain h'.next h.free_list_head
      (front.map Blk.addr ++ remainder h n b.addr ++ back.map Blk.addr) := by
    rw [remainder_eq rep inside, rep.head]
    simpa [Layout.taken] using after.chain
  have before : Chain h.next h.free_list_head (front.map Blk.addr ++ b.addr :: back.map Blk.addr) := by
    have chain := rep.chain
    rwa [free, List.map_append, List.map_cons, ← rep.head] at chain
  refine ⟨h', fun fuel more => ?_, ?_, ?_, ?_⟩
  · rw [allocate_memory, rep.walk_list n more, found]
    exact congrArg some ran
  · rw [granted]
    exact Layout.granted_size enough
  · rw [granted, Layout.granted]
    by_cases whole : b.size - n < 32
    · rw [if_pos whole]
      omega
    · rw [if_neg whole]
      exact Nat.le_add_right n 31
  · refine ⟨(small_iff rep fun c member => inBlocks c (List.mem_append_left _ member)).mpr small, ?_,
      after.head.trans rep.head.symm, list, spare_sizes rep inside after, ?_, fun c member => ?_⟩
    · rw [rep.sizes b inside]
      exact enough
    · intro c member
      rw [rep.head, ← List.map_append, ← List.map_cons] at member
      obtain ⟨d, listed, rfl⟩ := List.mem_map.mp member
      exact kept_sizes rep free after d listed
    · rw [List.append_cons] at before
      exact before.same_around list c member

/-- A request that no free block serves. -/
theorem cuts_of_none (rep : Represents h L) (none : Layout.fit n L.free = none) (room : n ≤ L.head.size) :
    ∃ h', (∀ fuel, L.free.length < fuel → allocate_memory fuel n h = some (h.free_list_head, h')) ∧
      h'.size h.free_list_head = n ∧ Cuts h h' n (L.free.map Blk.addr) := by
  have headIn : L.head ∈ L.blocks := List.mem_cons_self
  have bounds := rep.bounds headIn
  have top := rep.top
  obtain ⟨h', ran, head, -, fields⟩ := allocate_from_head_fields (h := h) (n := n) (by rw [rep.head]; omega)
  -- The free nodes lie before the head, so that neither header written is one of theirs.
  have others : ∀ c ∈ L.free.map Blk.addr, h'.next c = h.next c ∧ h'.size c = h.size c := by
    intro c member
    obtain ⟨d, free, rfl⟩ := List.mem_map.mp member
    have different : d ≠ L.head := by
      intro same
      have distinct := (List.nodup_cons.mp rep.addrs_nodup).1
      exact distinct (same ▸ List.mem_map_of_mem (List.mem_append_left _ free))
    have apart := rep.apart (Layout.free_mem free) headIn different
    have inside := rep.bounds (Layout.free_mem free)
    unfold heap_start_addr heap_size at top
    obtain ⟨next, size⟩ := fields d.addr (by rw [rep.head]; unfold Separate; omega) (by rw [rep.head]; unfold Separate; omega)
    rw [rep.head, if_neg (by omega), if_neg (by omega)] at next size
    exact ⟨next, size⟩
  have separate : Separate h.free_list_head (h.free_list_head + 16 + n) := separate_before _ n
  obtain ⟨link, rest⟩ := fields _ separate separate_self
  rw [if_neg (by omega), if_pos rfl] at link rest
  refine ⟨h', fun fuel more => ?_, ?_, ?_⟩
  · rw [allocate_memory, rep.walk_list n more, none]
    exact congrArg some ran
  · rw [(fields _ separate_self (separate_behind _ n)).2, if_pos rfl]
  · refine ⟨(small_iff rep fun _ => Layout.free_mem).mpr (Layout.fit_none.mp none), head, ?_, ?_, fun c member => (others c member).2,
      fun c member => (others c member).1⟩
    · intro enough
      rw [head, rest]
      exact wrap_eq (by omega) (by rw [rep.head, rep.sizes L.head headIn]; omega)
    · rw [head]
      have chain := rep.chain
      rw [← rep.head] at chain
      exact chain.move link fun c member => (others c member).1

/-- A block that was just freed serves a request that it can hold. -/
theorem freed_serves (rep : Represents h L) (live : b ∈ L.live) (enough : n ≤ b.size) :
    ∃ h', ∀ fuel, L.free.length + 1 < fuel → kmalloc fuel n (kfree b.payload h) = some (b.payload, h') := by
  have first : Layout.fit n (L.release b).free = some ([], b, L.free) := by simp [Layout.release, Layout.fit, enough]
  have fits : (L.release b).Fits 16 n := fun small => absurd (small b List.mem_cons_self) (Nat.not_lt.mpr enough)
  obtain ⟨h', _, ran, _⟩ := (rep.kfree live).kmalloc fits
  have same : ((L.release b).malloc n).1.payload = b.payload := by
    rw [Layout.malloc, first, Blk.payload, Blk.payload, Layout.granted_addr]
  rw [same] at ran
  exact ⟨h', ran⟩

/-- In any heap that stands for a layout, a request is served by the first node of the list that is large enough, and by
    the head if there is none; a block that is freed serves the next request that it can hold. -/
theorem allocate_memory_first_fit (rep : Represents h L) (n : ℕ)
    (room : (∀ b ∈ L.free, b.size < n) → n ≤ L.head.size) :
    (∃ node h', (∀ fuel, L.free.length < fuel → allocate_memory fuel n h = some (node, h')) ∧
      n ≤ h'.size node ∧ h'.size node ≤ n + 31 ∧
      ((∃ front back, L.free.map Blk.addr = front ++ node :: back ∧ Takes h h' n front node back) ∨
        node = h.free_list_head ∧ Cuts h h' n (L.free.map Blk.addr))) ∧
    ∀ b ∈ L.live, ∀ m ≤ h.size (get_free_node_from_addr b.payload), ∃ h', ∀ fuel, L.free.length + 1 < fuel →
      kmalloc fuel m (kfree b.payload h) = some (b.payload, h') := by
  constructor
  · cases found : Layout.fit n L.free with
    | some parts =>
      obtain ⟨front, b, back⟩ := parts
      obtain ⟨h', ran, least, most, takes⟩ := takes_of_fit rep found
      refine ⟨b.addr, h', ran, least, most, .inl ⟨_, _, ?_, takes⟩⟩
      rw [(Layout.fit_some found).1, List.map_append, List.map_cons]
    | none =>
      obtain ⟨h', ran, size, cuts⟩ := cuts_of_none rep found (room (Layout.fit_none.mp found))
      exact ⟨_, h', ran, by omega, by omega, .inr ⟨rfl, cuts⟩⟩
  · intro b live m least
    obtain ⟨node, size⟩ := rep.node_size live
    rw [node, size] at least
    exact freed_serves rep live least

/-- The first of two blocks, freed, is cut for a smaller request. -/
theorem allocate_memory_first_fit_freed : ∃ h L, Represents h L ∧ L.free = [⟨0x40000000, 64⟩] ∧
    (∃ node h', (∀ fuel, L.free.length < fuel → allocate_memory fuel 8 h = some (node, h')) ∧
      8 ≤ h'.size node ∧ h'.size node ≤ 8 + 31 ∧
      ((∃ front back, L.free.map Blk.addr = front ++ node :: back ∧ Takes h h' 8 front node back) ∨
        node = h.free_list_head ∧ Cuts h h' 8 (L.free.map Blk.addr))) ∧
    ∀ b ∈ L.live, ∀ m ≤ h.size (get_free_node_from_addr b.payload), ∃ h', ∀ fuel, L.free.length + 1 < fuel →
      kmalloc fuel m (kfree b.payload h) = some (b.payload, h') := by
  obtain ⟨h₁, _, -, one, -⟩ := (represents_init fun _ => 0).kmalloc (n := 64) fun _ => by decide
  obtain ⟨h₂, _, -, two, -⟩ := one.kmalloc (n := 24) fun _ => by decide
  have live : (⟨0x40000000, 64⟩ : Blk) ∈ ((initial.malloc 64).2.malloc 24).2.live := by decide
  exact ⟨_, _, two.kfree live, by decide, allocate_memory_first_fit (two.kfree live) 8 fun _ => by decide⟩

end
end OsC.FirstFit
