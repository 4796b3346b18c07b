import OsC.HeapPages
import OsC.HeapRuns

/-!
The heap functions as programs over bytes. On a flat memory they are the
functions of the heap (`flat_kmalloc`, `flat_krealloc`, `flat_kfree`); in a run
whose head requests leave the margin they access only addresses of the mapped
heap, and so run through the page tables as on the flat memory
(`paged_heap_runs`).
-/
namespace OsC.PagedHeap
open OsC.Word OsC.Frames OsC.Loop OsC.Links OsC.Blocks OsC.Kmalloc OsC.HeapRefine OsC.HeapRuns OsC.Programs OsC.Programs.Program
open OsC.HeapPages OsC.Paging OsC.PageMap

/-! ### The code -/

def next (node : ℕ) : Program ℕ := read node 8
def size (node : ℕ) : Program ℕ := read (node + 8) 8
def setNext (node value : ℕ) : Program Unit := write node 8 value
def setSize (node value : ℕ) : Program Unit := write (node + 8) 8 value

/-- The loop of `allocate_memory`, up to the node before one that is large enough. -/
def fit_loop (required_bytes : ℕ) : ℕ → ℕ → Program (Option (Option ℕ))
  | 0, _ => pure none
  | fuel + 1, node => do
    let after ← next node
    if after = 0 then pure (some none)
    else do
      let free ← size after
      if free ≥ required_bytes then pure (some (some node)) else fit_loop required_bytes fuel after

def allocate_from_list (required_bytes node : ℕ) : Program ℕ := do
  let old_node ← next node
  let after_old ← next old_node
  let old_size ← size old_node
  let exact_free : ℤ := old_size - required_bytes
  let small := wrap exact_free < minimum_alloc_size
  let required_bytes := if small then old_size else required_bytes
  let new_free_bytes := if small then 0 else wrap exact_free
  if new_free_bytes ≠ 0 then do
    let new_next_node := wrap (old_node + sizeof_free_node + required_bytes)
    setSize new_next_node (wrap (new_free_bytes - sizeof_free_node))
    let old_next ← next old_node
    setNext new_next_node old_next
    setNext old_node 0
    setSize old_node required_bytes
    setNext node new_next_node
    pure old_node
  else do
    setNext old_node 0
    setSize old_node required_bytes
    setNext node after_old
    pure old_node

/-- The node and the new head. -/
def allocate_from_head (required_bytes head : ℕ) : Program (ℕ × ℕ) := do
  let new_head := wrap (head + sizeof_free_node + required_bytes)
  let old_size ← size head
  setSize new_head (wrap (old_size - required_bytes - sizeof_free_node))
  let old_next ← next head
  setNext new_head old_next
  setNext head 0
  setSize head required_bytes
  pure (head, new_head)

def allocate_memory (fuel required_bytes head : ℕ) : Program (Option (ℕ × ℕ)) := do
  match ← fit_loop required_bytes fuel head with
  | none => pure none
  | some (some node) => do
    let old_node ← allocate_from_list required_bytes node
    pure (some (old_node, head))
  | some none => do
    let found ← allocate_from_head required_bytes head
    pure (some found)

/-- The address and the new head. -/
def kmalloc (fuel bytes head : ℕ) : Program (Option (ℕ × ℕ)) := do
  match ← allocate_memory fuel bytes head with
  | none => pure none
  | some (node, head) => pure (some (wrap (node + sizeof_free_node), head))

def kmemcpy (dest src : ℕ) : ℕ → Program Unit
  | 0 => pure ()
  | n + 1 => do
    kmemcpy dest src n
    .load (wrap (src + n)) fun v => .store (wrap (dest + n)) v (pure ())

def kfree (addr head : ℕ) : Program Unit := do
  let node := get_free_node_from_addr addr
  let first ← next head
  setNext node first
  setNext head node

def krealloc (fuel addr bytes head : ℕ) : Program (Option (ℕ × ℕ)) := do
  let old_size ← size (get_free_node_from_addr addr)
  if old_size ≥ bytes then pure (some (addr, head))
  else do
    match ← kmalloc fuel bytes head with
    | none => pure none
    | some (new_addr, head) => do
      let old_size ← size (get_free_node_from_addr addr)
      kmemcpy new_addr addr old_size
      kfree addr head
      pure (some (new_addr, head))

/-! ### On a flat memory -/

section
variable {h : Heap} {m : Bytes.Memory}

theorem flat_next (node : ℕ) : (next node).flat h.mem = (h.next node, h.mem) := flat_read _ _ _
theorem flat_size (node : ℕ) : (size node).flat h.mem = (h.size node, h.mem) := flat_read _ _ _
theorem flat_setNext (node value : ℕ) : (setNext node value).flat h.mem = ((), (h.setNext node value).mem) := flat_write _ _ _ _
theorem flat_setSize (node value : ℕ) : (setSize node value).flat h.mem = ((), (h.setSize node value).mem) := flat_write _ _ _ _

theorem flat_fit_loop (required_bytes fuel node : ℕ) :
    (fit_loop required_bytes fuel node).flat h.mem = (iterate (fit_step h required_bytes) fuel node, h.mem) := by
  induction fuel generalizing node with
  | zero => rfl
  | succ fuel ih =>
    simp only [fit_loop, flat_bind, flat_next, flat_ite, flat_size, flat_pure, ih]
    by_cases ends : h.next node = 0
    · rw [if_pos ends, iterate_of_inr (r := none) (by simp [fit_step, ends])]
    · rw [if_neg ends]
      by_cases large : h.size (h.next node) ≥ required_bytes
      · rw [if_pos large, iterate_of_inr (r := some node) (by simp [fit_step, ends, large])]
      · have goes : fit_step h required_bytes node = .inl (h.next node) := by simp only [fit_step, if_neg ends, if_neg large]
        rw [if_neg large, iterate_of_inl goes]

theorem flat_allocate_from_list (required_bytes node : ℕ) :
    (allocate_from_list required_bytes node).flat h.mem =
      ((Kmalloc.allocate_from_list h required_bytes node).1, (Kmalloc.allocate_from_list h required_bytes node).2.mem) := by
  simp only [allocate_from_list, Kmalloc.allocate_from_list, flat_bind, flat_next, flat_size, flat_ite, flat_setNext, flat_setSize,
    flat_pure]
  by_cases small : wrap ((h.size (h.next node) : ℤ) - required_bytes) < minimum_alloc_size
  · simp only [if_pos small, ne_eq, not_true_eq_false, if_false]
    rfl
  · simp only [if_neg small]
    split <;> rfl

theorem flat_allocate_from_head (required_bytes : ℕ) :
    (allocate_from_head required_bytes h.free_list_head).flat h.mem =
      (((Kmalloc.allocate_from_head h required_bytes).1, (Kmalloc.allocate_from_head h required_bytes).2.free_list_head),
        (Kmalloc.allocate_from_head h required_bytes).2.mem) := by
  simp only [allocate_from_head, flat_bind, flat_size, flat_setSize, flat_next, flat_setNext, flat_pure]
  rfl

theorem allocate_from_list_head (required_bytes node : ℕ) :
    (Kmalloc.allocate_from_list h required_bytes node).2.free_list_head = h.free_list_head := by
  unfold Kmalloc.allocate_from_list
  dsimp only
  split <;> split <;> rfl

theorem flat_kmalloc (fuel bytes : ℕ) :
    (kmalloc fuel bytes h.free_list_head).flat h.mem =
      ((Kmalloc.kmalloc fuel bytes h).map fun r => (r.1, r.2.free_list_head),
        ((Kmalloc.kmalloc fuel bytes h).map fun r => r.2.mem).getD h.mem) := by
  simp only [kmalloc, allocate_memory, flat_bind, flat_fit_loop, Kmalloc.kmalloc, Kmalloc.allocate_memory]
  rcases iterate (fit_step h bytes) fuel h.free_list_head with _ | _ | node
  · rfl
  · simp only [flat_bind, flat_allocate_from_head]
    rfl
  · simp only [flat_bind, flat_allocate_from_list]
    change (some (_, h.free_list_head), _) = _
    rw [← allocate_from_list_head bytes node]
    rfl

theorem flat_kmemcpy (m : Bytes.Memory) (dest src n : ℕ) : (kmemcpy dest src n).flat m = ((), Kmalloc.kmemcpy m dest src n) := by
  induction n with
  | zero => rfl
  | succ n ih =>
    simp only [kmemcpy, flat_bind, ih]
    rfl

theorem flat_kfree (addr : ℕ) : (kfree addr h.free_list_head).flat h.mem = ((), (Kmalloc.kfree addr h).mem) := by
  simp only [kfree, flat_bind, flat_next, flat_setNext]
  rfl

theorem flat_krealloc (fuel addr bytes : ℕ) :
    (krealloc fuel addr bytes h.free_list_head).flat h.mem =
      ((Kmalloc.krealloc fuel addr bytes h).map fun r => (r.1, r.2.free_list_head),
        ((Kmalloc.krealloc fuel addr bytes h).map fun r => r.2.mem).getD h.mem) := by
  simp only [krealloc, flat_bind, flat_size, flat_ite, Kmalloc.krealloc]
  by_cases large : h.size (get_free_node_from_addr addr) ≥ bytes
  · rw [if_pos large, if_pos large]
    rfl
  · rw [if_neg large, if_neg large, flat_kmalloc]
    rcases Kmalloc.kmalloc fuel bytes h with _ | ⟨new_addr, h'⟩
    · rfl
    · simp only [Option.map_some, Option.getD_some, flat_bind, flat_size, flat_kmemcpy]
      obtain ⟨copy, isCopy⟩ : ∃ copy, copy = Kmalloc.kmemcpy h'.mem new_addr addr (h'.size (get_free_node_from_addr addr)) :=
        ⟨_, rfl⟩
      obtain ⟨u, copied⟩ : ∃ u : Heap, u = { h' with mem := copy } := ⟨_, rfl⟩
      have freed := flat_kfree (h := u) addr
      rw [← isCopy]
      rw [copied] at freed
      rw [freed]
      rfl

end
/-! ### In the mapped heap -/

section
variable {h : Heap} {L : Layout} {b c : Blk} {n : ℕ}

/-- A header lies in the mapped heap. -/
def HeaderIn (addr : ℕ) : Prop := heap_start_addr ≤ addr ∧ addr + 16 ≤ heap_start_addr + heap_size

theorem inside_next {addr : ℕ} (inside : HeaderIn addr) (m : Bytes.Memory) : (next addr).Inside InHeap m :=
  inside_read m fun b _ _ => by
    unfold HeaderIn InHeap at *
    omega

theorem inside_size {addr : ℕ} (inside : HeaderIn addr) (m : Bytes.Memory) : (size addr).Inside InHeap m :=
  inside_read m fun b _ _ => by
    unfold HeaderIn InHeap at *
    omega

theorem inside_setNext {addr : ℕ} (inside : HeaderIn addr) (value : ℕ) (m : Bytes.Memory) : (setNext addr value).Inside InHeap m :=
  inside_write value m fun b _ _ => by
    unfold HeaderIn InHeap at *
    omega

theorem inside_setSize {addr : ℕ} (inside : HeaderIn addr) (value : ℕ) (m : Bytes.Memory) : (setSize addr value).Inside InHeap m :=
  inside_write value m fun b _ _ => by
    unfold HeaderIn InHeap at *
    omega

/-- A block that is not the head ends in the mapped heap. -/
theorem extent_inside (rep : Represents h L) (room : 16 ≤ L.head.size) (member : c ∈ L.blocks) (other : c ≠ L.head) :
    c.addr + 16 + c.size ≤ heap_start_addr + heap_size := by
  have top := rep.top
  have bounds := rep.bounds member
  have head := rep.bounds (b := L.head) List.mem_cons_self
  have apart := rep.apart member List.mem_cons_self other
  unfold heap_start_addr heap_size at *
  omega

/-- The walk of the free list reads headers of its blocks. -/
theorem inside_fit_loop {free : List Blk} {start : ℕ} (chain : Chain h.next start (free.map Blk.addr))
    (inside : ∀ addr ∈ start :: free.map Blk.addr, HeaderIn addr) (fuel : ℕ) : (fit_loop n fuel start).Inside InHeap h.mem := by
  induction free generalizing start fuel with
  | nil =>
    cases fuel with
    | zero => trivial
    | succ fuel =>
      have ends : h.next start = 0 := chain
      simp only [fit_loop, inside_bind, flat_next, if_pos ends]
      exact ⟨inside_next (inside start List.mem_cons_self) h.mem, trivial⟩
  | cons c rest ih =>
    cases fuel with
    | zero => trivial
    | succ fuel =>
      have first : HeaderIn c.addr := inside c.addr (by simp)
      have link : h.next start = c.addr := chain.1
      have nonzero : c.addr ≠ 0 := by
        have low := first.1
        unfold heap_start_addr at low
        omega
      have tail := ih chain.2 (fun addr member => inside addr (List.mem_cons_of_mem start member)) fuel
      simp only [fit_loop, inside_bind, flat_next, flat_size, inside_ite, link, if_neg nonzero]
      refine ⟨inside_next (inside start List.mem_cons_self) h.mem, inside_size first h.mem, ?_⟩
      split
      · trivial
      · exact tail

theorem inside_allocate_from_list (rep : Represents h L) (room : 16 ≤ L.head.size) {front back : List Blk}
    (free : L.free = front ++ b :: back) (enough : n ≤ b.size) :
    (allocate_from_list n (lastFrom L.head.addr (front.map Blk.addr))).Inside InHeap h.mem := by
  have link := rep.link_at free
  obtain ⟨c, inBlocks, cAddr, -, -⟩ := rep.before free
  have bIn : b ∈ L.blocks := by simp [Layout.blocks, free]
  have other : b ≠ L.head := fun same => (rep.others free (c := L.head) List.mem_cons_self).2.2 (same ▸ rfl)
  rw [← cAddr] at link ⊢
  have cOk : HeaderIn c.addr := header_inside rep room inBlocks
  have bOk : HeaderIn b.addr := header_inside rep room bIn
  have bEnd := extent_inside rep room bIn other
  have bounds := rep.bounds bIn
  have spare : wrap ((b.size : ℤ) - n) = b.size - n := wrap_eq (by omega) (by omega)
  have place : wrap ((b.addr : ℤ) + sizeof_free_node + n) = b.addr + 16 + n :=
    wrap_eq (by unfold sizeof_free_node; push_cast; omega) (by omega)
  simp only [allocate_from_list, inside_bind, flat_next, flat_size, flat_setNext, flat_setSize, inside_ite, inside_pure, and_true,
    link, rep.sizes b bIn, spare, inside_next cOk, inside_next bOk, inside_size bOk, inside_setNext cOk, inside_setNext bOk,
    inside_setSize bOk, true_and]
  by_cases small : b.size - n < minimum_alloc_size
  · simp [small]
  · have newOk : HeaderIn (b.addr + 16 + n) := by
      unfold HeaderIn minimum_alloc_size sizeof_free_node at *
      omega
    simp only [if_neg small, place, inside_setSize newOk, inside_setNext newOk, true_and, ite_self]

theorem inside_allocate_from_head (rep : Represents h L) (enough : n + 32 ≤ L.head.size) :
    (allocate_from_head n h.free_list_head).Inside InHeap h.mem := by
  have headOk : HeaderIn L.head.addr := header_inside rep (by omega) List.mem_cons_self
  have top := rep.top
  have bounds := rep.bounds (b := L.head) List.mem_cons_self
  have place : wrap ((L.head.addr : ℤ) + sizeof_free_node + n) = L.head.addr + 16 + n :=
    wrap_eq (by unfold sizeof_free_node; push_cast; omega) (by omega)
  have newOk : HeaderIn (L.head.addr + 16 + n) := by
    unfold HeaderIn heap_start_addr heap_size at *
    omega
  rw [rep.head]
  simp only [allocate_from_head, inside_bind, flat_next, flat_size, flat_setNext, flat_setSize, inside_pure, and_true, place,
    inside_next headOk, inside_size headOk, inside_setNext headOk, inside_setSize headOk, inside_setNext newOk, inside_setSize newOk]

/-- A request that fits accesses only the mapped heap. -/
theorem inside_kmalloc (rep : Represents h L) (room : 16 ≤ L.head.size) (fits : L.Fits 32 n) {fuel : ℕ} {r : ℕ × Heap}
    (ran : Kmalloc.kmalloc fuel n h = some r) : (kmalloc fuel n h.free_list_head).Inside InHeap h.mem := by
  have walked : iterate (fit_step h n) fuel h.free_list_head =
      some ((Layout.fit n L.free).map fun found => lastFrom L.head.addr (found.1.map Blk.addr)) := by
    simp only [Kmalloc.kmalloc, Kmalloc.allocate_memory, Option.map_eq_some_iff, exists_exists_and_eq_and] at ran
    obtain ⟨found, walks, -⟩ := ran
    have same := Returns.unique ⟨fuel, walks⟩ ⟨_, rep.walk_list n (Nat.lt_succ_self _)⟩
    rw [walks, same]
  have headers : ∀ addr ∈ L.head.addr :: L.free.map Blk.addr, HeaderIn addr := by
    intro addr member
    rw [← List.map_cons] at member
    obtain ⟨c, inList, rfl⟩ := List.mem_map.mp member
    refine header_inside rep room ?_
    rcases List.mem_cons.mp inList with rfl | free
    · exact List.mem_cons_self
    · exact Layout.free_mem free
  have chain := rep.chain
  simp only [kmalloc, allocate_memory, inside_bind, flat_fit_loop, walked]
  refine ⟨⟨rep.head ▸ inside_fit_loop chain headers fuel, ?_⟩, ?_⟩
  · cases found : Layout.fit n L.free with
    | none =>
      have inside := inside_allocate_from_head rep (fits (Layout.fit_none.mp found))
      simp only [Option.map_none, inside_bind]
      exact ⟨inside, trivial⟩
    | some parts =>
      obtain ⟨front, b, back⟩ := parts
      obtain ⟨free, large, _⟩ := Layout.fit_some found
      simp only [Option.map_some, inside_bind]
      exact ⟨inside_allocate_from_list rep room free large, trivial⟩
  · split <;> trivial

theorem inside_kfree (rep : Represents h L) (room : 16 ≤ L.head.size) (live : b ∈ L.live) :
    (kfree b.payload h.free_list_head).Inside InHeap h.mem := by
  have headOk : HeaderIn L.head.addr := header_inside rep room List.mem_cons_self
  have bOk : HeaderIn b.addr := header_inside rep room (Layout.live_mem live)
  rw [rep.head]
  simp only [kfree, (rep.node_size live).1, inside_bind, flat_next, flat_setNext, inside_next headOk, inside_setNext bOk,
    inside_setNext headOk, and_true]

theorem inHeap_low {a : ℕ} (inside : InHeap a) : a < 2 ^ 64 := by
  unfold InHeap heap_start_addr heap_size at inside
  omega

theorem inside_kmemcpy (m : Bytes.Memory) {dest src : ℕ} (target : ∀ i < n, InHeap (dest + i))
    (source : ∀ i < n, InHeap (src + i)) : (kmemcpy dest src n).Inside InHeap m := by
  induction n with
  | zero => trivial
  | succ n ih =>
    have first := target n (by omega)
    have second := source n (by omega)
    have before := ih (fun i less => target i (by omega)) fun i less => source i (by omega)
    have place : wrap ((dest : ℤ) + n) = dest + n := wrap_eq (by push_cast; rfl) (inHeap_low first)
    have place' : wrap ((src : ℤ) + n) = src + n := wrap_eq (by push_cast; rfl) (inHeap_low second)
    simp only [kmemcpy, inside_bind, place, place']
    exact ⟨before, second, first, trivial⟩

/-- The payload of a live block lies in the mapped heap. -/
theorem payload_inside (rep : Represents h L) (room : 16 ≤ L.head.size) (live : b ∈ L.live) :
    ∀ i < b.size, InHeap (b.payload + i) := by
  intro i less
  obtain ⟨low, _⟩ := header_inside rep room (Layout.live_mem live)
  have ends := block_inside rep room live
  unfold InHeap
  unfold Blk.payload at *
  omega

theorem inside_krealloc (rep : Represents h L) (room : 16 ≤ L.head.size) (live : b ∈ L.live)
    (fits : b.size < n → L.Fits 32 n) {fuel : ℕ} {r : ℕ × Heap} (ran : Kmalloc.krealloc fuel b.payload n h = some r) :
    (krealloc fuel b.payload n h.free_list_head).Inside InHeap h.mem := by
  have bOk : HeaderIn b.addr := header_inside rep room (Layout.live_mem live)
  obtain ⟨node, size⟩ := rep.node_size live
  simp only [krealloc, inside_bind, flat_size, node, size, inside_ite]
  refine ⟨inside_size bOk h.mem, ?_⟩
  by_cases large : b.size ≥ n
  · rw [if_pos large]
    trivial
  · rw [if_neg large]
    have small : b.size < n := by omega
    have fits := fits small
    have room' : 32 ≤ (L.malloc n).2.head.size + 16 := malloc_room fits (by omega)
    obtain ⟨h', u, after, _, same, runs⟩ := rep.krealloc_moves live small (Fits.weaker fits (by omega))
    obtain ⟨gLive, gSize, order⟩ := Layout.malloc_live n L
    have bLive : b ∈ (L.malloc n).2.live := by
      rw [order]
      exact List.mem_cons_of_mem _ live
    have bSize := (after.node_size bLive).2
    have gIn : (L.malloc n).1 ∈ (L.malloc n).2.blocks := Layout.live_mem gLive
    have copied := after.copy gIn (n := b.size) (by omega) b.payload
    -- The call on these steps gives what it gives on enough of them.
    simp only [Kmalloc.krealloc, node, size, if_neg large, Option.map_eq_some_iff] at ran
    obtain ⟨r', first, -⟩ := ran
    have more := (runs (max fuel (L.free.length + 1)) (by omega)).1
    obtain rfl := Option.some.inj (more.symm.trans (kmalloc_mono (le_max_left _ _) first))
    have source := payload_inside after (by omega) bLive
    have target : ∀ i < b.size, InHeap ((L.malloc n).1.payload + i) := fun i less =>
      payload_inside after (by omega) gLive i (by omega)
    have freed := inside_kfree copied (by omega) bLive
    refine ⟨inside_kmalloc rep room fits first, ?_⟩
    simp only [flat_kmalloc, first, Option.map_some, Option.getD_some, inside_bind, flat_size, bSize, flat_kmemcpy, inside_pure,
      and_true]
    exact ⟨inside_size bOk _, inside_kmemcpy _ target source, freed⟩

end
/-! ### Runs through the page tables -/

/-- A machine that runs the heap functions, with the head and the addresses given out. -/
structure Paged (A : Type) where
  machine : Machine A
  head : ℕ
  live : List ℕ

section
variable {A : Type} {alloc : A → ℤ × ℕ × A}

/-- A call, unless an access faults or the steps do not suffice. -/
def perform (fuel : ℕ) (p : Paged A) : Call → Option (Paged A)
  | .kmalloc n =>
    match bytes.execute (kmalloc fuel n p.head) p.machine with
    | .ok (some (addr, head)) machine => some ⟨machine, head, addr :: p.live⟩
    | _ => none
  | .krealloc old n =>
    match bytes.execute (krealloc fuel old n p.head) p.machine with
    | .ok (some (addr, head)) machine => some ⟨machine, head, addr :: p.live.erase old⟩
    | _ => none
  | .kfree addr =>
    match bytes.execute (kfree addr p.head) p.machine with
    | .ok () machine => some ⟨machine, p.head, p.live.erase addr⟩
    | _ => none

/-- The machine shows the heap on its pages, and since `u` only these have changed. -/
structure Simulates (alloc : A → ℤ × ℕ × A) (fs frames : List ℕ) (u : Machine A) (p : Paged A) (s : State) : Prop where
  kept : Kept alloc fs frames u p.machine
  head : p.head = s.heap.free_list_head
  live : p.live = s.live
  memory : ∀ a, InHeap a → view p.machine a = s.heap.mem a

variable {fs frames : List ℕ} {u : Machine A} {p : Paged A} {s s' : State}

/-- A program of the heap runs on the machine as on the flat memory. -/
theorem Simulates.program {α : Type} (sim : Simulates alloc fs frames u p s) (program : Program α) {out : α} {mem : Bytes.Memory}
    (flat : program.flat s.heap.mem = (out, mem)) (inside : program.Inside InHeap s.heap.mem) :
    ∃ v, bytes.execute program p.machine = .ok out v ∧ Kept alloc fs frames u v ∧ ∀ a, InHeap a → view v a = mem a := by
  obtain ⟨v, ran, kept, after⟩ := (heap_shows alloc fs frames u).runs program sim.kept sim.memory inside
  rw [flat] at ran after
  exact ⟨v, ran, kept, after⟩

theorem Simulates.step {L : Layout} {c : Call} {fuel : ℕ} (sim : Simulates alloc fs frames u p s) (holds : Holds 32 s L)
    (formed : WellFormed 32 s c) (ran : call fuel s c = some s') :
    ∃ p', perform fuel p c = some p' ∧ Simulates alloc fs frames u p' s' := by
  have rep := holds.represents
  have room : 16 ≤ L.head.size := by
    have := holds.room
    omega
  cases c with
  | kmalloc n =>
    have fits := holds.fits (n := n) formed rfl
    obtain ⟨⟨addr, h'⟩, first, rfl⟩ := Option.map_eq_some_iff.mp ran
    have flat := flat_kmalloc (h := s.heap) fuel n
    rw [first] at flat
    obtain ⟨v, runs, kept, memory⟩ := sim.program _ flat (inside_kmalloc rep room fits first)
    refine ⟨⟨v, h'.free_list_head, addr :: p.live⟩, ?_, kept, rfl, congrArg (addr :: ·) sim.live, memory⟩
    simp only [perform, sim.head, runs, Option.map_some]
  | krealloc old n =>
    obtain ⟨b, live, rfl⟩ := holds.block (formed.live old rfl)
    obtain ⟨node, size⟩ := rep.node_size live
    have asked : b.size < n → L.Fits 32 n := by
      intro small
      exact holds.fits formed (by simp [Call.requests, node, size, Nat.not_le.mpr small])
    obtain ⟨⟨addr, h'⟩, first, rfl⟩ := Option.map_eq_some_iff.mp ran
    have flat := flat_krealloc (h := s.heap) fuel b.payload n
    rw [first] at flat
    obtain ⟨v, runs, kept, memory⟩ := sim.program _ flat (inside_krealloc rep room live asked first)
    refine ⟨⟨v, h'.free_list_head, addr :: p.live.erase b.payload⟩, ?_, kept, rfl, ?_, memory⟩
    · simp only [perform, sim.head, runs, Option.map_some]
    · simp only [sim.live]
  | kfree addr =>
    obtain ⟨b, live, rfl⟩ := holds.block (formed.live addr rfl)
    obtain rfl := Option.some.inj ran
    obtain ⟨v, runs, kept, memory⟩ := sim.program _ (flat_kfree (h := s.heap) b.payload) (inside_kfree rep room live)
    refine ⟨⟨v, p.head, p.live.erase b.payload⟩, ?_, kept, sim.head, ?_, memory⟩
    · simp only [perform, sim.head, runs]
    · simp only [sim.live]

/-- Calls that release live blocks and leave the margin of the head, on a number of steps. -/
inductive Session (fuel : ℕ) : State → List Call → State → Prop
  | nil (s : State) : Session fuel s [] s
  | cons {s s₁ s' : State} {c : Call} {cs : List Call} (formed : WellFormed 32 s c) (ran : call fuel s c = some s₁)
      (rest : Session fuel s₁ cs s') : Session fuel s (c :: cs) s'

theorem Simulates.session {L : Layout} {cs : List Call} {fuel : ℕ} (sim : Simulates alloc fs frames u p s)
    (holds : Holds 32 s L) (session : Session fuel s cs s') :
    ∃ p', cs.foldlM (perform fuel) p = some p' ∧ Simulates alloc fs frames u p' s' := by
  induction session generalizing p L with
  | nil s => exact ⟨p, rfl, sim⟩
  | cons formed ran rest ih =>
    obtain ⟨p₁, first, sim₁⟩ := sim.step holds formed ran
    obtain ⟨_, L', _, holds₁, _⟩ := holds.step (by decide) formed ran
    obtain ⟨p', more, sim'⟩ := ih sim₁ holds₁
    exact ⟨p', by rw [List.foldlM_cons, first]; exact more, sim'⟩

/-- The bytes that `init_heap` writes are there already. -/
theorem init_heap_rewrites {mem : Bytes.Memory} (first : Bytes.read mem heap_start_addr 8 = NULL)
    (second : Bytes.read mem (heap_start_addr + 8) 8 = heap_size) : (Kmalloc.init_heap mem).mem = mem := by
  have stored : (Kmalloc.init_heap mem).mem =
      Bytes.write (Bytes.write mem heap_start_addr 8 NULL) (heap_start_addr + 8) 8 heap_size := rfl
  rw [stored]
  nth_rewrite 1 [← first]
  rw [Bytes.write_read, ← second, Bytes.write_read]

/-- From the header of one free block on, every session of heap calls runs through the page tables, and
    changes only the frames of the heap. -/
theorem session_runs (mapped : HeapMapped alloc fs frames u) (first : Bytes.read (view u) heap_start_addr 8 = NULL)
    (second : Bytes.read (view u) (heap_start_addr + 8) 8 = heap_size) {fuel : ℕ} {cs : List Call}
    (session : Session fuel ⟨Kmalloc.init_heap (view u), []⟩ cs s') :
    ∃ p, cs.foldlM (perform fuel) ⟨u, heap_start_addr, []⟩ = some p ∧ Simulates alloc fs frames u p s' := by
  have sim : Simulates alloc fs frames u ⟨u, heap_start_addr, []⟩ ⟨Kmalloc.init_heap (view u), []⟩ := by
    refine ⟨.refl mapped, rfl, rfl, fun a _ => ?_⟩
    rw [init_heap_rewrites first second]
  have start : Run 32 ⟨Kmalloc.init_heap (view u), []⟩ := .init _
  obtain ⟨L, holds⟩ := start.holds (by decide) (by decide)
  exact sim.session holds session

/-- After `init_heap`, every session of heap calls runs through the page tables, without a fault and without
    a change to the walk of any page, as it does on a flat memory with the bytes of the heap. -/
theorem paged_heap_runs {s : Machine A} {steps : ℕ} (good : Good alloc s.root fs s)
    (linking : Access.Linking s.mem s.root) (enough : 100 ≤ fs.length) (many : 25 < steps) :
    ∃ u, HeapPages.init_heap alloc steps s = .ok () u ∧ ∀ fuel cs s',
      Session fuel ⟨Kmalloc.init_heap (view u), []⟩ cs s' →
        ∃ p, cs.foldlM (perform fuel) ⟨u, heap_start_addr, []⟩ = some p ∧ p.head = s'.heap.free_list_head ∧ p.live = s'.live ∧
          (∀ a, InHeap a → view p.machine a = s'.heap.mem a) ∧ p.machine.root = s.root ∧
            ∀ q, Usable q → hardware p.machine q = hardware u q := by
  obtain ⟨u, gs, frames, ran, set⟩ := init_heap_sets good linking enough many
  refine ⟨u, ran, fun fuel cs s' session => ?_⟩
  obtain ⟨p, ran', sim⟩ := session_runs set.heap set.next set.size session
  exact ⟨p, ran', sim.head, sim.live, sim.memory, sim.kept.root.trans set.root, sim.kept.walks⟩

/-- A session begins with a call of a layout. -/
theorem session_of_moves {P : State → Prop} {L L' : Layout} {c : Call} {cs : List Call} {out : Option Blk} {fuel : ℕ}
    (holds : Holds 32 s L) (moves : Moves L c out L') (fits : ∀ n, c.requests s = some n → L.Fits 32 n)
    (enough : L.free.length < fuel) (rest : ∀ s₁, Holds 32 s₁ L' → ∃ s', Session fuel s₁ cs s' ∧ P s') :
    ∃ s', Session fuel s (c :: cs) s' ∧ P s' := by
  obtain ⟨s₁, ran, holds₁, -⟩ := holds.serves (by decide) moves fits enough
  obtain ⟨s', session, last⟩ := rest s₁ holds₁
  exact ⟨s', .cons (holds.formed moves fits) ran session, last⟩

/-- A block of 17 bytes is reallocated to 100 bytes, which moves it, and freed. -/
def three_calls : List Call := [.kmalloc 17, .krealloc (heap_start_addr + 16) 100, .kfree (heap_start_addr + 49)]

theorem session_three_calls (mem : Bytes.Memory) : ∃ s', Session 2 ⟨Kmalloc.init_heap mem, []⟩ three_calls s' ∧ s'.live = [] := by
  have start : Holds 32 ⟨Kmalloc.init_heap mem, []⟩ initial := ⟨represents_init mem, .refl _, by decide⟩
  refine session_of_moves start (.kmalloc 17) ?_ (by decide) fun s₁ holds₁ => ?_
  · intro n asked
    cases asked
    exact fun _ => by decide
  refine session_of_moves holds₁ (.moves (b := ⟨heap_start_addr, 17⟩) (by decide) (by decide)) ?_ (by decide) fun s₂ holds₂ => ?_
  · intro n asked
    rw [Call.requests] at asked
    split at asked
    · cases asked
    · cases asked
      exact fun _ => by decide
  refine session_of_moves holds₂ (.kfree (b := ⟨heap_start_addr + 33, 100⟩) (by decide)) ?_ (by decide) fun s₃ holds₃ => ?_
  · intro n asked
    cases asked
  exact ⟨s₃, .nil s₃, List.nil_perm.mp holds₃.live⟩

theorem paged_heap_runs_empty_space :
    ∃ u p, HeapPages.init_heap from_list 26 (empty_space (List.range' 2 120)) = .ok () u ∧
      three_calls.foldlM (perform 2) ⟨u, heap_start_addr, []⟩ = some p ∧ p.live = [] := by
  have steps : 25 < 26 := by decide
  obtain ⟨u, ran, runs⟩ := paged_heap_runs empty_space_supply (Access.bare_linking (empty_space_bare _)) (by decide) steps
  obtain ⟨s', session, live⟩ := session_three_calls (view u)
  obtain ⟨p, ran', -, live', -⟩ := runs 2 _ s' session
  exact ⟨u, p, ran, ran', live'.trans live⟩

end
end OsC.PagedHeap
