import OsC.HeapRuns

/-!
The bytes of the blocks. The allocator stores its data between the blocks, and
the owner of a block writes into the block at any time. A byte of a live block
is changed only by its owner, no owner changes a header, and a block keeps its
bytes when `krealloc` moves it (`contents_run`).
-/
namespace OsC.Contents
open OsC.Bytes OsC.Word OsC.Links OsC.Blocks OsC.Kmalloc OsC.HeapRefine OsC.HeapRuns

/-! ### The heap functions change only the header fields that they record -/

structure Records (h h' : Heap) (new : List Event) : Prop where
  trace : h'.trace = new ++ h.trace
  outside : ∀ x, (∀ a, .header a ∈ new → x < a ∨ a + 8 ≤ x) → h'.mem x = h.mem x

section
variable {h h' u : Heap} {new more : List Event}

theorem Records.trans (first : Records h h' new) (second : Records h' u more) : Records h u (more ++ new) where
  trace := by rw [second.trace, first.trace, List.append_assoc]
  outside := by
    intro x apart
    rw [second.outside x fun a member => apart a (List.mem_append_left _ member),
      first.outside x fun a member => apart a (List.mem_append_right _ member)]

/-- What is recorded is read off the traces. -/
theorem Records.of_trace (records : Records h h' more) (trace : h'.trace = new ++ h.trace) : Records h h' new := by
  obtain rfl := List.append_cancel_right (records.trace.symm.trans trace)
  exact records

def Recorded (h h' : Heap) : Prop := ∃ new, Records h h' new

theorem Recorded.refl (h : Heap) : Recorded h h := ⟨[], rfl, fun _ _ => rfl⟩

theorem Recorded.setNext (recorded : Recorded h u) (a v : ℕ) : Recorded h (u.setNext a v) := by
  obtain ⟨new, records⟩ := recorded
  have stored : Records u (u.setNext a v) [.header a] :=
    ⟨rfl, fun x apart => write_outside u.mem 8 a v (apart a (by simp))⟩
  exact ⟨_, records.trans stored⟩

theorem Recorded.setSize (recorded : Recorded h u) (a v : ℕ) : Recorded h (u.setSize a v) := by
  obtain ⟨new, records⟩ := recorded
  have stored : Records u (u.setSize a v) [.header (a + 8)] :=
    ⟨rfl, fun x apart => write_outside u.mem 8 (a + 8) v (apart (a + 8) (by simp))⟩
  exact ⟨_, records.trans stored⟩

theorem Recorded.compute (recorded : Recorded h u) (e : ℤ) : Recorded h (u.compute e) := by
  obtain ⟨new, records⟩ := recorded
  have noted : Records u (u.compute e) [.computed e] := ⟨rfl, fun _ _ => rfl⟩
  exact ⟨_, records.trans noted⟩

theorem recorded_allocate_from_list (h : Heap) (n node : ℕ) : Recorded h (allocate_from_list h n node).2 := by
  have start := (Recorded.refl h).compute ((h.size (h.next node) : ℤ) - n)
  by_cases small : wrap ((h.size (h.next node) : ℤ) - n) < minimum_alloc_size
  · simp only [allocate_from_list, small, if_true, ne_eq, not_true_eq_false, if_false]
    exact ((start.setNext _ _).setSize _ _).setNext _ _
  · have positive : wrap ((h.size (h.next node) : ℤ) - n) ≠ 0 := by
      intro zero
      exact small (by rw [zero]; decide)
    simp only [allocate_from_list, small, if_false, ne_eq, positive, not_false_eq_true, if_true]
    exact ((((((start.compute _).compute _).setSize _ _).setNext _ _).setNext _ _).setSize _ _).setNext _ _

theorem recorded_allocate_from_head (h : Heap) (n : ℕ) : Recorded h (allocate_from_head h n).2 := by
  obtain ⟨u, isU, recorded⟩ : ∃ u : Heap, (allocate_from_head h n).2 = { u with free_list_head := _ } ∧ Recorded h u :=
    ⟨_, rfl, (((((((Recorded.refl h).compute _).compute _).setSize _ _).setNext _ _).setNext _ _).setSize _ _)⟩
  obtain ⟨new, records⟩ := recorded
  rw [isU]
  exact ⟨new, records.trace, records.outside⟩

theorem recorded_kmalloc {fuel n addr : ℕ} (ran : kmalloc fuel n h = some (addr, h')) : Recorded h h' := by
  simp only [kmalloc, allocate_memory, Option.map_eq_some_iff, exists_exists_and_eq_and] at ran
  obtain ⟨found, _, result⟩ := ran
  obtain ⟨_, rfl⟩ := Prod.mk.inj result
  cases found with
  | none => exact recorded_allocate_from_head h n
  | some node => exact recorded_allocate_from_list h n node

theorem records_kfree (h : Heap) (addr : ℕ) :
    Records h (kfree addr h) [.header h.free_list_head, .header (get_free_node_from_addr addr)] := by
  obtain ⟨new, records⟩ := ((Recorded.refl h).setNext (get_free_node_from_addr addr) (h.next h.free_list_head)).setNext
    h.free_list_head (get_free_node_from_addr addr)
  exact Records.of_trace records rfl

end

/-! ### Payloads keep -/

/-- The addresses of the bytes of a block. -/
def InPayload (b : Blk) (x : ℕ) : Prop := b.payload ≤ x ∧ x < b.payload + b.size

section
variable {h h' : Heap} {L : Layout} {b c : Blk} {n x fuel addr : ℕ} {new : List Event}

theorem Records.payload {u : Heap} (records : Records h h' new) (rep : Represents u L) (headers : HeadersIn L new)
    (member : c ∈ L.blocks) (inside : InPayload c x) : h'.mem x = h.mem x := by
  refine records.outside x fun a recorded => ?_
  obtain ⟨d, dIn, place⟩ := headers a recorded
  unfold InPayload Blk.payload at inside
  by_cases same : c = d
  · subst same; omega
  · have := rep.apart member dIn same
    omega

theorem kmalloc_payload (rep : Represents h L) (fits : L.Fits 16 n) (ran : kmalloc fuel n h = some (addr, h'))
    (member : c ∈ (L.malloc n).2.blocks) (inside : InPayload c x) : h'.mem x = h.mem x := by
  obtain ⟨u, new, all, after, trace, headers, _⟩ := rep.kmalloc fits
  have more := kmalloc_mono (le_max_left fuel (L.free.length + 1)) ran
  rw [all _ (by omega)] at more
  obtain ⟨-, rfl⟩ := Prod.mk.inj (Option.some.inj more)
  obtain ⟨_, records⟩ := recorded_kmalloc ran
  exact (records.of_trace trace).payload after headers member inside

theorem kfree_payload (rep : Represents h L) (live : b ∈ L.live) (member : c ∈ L.blocks) (inside : InPayload c x) :
    (kfree b.payload h).mem x = h.mem x := by
  refine (records_kfree h b.payload).payload rep ?_ member inside
  intro a recorded
  simp only [List.mem_cons, Event.header.injEq, List.not_mem_nil, or_false] at recorded
  rcases recorded with rfl | rfl
  · exact ⟨L.head, List.mem_cons_self, .inl rep.head⟩
  · exact ⟨b, Layout.live_mem live, .inl (rep.node_size live).1⟩

/-- Blocks with one payload address are the same block. -/
theorem eq_of_payload (rep : Represents h L) (first : b ∈ L.blocks) (second : c ∈ L.blocks)
    (same : b.payload = c.payload) : b = c := by
  by_contra different
  have := rep.apart first second different
  unfold Blk.payload at same
  omega

theorem malloc_keeps (live : b ∈ L.live) : b ∈ (L.malloc n).2.live := by
  rw [(Layout.malloc_live n L).2.2]
  exact List.mem_cons_of_mem _ live

theorem malloc_new (rep : Represents h' (L.malloc n).2) (live : b ∈ L.live) : b.payload ≠ (L.malloc n).1.payload := by
  have order := (Layout.malloc_live n L).2.2
  have distinct : ((L.malloc n).2.live.map Blk.addr).Nodup := by
    have all := rep.addrs_nodup
    simp only [Layout.blocks, List.map_cons, List.map_append, List.nodup_cons, List.nodup_append] at all
    exact all.2.2.1
  rw [order, List.map_cons, List.nodup_cons] at distinct
  intro same
  have addrs : b.addr = (L.malloc n).1.addr := Nat.add_right_cancel same
  exact distinct.1 (addrs ▸ List.mem_map_of_mem live)

/-- A block that `krealloc` moves: the new block begins with the bytes of the
    old one, and the other live blocks keep theirs. -/
theorem krealloc_payload (rep : Represents h L) (live : b ∈ L.live) (small : b.size < n) (fits : L.Fits 16 n)
    (ran : krealloc fuel b.payload n h = some (addr, h')) :
    addr = (L.malloc n).1.payload ∧ (∀ i < b.size, h'.mem (addr + i) = h.mem (b.payload + i)) ∧
      ∀ c ∈ L.live, c ≠ b → ∀ x, InPayload c x → h'.mem x = h.mem x := by
  obtain ⟨u, _, after, _, rfl, all⟩ := rep.krealloc_moves live small fits
  have more := krealloc_mono (le_max_left fuel (L.free.length + 1)) ran
  obtain ⟨taken, moved⟩ := all _ (show L.free.length < max fuel (L.free.length + 1) by omega)
  rw [moved] at more
  obtain ⟨rfl, rfl⟩ := Prod.mk.inj (Option.some.inj more)
  obtain ⟨g, isG⟩ : ∃ g, g = (L.malloc n).1 := ⟨_, rfl⟩
  obtain ⟨gLive, enough, _⟩ := Layout.malloc_live n L
  rw [← isG] at gLive enough ⊢
  have gIn := Layout.live_mem gLive
  have bIn := Layout.live_mem (malloc_keeps (n := n) live)
  have apart : ∀ c ∈ L.live, c.addr + 16 + c.size ≤ g.addr ∨ g.addr + 16 + g.size ≤ c.addr := by
    intro c cLive
    refine after.apart (Layout.live_mem (malloc_keeps cLive)) gIn fun same => ?_
    exact malloc_new after cLive (by rw [same, isG])
  have apartB := apart b live
  have boundsB := after.bounds bIn
  have boundsG := after.bounds gIn
  have copied := after.copy gIn (n := b.size) (by omega) b.payload
  refine ⟨rfl, fun i less => ?_, fun c cLive _ x inside => ?_⟩
  · have place : InPayload g (g.payload + i) := ⟨Nat.le_add_right _ _, by omega⟩
    have source : InPayload b (b.payload + i) := ⟨Nat.le_add_right _ _, by omega⟩
    rw [kfree_payload copied (malloc_keeps live) gIn place]
    show kmemcpy u.mem g.payload b.payload b.size (g.payload + i) = _
    rw [kmemcpy_copies u.mem (by unfold Blk.payload; omega) (by unfold Blk.payload; omega)
      (by unfold Blk.payload; omega) less]
    exact kmalloc_payload rep fits taken bIn source
  · have apartC := apart c cLive
    have cIn := Layout.live_mem (malloc_keeps (n := n) cLive)
    rw [kfree_payload copied (malloc_keeps live) cIn inside]
    show kmemcpy u.mem g.payload b.payload b.size x = _
    unfold InPayload at inside
    rw [kmemcpy_outside u.mem (by unfold Blk.payload; omega) (by unfold Blk.payload at inside ⊢; omega)]
    exact kmalloc_payload rep fits taken cIn inside

end

/-! ### Calls and writes of the owners -/

/-- A state and the bytes that the owner of each live address asked for. -/
structure Owned where
  state : State
  requested : ℕ → ℕ

inductive Step
  | call (c : Call)
  /-- The owner of a block writes one of its bytes. -/
  | write (addr offset : ℕ) (value : UInt8)
  deriving DecidableEq, Repr

/-- What the owners asked for after a call; the address that it returned is the first live one. -/
def ask (s : State) (requested : ℕ → ℕ) : Call → ℕ → ℕ
  | .kmalloc bytes => Function.update requested (s.live.headD 0) bytes
  | .krealloc _ bytes => Function.update requested (s.live.headD 0) bytes
  | .kfree _ => requested

def perform (fuel : ℕ) (s : Owned) : Step → Option Owned
  | .call c => (call fuel s.state c).map fun t => ⟨t, ask t s.requested c⟩
  | .write addr offset value => some { s with state.heap.mem := set s.state.heap.mem (addr + offset) value }

/-- Calls are well formed, and an owner writes inside the bytes that it asked for. -/
def Formed (s : Owned) : Step → Prop
  | .call c => WellFormed 16 s.state c
  | .write addr offset _ => addr ∈ s.state.live ∧ offset < s.requested addr

/-- The address that a step frees, reallocates or writes to. -/
def Step.touches : Step → Option ℕ
  | .call c => c.releases
  | .write addr _ _ => some addr

inductive Steps : Owned → List Step → Owned → Prop
  | nil (s : Owned) : Steps s [] s
  | cons {s u t : Owned} {st : Step} {rest : List Step} (fuel : ℕ) (formed : Formed s st)
      (ran : perform fuel s st = some u) (more : Steps u rest t) : Steps s (st :: rest) t

/-- The state after `init_heap`. -/
def start (mem : Memory) : Owned := ⟨⟨init_heap mem, []⟩, fun _ => 0⟩

/-- A layout of a state in which each block is as large as its owner asked for. -/
structure Keeps (s : Owned) (L : Layout) : Prop where
  holds : Holds 16 s.state L
  asked : ∀ b ∈ L.live, s.requested b.payload ≤ b.size

theorem keeps_start (mem : Memory) : Keeps (start mem) initial where
  holds := ⟨represents_init mem, List.Perm.refl _, by decide⟩
  asked := by simp [initial]

section
variable {s u t : Owned} {L : Layout} {st : Step} {rest : List Step}

/-- The live blocks that a step leaves alone. -/
def Spared (st : Step) (b : Blk) : Prop := st.touches ≠ some b.payload

theorem asked_update {requested : ℕ → ℕ} {g : Blk} {n : ℕ} {blocks : List Blk} (enough : n ≤ g.size)
    (unique : ∀ b ∈ blocks, b.payload = g.payload → b = g)
    (asked : ∀ b ∈ blocks, b ≠ g → requested b.payload ≤ b.size) :
    ∀ b ∈ blocks, Function.update requested g.payload n b.payload ≤ b.size := by
  intro b member
  by_cases same : b.payload = g.payload
  · rw [same, Function.update_self, unique b member same]
    exact enough
  · rw [Function.update_of_ne same]
    exact asked b member fun equal => same (by rw [equal])

/-- A call keeps the payloads of the blocks that it does not release. -/
theorem Keeps.call {c : Call} {fuel : ℕ} (keeps : Keeps s L) (formed : WellFormed 16 s.state c)
    (ran : perform fuel s (.call c) = some u) :
    ∃ L', Keeps u L' ∧ ∀ b ∈ L.live, Spared (.call c) b →
      b ∈ L'.live ∧ ∀ x, InPayload b x → u.state.heap.mem x = s.state.heap.mem x := by
  obtain ⟨holds, asked⟩ := keeps
  have rep := holds.represents
  obtain ⟨t, called, rfl⟩ := Option.map_eq_some_iff.mp ran
  obtain ⟨out, L', moves, after, returned⟩ := holds.step (le_refl 16) formed called
  have first : ∀ g, out = some g → t.live.headD 0 = g.payload := by
    intro g same
    rw [List.headD_eq_head?_getD, returned g same]
    rfl
  cases moves with
  | kmalloc n =>
    obtain ⟨r, allocated, rfl⟩ := Option.map_eq_some_iff.mp called
    obtain ⟨gLive, enough, order⟩ := Layout.malloc_live n L
    refine ⟨_, ⟨after, ?_⟩, fun b live _ => ⟨malloc_keeps live, fun x inside => ?_⟩⟩
    · simp only [ask, first _ rfl]
      refine asked_update enough (fun b live => eq_of_payload after.represents (Layout.live_mem live) (Layout.live_mem gLive)) ?_
      intro b live other
      rw [order, List.mem_cons] at live
      exact asked b (live.resolve_left other)
    · exact kmalloc_payload rep (holds.fits formed rfl) allocated (Layout.live_mem (malloc_keeps live)) inside
  | @stays b n live large =>
    obtain ⟨node, size⟩ := rep.node_size live
    have unmoved : krealloc fuel b.payload n s.state.heap = some (b.payload, s.state.heap) := by
      simp [krealloc, node, size, large]
    obtain ⟨r, allocated, rfl⟩ := Option.map_eq_some_iff.mp called
    obtain rfl := Option.some.inj (unmoved.symm.trans allocated)
    refine ⟨L, ⟨after, ?_⟩, fun c cLive _ => ⟨cLive, fun _ _ => rfl⟩⟩
    simp only [ask, first _ rfl]
    exact asked_update large (fun c cLive => eq_of_payload rep (Layout.live_mem cLive) (Layout.live_mem live))
      fun c cLive _ => asked c cLive
  | @moves b n live small =>
    obtain ⟨node, size⟩ := rep.node_size live
    have fits := holds.fits formed (n := n) (by simp [Call.requests, node, size, Nat.not_le.mpr small])
    obtain ⟨r, allocated, rfl⟩ := Option.map_eq_some_iff.mp called
    obtain ⟨_, _, others⟩ := krealloc_payload rep live small fits allocated
    obtain ⟨gLive, enough, order⟩ := Layout.malloc_live n L
    have gIn : (L.malloc n).1 ∈ ((L.malloc n).2.release b).blocks :=
      (Layout.release_perm (malloc_keeps live)).mem_iff.mpr (Layout.live_mem gLive)
    refine ⟨_, ⟨after, ?_⟩, fun c cLive spared => ?_⟩
    · simp only [ask, first _ rfl]
      refine asked_update enough (fun c cLive => eq_of_payload after.represents (Layout.live_mem cLive) gIn) ?_
      intro c cLive other
      have old := List.mem_of_mem_erase cLive
      rw [order, List.mem_cons] at old
      exact asked c (old.resolve_left other)
    · have other : c ≠ b := by
        rintro rfl
        exact spared rfl
      exact ⟨(List.mem_erase_of_ne other).mpr (malloc_keeps cLive), others c cLive other⟩
  | @kfree b live =>
    obtain rfl := Option.some.inj called
    refine ⟨_, ⟨after, fun c cLive => asked c (List.mem_of_mem_erase cLive)⟩, fun c cLive spared => ?_⟩
    have other : c ≠ b := by
      rintro rfl
      exact spared rfl
    exact ⟨(List.mem_erase_of_ne other).mpr cLive, fun x inside => kfree_payload rep live (Layout.live_mem cLive) inside⟩

/-- An owner's write leaves the headers and the other payloads alone. -/
theorem Keeps.write {addr offset : ℕ} (value : UInt8) (keeps : Keeps s L) (live : addr ∈ s.state.live)
    (less : offset < s.requested addr) :
    (∀ b ∈ L.blocks, ∀ x, b.addr ≤ x → x < b.addr + 16 →
      set s.state.heap.mem (addr + offset) value x = s.state.heap.mem x) ∧
    ∀ b ∈ L.live, addr ≠ b.payload → ∀ x, InPayload b x →
      set s.state.heap.mem (addr + offset) value x = s.state.heap.mem x := by
  have rep := keeps.holds.represents
  obtain ⟨c, cLive, rfl⟩ := keeps.holds.block live
  have inside := keeps.asked c cLive
  have apart : ∀ b ∈ L.blocks, b ≠ c → b.addr + 16 + b.size ≤ c.addr ∨ c.addr + 16 + c.size ≤ b.addr :=
    fun b member => rep.apart member (Layout.live_mem cLive)
  constructor
  · intro b member x low high
    refine set_other _ _ ?_
    unfold Blk.payload
    by_cases same : b = c
    · subst same; omega
    · have := apart b member same
      unfold Blk.payload at less inside
      omega
  · intro b bLive other x place
    refine set_other _ _ ?_
    have := apart b (Layout.live_mem bLive) fun same => other (by rw [same])
    unfold InPayload at place
    unfold Blk.payload at less inside place ⊢
    omega

/-- Every step keeps a layout and the payloads of the blocks that it spares. -/
theorem Keeps.step {fuel : ℕ} (keeps : Keeps s L) (formed : Formed s st) (ran : perform fuel s st = some u) :
    ∃ L', Keeps u L' ∧ ∀ b ∈ L.live, Spared st b →
      b ∈ L'.live ∧ ∀ x, InPayload b x → u.state.heap.mem x = s.state.heap.mem x := by
  cases st with
  | call c => exact keeps.call formed ran
  | write addr offset value =>
    obtain rfl := Option.some.inj ran
    obtain ⟨headers, payloads⟩ := keeps.write value formed.1 formed.2
    have rep : Represents { s.state.heap with mem := set s.state.heap.mem (addr + offset) value } L :=
      keeps.holds.represents.frame rfl headers
    refine ⟨L, ⟨⟨rep, keeps.holds.live, keeps.holds.room⟩, keeps.asked⟩, fun b live spared => ⟨live, ?_⟩⟩
    exact payloads b live fun same => spared (congrArg some same)

theorem Keeps.steps {sts : List Step} (keeps : Keeps s L) (steps : Steps s sts t) :
    ∃ L', Keeps t L' ∧ ∀ b ∈ L.live, (∀ st ∈ sts, Spared st b) →
      b ∈ L'.live ∧ ∀ x, InPayload b x → t.state.heap.mem x = s.state.heap.mem x := by
  induction steps generalizing L with
  | nil s => exact ⟨L, keeps, fun b live _ => ⟨live, fun _ _ => rfl⟩⟩
  | cons fuel formed ran more ih =>
    obtain ⟨L₁, keeps₁, first⟩ := keeps.step formed ran
    obtain ⟨L₂, keeps₂, later⟩ := ih keeps₁
    refine ⟨L₂, keeps₂, fun b live spared => ?_⟩
    obtain ⟨live₁, same₁⟩ := first b live (spared _ List.mem_cons_self)
    obtain ⟨live₂, same₂⟩ := later b live₁ fun st member => spared st (List.mem_cons_of_mem _ member)
    exact ⟨live₂, fun x inside => (same₂ x inside).trans (same₁ x inside)⟩

end

/-! ### Runs -/

/-- The payload bytes that a header records. -/
def recorded (s : Owned) (addr : ℕ) : ℕ := s.state.heap.size (get_free_node_from_addr addr)

/-- The head, the nodes of the list and those of the live addresses are blocks. -/
theorem Keeps.node_block {node : ℕ} (keeps : Keeps s L)
    (member : node ∈ s.state.heap.free_list_head :: (L.free.map Blk.addr ++ s.state.live.map get_free_node_from_addr)) :
    ∃ b ∈ L.blocks, b.addr = node := by
  have rep := keeps.holds.represents
  rcases List.mem_cons.mp member with rfl | member
  · exact ⟨L.head, List.mem_cons_self, rep.head.symm⟩
  rcases List.mem_append.mp member with free | live
  · obtain ⟨b, inFree, rfl⟩ := List.mem_map.mp free
    exact ⟨b, Layout.free_mem inFree, rfl⟩
  · obtain ⟨p, pLive, rfl⟩ := List.mem_map.mp live
    obtain ⟨b, bLive, rfl⟩ := keeps.holds.block pLive
    exact ⟨b, Layout.live_mem bLive, (rep.node_size bLive).1.symm⟩

/-- In every state of a run of calls and owners' writes, a live block keeps its
    payload over any further steps that neither release it nor write to it; an
    owner's write changes no header of the head, the list or a live block; and
    `krealloc` returns a large enough block with the first bytes of the old one. -/
theorem contents_run {mem : Memory} {sts : List Step} {s : Owned} (run : Steps (start mem) sts s) :
    (∀ more t, Steps s more t → ∀ addr ∈ s.state.live, (∀ st ∈ more, st.touches ≠ some addr) →
      addr ∈ t.state.live ∧ recorded t addr = recorded s addr ∧
        ∀ i < recorded s addr, t.state.heap.mem (addr + i) = s.state.heap.mem (addr + i)) ∧
    (∃ nodes, Chain s.state.heap.next s.state.heap.free_list_head nodes ∧
      ∀ addr offset value fuel t, Formed s (.write addr offset value) → perform fuel s (.write addr offset value) = some t →
        ∀ node ∈ s.state.heap.free_list_head :: (nodes ++ s.state.live.map get_free_node_from_addr),
          ∀ x, node ≤ x → x < node + sizeof_free_node → t.state.heap.mem x = s.state.heap.mem x) ∧
    ∀ p n, WellFormed 16 s.state (.krealloc p n) → ∃ addr h, (∃ fuel, krealloc fuel p n s.state.heap = some (addr, h)) ∧
      n ≤ h.size (get_free_node_from_addr addr) ∧
        ∀ i < min (recorded s p) n, h.mem (addr + i) = s.state.heap.mem (p + i) := by
  obtain ⟨L, keeps, _⟩ := (keeps_start mem).steps run
  have rep := keeps.holds.represents
  refine ⟨?_, ⟨L.free.map Blk.addr, ?_, ?_⟩, ?_⟩
  · intro more t steps addr live apart
    obtain ⟨b, bLive, rfl⟩ := keeps.holds.block live
    obtain ⟨L', after, same⟩ := keeps.steps steps
    obtain ⟨live', bytes⟩ := same b bLive apart
    obtain ⟨node, size⟩ := rep.node_size bLive
    obtain ⟨-, size'⟩ := after.holds.represents.node_size live'
    refine ⟨after.holds.live.mem_iff.mp (List.mem_map_of_mem live'), ?_, fun i less => bytes _ ⟨Nat.le_add_right _ _, ?_⟩⟩
    · rw [recorded, recorded, node, size, size']
    · rw [recorded, node, size] at less
      omega
  · rw [rep.head]
    exact rep.chain
  · intro addr offset value fuel t formed ran node member x low high
    obtain rfl := Option.some.inj ran
    obtain ⟨b, bIn, rfl⟩ := keeps.node_block member
    exact (keeps.write _ formed.1 formed.2).1 b bIn x low high
  · intro p n formed
    obtain ⟨b, live, rfl⟩ := keeps.holds.block (formed.live p rfl)
    obtain ⟨node, size⟩ := rep.node_size live
    simp only [recorded, node, size]
    by_cases large : n ≤ b.size
    · refine ⟨b.payload, s.state.heap, ⟨0, by simp [krealloc, node, size, large]⟩, ?_, fun _ _ => rfl⟩
      rw [node, size]
      exact large
    · have small : b.size < n := Nat.not_le.mp large
      have fits := keeps.holds.fits formed (n := n) (by simp [Call.requests, node, size, large])
      obtain ⟨_, u, taken, after, _, all⟩ := rep.krealloc_moves live small fits
      obtain ⟨-, moved⟩ := all _ (Nat.lt_succ_self _)
      obtain ⟨-, copied, -⟩ := krealloc_payload rep live small fits moved
      obtain ⟨gLive, enough, _⟩ := Layout.malloc_live n L
      have other : (L.malloc n).1 ≠ b := fun same => malloc_new taken live (by rw [same])
      obtain ⟨node', size'⟩ := after.node_size ((List.mem_erase_of_ne other).mpr gLive)
      refine ⟨_, u, ⟨_, moved⟩, ?_, fun i less => copied i (by omega)⟩
      rw [node', size']
      exact enough

/-- The heap after one request, then after a second one. -/
theorem contents_run_of_two_blocks :
    ∃ s t, Steps (start fun _ => 0) [.call (.kmalloc 24)] s ∧ Steps s [.call (.kmalloc 5)] t ∧
      1073741840 ∈ t.state.live ∧ recorded t 1073741840 = recorded s 1073741840 ∧
        ∀ i < recorded s 1073741840, t.state.heap.mem (1073741840 + i) = s.state.heap.mem (1073741840 + i) := by
  have first : Formed (start fun _ => 0) (.call (.kmalloc 24)) := by
    refine ⟨fun addr released => (nomatch released), fun bytes asked _ => ?_⟩
    cases asked
    decide
  obtain ⟨s, ran, live, large, ends⟩ : ∃ s, perform 1 (start fun _ => 0) (.call (.kmalloc 24)) = some s ∧
      1073741840 ∈ s.state.live ∧ s.state.heap.size s.state.heap.free_list_head = 102360 ∧
        s.state.heap.next s.state.heap.free_list_head = 0 := by
    refine ⟨_, rfl, ?_, ?_, ?_⟩ <;> decide +kernel
  have run := Steps.cons 1 first ran (.nil s)
  have second : Formed s (.call (.kmalloc 5)) := by
    refine ⟨fun addr released => (nomatch released), fun bytes asked _ => ?_⟩
    cases asked
    rw [large]
    decide
  obtain ⟨t, ran'⟩ : ∃ t, perform 1 s (.call (.kmalloc 5)) = some t :=
    ⟨_, by simp [perform, call, kmalloc, allocate_memory, Loop.iterate, fit_step, ends]; rfl⟩
  have more := Steps.cons 1 second ran' (.nil t)
  refine ⟨s, t, run, more, (contents_run run).1 _ t more 1073741840 live ?_⟩
  simp [Step.touches, Call.releases]

end OsC.Contents
