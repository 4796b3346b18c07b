import OsC.Boot
import OsC.Sections

/-!
The remapping of the kernel from the boot hierarchy. While slot 511 of the old
level 4 table points to the new one, the window that the slot opens shows the new
hierarchy: its tables are written, and the old hierarchy, over which every
access is translated, is not (`remap_kernel_redirects`).
-/
namespace OsC.Redirect
open OsC.Word OsC.Frames OsC.Loop OsC.Entry OsC.Radix OsC.Walk OsC.Multiboot OsC.Paging OsC.Recursive OsC.Tables OsC.PageMap
open OsC.Boot OsC.Remap OsC.Sections

/-! ### Hierarchies that agree -/

/-- The tables below `top` have the same entries, but for slot 511 of `top`. -/
def SameTables (top : ℕ) (mem mem' : Tables) : Prop :=
  ∀ f i, IsTable mem top f → ¬ (f = top ∧ i = 511) → mem' f i = mem f i

section
variable {mem mem' : Tables} {top : ℕ} (same : SameTables top mem mem') (tree : Tree next mem top Ordinary)
include same tree

/-- A path outside the slot does not pass it. -/
theorem SameTables.passed {π ρ : List Index} {j : Index} {u : ℕ} (head : π.head? ≠ some 511) (inside : ρ ++ [j] <+: π)
    (ordinary : Ordinary ρ) (reaches : descend next mem top ρ = some u) : mem' u j = mem u j := by
  refine same u j ⟨ρ, ordinary, reaches⟩ ?_
  rintro ⟨rfl, rfl⟩
  obtain rfl := tree ρ [] u ordinary ordinary_nil reaches rfl
  obtain ⟨σ, rfl⟩ := inside
  exact head rfl

theorem SameTables.descend {π : List Index} (ordinary : Ordinary π) :
    descend next mem' top π = descend next mem top π := by
  refine descend_congr fun ρ i u inside reaches => same.passed tree ordinary.2 inside ?_ reaches
  exact ordinary_closed ρ π ((List.prefix_append ρ [i]).trans inside) ordinary

theorem SameTables.walk {page : ℕ} (outside : Ordinary (upper page)) :
    walk mem' top (path page) = walk mem top (path page) :=
  walk_congr fun _ _ _ inside reaches =>
    same.passed (π := path page) tree outside.2 inside (path_inside outside inside) reaches

theorem SameTables.isTable {f : ℕ} : IsTable mem' top f ↔ IsTable mem top f :=
  exists_congr fun _ => and_congr_right fun ordinary => by rw [same.descend tree ordinary]

theorem SameTables.keeps_tree : Tree next mem' top Ordinary := by
  intro π ρ u left right first second
  rw [same.descend tree left] at first
  rw [same.descend tree right] at second
  exact tree π ρ u left right first second

theorem SameTables.trans {mem'' : Tables} (more : SameTables top mem' mem'') : SameTables top mem mem'' := by
  intro f i table other
  rw [more f i ((same.isTable tree).mpr table) other, same f i table other]

end

section
variable {A : Type} {alloc : A → ℤ × ℕ × A} {s s' : Machine A} {top : ℕ} {fs fs' : List ℕ}

/-- Whatever else the memory holds, a hierarchy with the same tables is in the same shape. -/
theorem Good.same (good : Good alloc top fs s) (same : SameTables top s.mem s'.mem) (root : s'.root = s.root)
    (supplies : Supplies alloc fs s'.allocator) (window : Window s'.mem s'.root top)
    (zero : ∀ f ∈ fs, ∀ j, s'.mem f j = 0) : Good alloc top fs s' := by
  have isTable := fun f => same.isTable good.tree (f := f)
  refine ⟨⟨window, supplies, good.fits, zero, fun f member => ⟨?_, fun table => ?_⟩, good.distinct⟩,
    same.keeps_tree good.tree, ?_⟩
  · rw [root]
    exact (good.fresh f member).1
  · exact (good.fresh f member).2 ((isTable f).mp table)
  · rw [root]
    exact good.apart.imp_right fun other table => other ((isTable s.root).mp table)

/-- A frame that is neither a table nor supplied is not touched. -/
theorem Grown.foreign {events : List Event} {g : ℕ} (grown : Grown top s s' events)
    (drawn : fs = (allocs events).reverse ++ fs') (outside : ¬ IsTable s.mem top g) (unsupplied : g ∉ fs) :
    ¬ IsTable s'.mem top g ∧ (∀ j, s'.mem g j = s.mem g j) ∧ g ∉ fs' := by
  have notLinked : g ∉ allocs events := by
    rw [drawn] at unsupplied
    simp only [List.mem_append, List.mem_reverse, not_or] at unsupplied
    exact unsupplied.1
  refine ⟨fun table => ?_, fun j => grown.kept g j fun stored => ?_, fun later => unsupplied ?_⟩
  · exact (grown.tables g table).elim outside notLinked
  · exact (grown.within (g, j) stored).elim outside notLinked
  · rw [drawn]
    exact List.mem_append_right _ later

/-! ### Pages at known addresses -/

theorem page_resolve {page f flags : ℕ} (low : page < 2 ^ 35) (mapped : walk s.mem s.root (path page) = some (f, flags))
    (j : Index) : resolve s.mem s.root (entry_addr (wrap (page * PAGE_SIZE)) j) = some (f, 8 * (j : ℕ)) := by
  have jLess := j.isLt
  have start : wrap (page * PAGE_SIZE) = page * 4096 := start_addr_eq (by omega)
  have addr : entry_addr (wrap (page * PAGE_SIZE)) j = page * 4096 + 8 * j := by
    rw [start]
    exact wrap_eq (by push_cast; rfl) (by omega)
  have canonical : Canonical (page * 4096 + 8 * j) := .inl (by omega)
  have inPage : (page * 4096 + 8 * (j : ℕ)) / PAGE_SIZE = page := by
    unfold PAGE_SIZE
    omega
  have offset : (page * 4096 + 8 * (j : ℕ)) % 4096 = 8 * j := by omega
  rw [addr, resolve, if_pos canonical, indices_eq_path, inPage, mapped, offset]
  rfl

theorem load_logged {vaddr t : ℕ} {j : Index} (resolves : resolve s.mem s.root vaddr = some (t, 8 * (j : ℕ)))
    (early : List Event) : load vaddr (logs s early) = .ok (s.mem t j) (logs s (.load vaddr t j :: early)) := by
  have loaded := load_run (s := logs s early) resolves
  rwa [logs_logs] at loaded

theorem set_entry_logged {vaddr t f : ℕ} {j : Index} (resolves : resolve s.mem s.root vaddr = some (t, 8 * (j : ℕ)))
    (fits : f < 2 ^ 40) (flags : ℕ) (early : List Event) : set_page_table_entry vaddr f flags (logs s early) =
      .ok () (logs { s with mem := put s.mem t j (f * 4096 ||| flags) } (.store vaddr t j :: early)) := by
  rw [set_entry_run (s := logs s early) resolves fits]
  simp [logs]

/-- Clearing an empty table stores nothing new. -/
theorem init_page_table_run {page f flags : ℕ} (low : page < 2 ^ 35)
    (mapped : walk s.mem s.root (path page) = some (f, flags)) (zero : ∀ j, s.mem f j = 0) :
    ∃ events, init_page_table (wrap (page * PAGE_SIZE)) s = .ok () (logs s events) := by
  have all : ∀ (l : List Index) (early : List Event), ∃ events,
      (l.forM fun i => set_unused (entry_addr (wrap (page * PAGE_SIZE)) i)) (logs s early) = .ok () (logs s events) := by
    intro l
    induction l with
    | nil => exact fun early => ⟨early, rfl⟩
    | cons i l ih =>
      intro early
      have stored := store_run (s := logs s early) (page_resolve low mapped i) 0x0
      rw [logs_mem, put_self (zero i)] at stored
      obtain ⟨events, rest⟩ := ih ([.store (entry_addr (wrap (page * PAGE_SIZE)) i) f i] ++ early)
      refine ⟨events, ?_⟩
      exact (bind_ok stored _).trans rest
  exact all (List.finRange 512) []

/-! ### Mapping the pages of a list -/

theorem low_ordinary {page : ℕ} (low : page < 2 ^ 35) : Ordinary (upper page) := by
  refine ⟨le_refl 3, fun head => ?_⟩
  have first : page / 2 ^ 27 % 512 = 511 := congrArg Fin.val (Option.some.inj head)
  omega

/-- Each page is mapped over links of supplied frames. -/
theorem map_pages_good {pages : List (ℕ × ℕ)} (good : Good alloc top fs s) (plain : Plain s.mem top Ordinary)
    (usable : ∀ page ∈ pages, page.1 < 2 ^ 35 ∧ page.2 &&& physical_addr_mask = 0) (enough : 3 * pages.length ≤ fs.length) :
    ∃ s' fs' events, map_pages (map_page_to_frame alloc) pages s = .ok () s' ∧ Good alloc top fs' s' ∧
      Grown top s s' events ∧ fs = (allocs events).reverse ++ fs' := by
  induction pages generalizing s fs with
  | nil => exact ⟨s, fs, [], rfl, good, .refl s, rfl⟩
  | cons page pages ih =>
    obtain ⟨low, noAddress⟩ := usable page List.mem_cons_self
    have fits : page.1 < 2 ^ 40 := by omega
    rw [List.length_cons] at enough
    obtain ⟨s₁, gs, ran, changed, count⟩ := map_plain_run good ordinary_closed (fun _ inside => inside) plain
      (low_ordinary low) (by omega) fits noAddress
    obtain ⟨early, grown, drawn⟩ := changed.grown
    obtain ⟨s', fs', late, rest, good', more, later⟩ := ih changed.good (changed.plain Ordinary (fun _ inside => inside) plain)
      (fun p member => usable p (List.mem_cons_of_mem page member)) (by omega)
    refine ⟨s', fs', late ++ early, (bind_ok ran _).trans rest, good', grown.trans more, ?_⟩
    rw [allocs_append, List.reverse_append, List.append_assoc, ← later]
    exact drawn

/-! ### Up to the redirection -/

/-- Nothing is mapped at the paths that leave the first slot of the boot hierarchy. -/
def Beyond (π : List Index) : Prop := Ordinary π ∧ π.head? ≠ some 0

theorem beyond_closed : Closed Beyond := by
  rintro π ρ inside ⟨ordinary, head⟩
  refine ⟨ordinary_closed π ρ inside ordinary, ?_⟩
  obtain ⟨σ, rfl⟩ := inside
  cases π with
  | nil => simp
  | cons i π => simpa using head

/-- The first frame of the supply, once it is taken. -/
theorem Good.taken {f : ℕ} (good : Good alloc top (f :: fs) s) :
    ∃ a, allocate_frame alloc s = .ok (0, f) (logs { s with allocator := a } [.allocated f]) ∧
      Good alloc top fs (logs { s with allocator := a } [.allocated f]) := by
  obtain ⟨a, given, rest⟩ := good.supplies
  refine ⟨a, by simp [allocate_frame, given, Machine.log, logs], ⟨⟨good.window, rest, ?_, ?_, ?_, ?_⟩, good.tree, good.apart⟩⟩
  · exact fun g member => good.fits g (List.mem_cons_of_mem f member)
  · exact fun g member => good.zero g (List.mem_cons_of_mem f member)
  · exact fun g member => good.fresh g (List.mem_cons_of_mem f member)
  · exact (List.nodup_cons.mp good.distinct).2

/-- The hierarchy of the boot code, with nothing but tables outside its first slot,
    and an empty frame `N` apart from it. -/
structure Old (alloc : A → ℤ × ℕ × A) (p4 N : ℕ) (fs : List ℕ) (s : Machine A) : Prop where
  good : Good alloc p4 fs s
  plain : Plain s.mem p4 Beyond
  outside : ¬ IsTable s.mem p4 N
  unsupplied : N ∉ fs
  zero : ∀ j, s.mem N j = 0

section
variable {p4 N : ℕ}

theorem Old.map {page f flags : ℕ} (old : Old alloc p4 N fs s) (inside : Beyond (upper page)) (enough : 3 ≤ fs.length)
    (fits : f < 2 ^ 40) (noAddress : flags &&& physical_addr_mask = 0) :
    ∃ s' fs', map_page_to_frame alloc page f flags s = .ok () s' ∧ Old alloc p4 N fs' s' ∧
      fs.length ≤ fs'.length + 3 ∧ s'.cr3 = s.cr3 ∧ (∀ g, IsTable s.mem p4 g → IsTable s'.mem p4 g) ∧
      ∀ q, Ordinary (upper q) → walk s'.mem p4 (path q) =
        if path q = path page then some (f, present_bit ||| flags) else walk s.mem p4 (path q) := by
  obtain ⟨s', fs', ran, changed, count⟩ := map_plain_run old.good beyond_closed (fun _ inside => inside.1) old.plain inside
    enough fits noAddress
  obtain ⟨events, grown, drawn⟩ := changed.grown
  obtain ⟨outside, row, unsupplied⟩ := Grown.foreign grown drawn old.outside old.unsupplied
  refine ⟨s', fs', ran, ⟨changed.good, ?_, outside, unsupplied, fun j => (row j).trans (old.zero j)⟩, count, grown.cr3,
    fun g => grown.isTable, changed.walks⟩
  exact changed.plain Beyond (fun _ inside => inside.1) old.plain

theorem new_beyond : Beyond (upper new_page) := ⟨low_ordinary (by decide), by decide⟩
theorem old_beyond : Beyond (upper old_p4_page) := ⟨low_ordinary (by decide), by decide⟩

/-- The old hierarchy with its level 4 table at its page, and a frame `N` apart from it. -/
structure Scratch (alloc : A → ℤ × ℕ × A) (p4 N : ℕ) (fs : List ℕ) (s : Machine A) : Prop where
  good : Good alloc p4 fs s
  root : s.root = p4
  outside : ¬ IsTable s.mem p4 N
  unsupplied : N ∉ fs
  mapped : ∃ flags, walk s.mem p4 (path old_p4_page) = some (p4, flags)
  last_table : ∃ t, descend next s.mem p4 (upper old_p4_page) = some t

theorem Scratch.other (scratch : Scratch alloc p4 N fs s) : N ≠ p4 := by
  rintro rfl
  exact scratch.outside (isTable_top _ _)

/-- Without the supply. -/
theorem Scratch.bare (scratch : Scratch alloc p4 N fs s) : Scratch alloc p4 N [] s :=
  ⟨⟨⟨scratch.good.window, trivial, by simp, by simp, by simp, List.nodup_nil⟩, scratch.good.tree, scratch.good.apart⟩,
    scratch.root, scratch.outside, by simp, scratch.mapped, scratch.last_table⟩

/-- It stays so while the tables of the old hierarchy do. -/
theorem Scratch.same (scratch : Scratch alloc p4 N fs s) (same : SameTables p4 s.mem s'.mem) (cr3 : s'.cr3 = s.cr3)
    (supplies : Supplies alloc fs s'.allocator) (slot : next (s'.mem p4 511) = some p4)
    (zero : ∀ f ∈ fs, ∀ j, s'.mem f j = 0) : Scratch alloc p4 N fs s' := by
  have tree := scratch.good.tree
  have root : s'.root = s.root := by rw [Machine.root, Machine.root, cr3]
  have active : s'.root = p4 := root.trans scratch.root
  obtain ⟨flags, mapped⟩ := scratch.mapped
  obtain ⟨t, reaches⟩ := scratch.last_table
  refine ⟨Good.same scratch.good same root supplies ?_ zero, active, fun table => ?_, scratch.unsupplied, ⟨flags, ?_⟩, ⟨t, ?_⟩⟩
  · rw [active]
    exact ⟨slot, slot⟩
  · exact scratch.outside ((same.isTable tree).mp table)
  · rw [same.walk tree old_beyond.1, mapped]
  · rw [same.descend tree old_beyond.1, reaches]

theorem scratch_run {p3 p2 : ℕ} (boot : BootTables s.mem p4 p3 p2) (active : s.cr3 / PAGE_SIZE = p4)
    (ready : Ready alloc p4 (N :: fs) s) (enough : 6 ≤ fs.length) :
    ∃ s' fs', remap_scratch alloc s = .ok (N, p4) s' ∧ Scratch alloc p4 N fs' s' ∧ fs.length ≤ fs'.length + 6 ∧
      (∃ flags, walk s'.mem p4 (path new_page) = some (N, flags)) ∧ (∀ j, s'.mem N j = 0) ∧
      ∀ f, IsTable s.mem p4 f → IsTable s'.mem p4 f := by
  have boundary := boot.low.1
  have rooted : ∀ {u : Machine A}, u.cr3 = s.cr3 → u.root = p4 := by
    intro u same
    unfold Machine.root address
    unfold PAGE_SIZE at active
    omega
  have low : p4 < 2 ^ 40 := by omega
  have fits : N < 2 ^ 40 := ready.fits N List.mem_cons_self
  have noAddress : (present_bit ||| writeable_bit) &&& physical_addr_mask = 0 := by decide
  obtain ⟨a, allocated, good⟩ := Good.taken ⟨ready, boot.tree, .inl (rooted rfl)⟩
  obtain ⟨s₁, same⟩ : ∃ s₁, s₁ = logs { s with allocator := a } [.allocated N] := ⟨_, rfl⟩
  rw [← same] at allocated good
  have mem : s₁.mem = s.mem := by rw [same]; rfl
  have cr3 : s₁.cr3 = s.cr3 := by rw [same]; rfl
  have old : Old alloc p4 N fs s₁ := by
    refine ⟨good, mem ▸ boot.plain, mem ▸ (ready.fresh N List.mem_cons_self).2, (List.nodup_cons.mp ready.distinct).1, ?_⟩
    exact mem ▸ ready.zero N List.mem_cons_self
  obtain ⟨s₂, fs₂, ran₂, old₂, count₂, cr3₂, tables₂, walks₂⟩ := old.map new_beyond (by omega) fits noAddress
  obtain ⟨s₃, fs₃, ran₃, old₃, count₃, cr3₃, tables₃, walks₃⟩ := old₂.map old_beyond (by omega) low noAddress
  have different : path new_page ≠ path old_p4_page := by decide
  have newMapped := walks₃ new_page new_beyond.1
  rw [if_neg different, walks₂ new_page new_beyond.1, if_pos rfl] at newMapped
  have mapped := walks₃ old_p4_page old_beyond.1
  rw [if_pos rfl] at mapped
  have clear := old₃.plain.clear (π := []) (ρ := upper old_p4_page) beyond_closed old_beyond rfl
  have last := descend_of_walk clear (j := last old_p4_page) (by
    rw [← path, mapped]
    simp)
  refine ⟨logs s₃ [.wrote_cr3 s₃.cr3], fs₃, ?_, ⟨?_, ?_, old₃.outside, old₃.unsupplied, ⟨_, mapped⟩, last⟩, ?_, ?_,
    old₃.zero, fun f table => ?_⟩
  · have read : read_tlb s₂ = .ok s₂.cr3 s₂ := rfl
    have frame : get_frame_for_addr s₂.cr3 = p4 := by
      rw [cr3₂, cr3]
      exact active
    refine (bind_ok allocated _).trans ((bind_ok ran₂ _).trans ((bind_ok read _).trans ?_))
    rw [frame, bind_ok ran₃]
    rfl
  · exact old₃.good.step (.quiet s₃ fs₃ ⟨rfl, rfl⟩)
  · exact rooted (cr3₃.trans (cr3₂.trans cr3))
  · omega
  · exact ⟨_, newMapped⟩
  · exact tables₃ f (tables₂ f (mem ▸ table))

/-- The slot of the active table is its own entry. -/
theorem slot_resolve (window : Window s.mem s.root top) :
    resolve s.mem s.root (entry_addr p4_table 511) = some (top, 8 * ((511 : Index) : ℕ)) :=
  window.resolve (π := []) (Nat.zero_le 3) rfl 511

theorem clear_run (scratch : Scratch alloc p4 N fs s) (fits : N < 2 ^ 40)
    (mapped : ∃ flags, walk s.mem p4 (path new_page) = some (N, flags)) (zero : ∀ j, s.mem N j = 0) :
    ∃ s', remap_clear N s = .ok () s' ∧ Scratch alloc p4 N fs s' ∧ s'.mem N 511 = link N ∧
      (∀ j, j ≠ 511 → s'.mem N j = 0) ∧ ∀ t, IsTable s.mem p4 t → IsTable s'.mem p4 t := by
  obtain ⟨flags, newMapped⟩ := mapped
  obtain ⟨oldFlags, oldMapped⟩ := scratch.mapped
  rw [← scratch.root] at newMapped oldMapped
  have newResolves := page_resolve (by decide) newMapped 511
  have oldResolves := page_resolve (by decide) oldMapped 511
  obtain ⟨e₁, ran⟩ := init_page_table_run (by decide) newMapped zero
  have first := load_logged (slot_resolve scratch.good.window) e₁
  have second := load_logged oldResolves (.load (entry_addr p4_table 511) p4 511 :: e₁)
  have stored := fun early => set_entry_logged newResolves fits (present_bit ||| writeable_bit) early
  have row : ∀ t i, t ≠ N → put s.mem N 511 (link N) t i = s.mem t i := fun t i apart => put_row apart i
  have same : SameTables p4 s.mem (put s.mem N 511 (link N)) :=
    fun t i table _ => row t i fun here => scratch.outside (here ▸ table)
  refine ⟨_, (bind_ok ran _).trans ((bind_ok first _).trans ((bind_ok second _).trans (stored _))), ?_, put_same,
    fun j below => ?_, fun t table => (same.isTable scratch.good.tree).mpr table⟩
  · refine scratch.same same rfl scratch.good.supplies ?_ fun t member j => ?_
    · exact (congrArg next (row p4 511 scratch.other.symm)).trans scratch.good.window.inner
    · exact (row t j fun here => scratch.unsupplied (here ▸ member)).trans (scratch.good.zero t member j)
  · exact (put_other fun here => below here.2).trans (zero j)

/-- The redirection opens the window of the slot on the new hierarchy. It has one table, and
    the remaining frames are supplied for it. -/
theorem redirect_run (scratch : Scratch alloc p4 N fs s) (fits : N < 2 ^ 40) (self : s.mem N 511 = link N)
    (bare : ∀ j, j ≠ 511 → s.mem N j = 0) :
    ∃ u, remap_redirect N s = .ok () u ∧ Good alloc N fs u ∧ (∀ j, j ≠ 511 → u.mem N j = 0) ∧
      next (u.mem p4 511) = some N ∧ u.cr3 = s.cr3 ∧ ∀ t i, ¬ (t = p4 ∧ i = 511) → u.mem t i = s.mem t i := by
  obtain ⟨u, stored, mem, active, allocator⟩ :
      ∃ u, set_page_table_entry (entry_addr p4_table 511) N (present_bit ||| writeable_bit) s = .ok () u ∧
        u.mem = put s.mem p4 511 (link N) ∧ u.cr3 = s.cr3 ∧ u.allocator = s.allocator :=
    ⟨_, set_entry_run (slot_resolve scratch.good.window) fits (present_bit ||| writeable_bit), rfl, rfl, rfl⟩
  have other := scratch.other
  have row : ∀ t i, ¬ (t = p4 ∧ i = 511) → u.mem t i = s.mem t i := fun t i below => by rw [mem, put_other below]
  have slot : next (u.mem p4 511) = some N := by rw [mem, put_same, next_link fits]
  have root : u.root = p4 := by rw [← scratch.root, Machine.root, Machine.root, active]
  have window : Window u.mem u.root N := by
    rw [root]
    refine ⟨slot, ?_⟩
    rw [row N 511 fun here => other here.1, self, next_link fits]
  have bare' : ∀ j, j ≠ 511 → u.mem N j = 0 := fun j below => by rw [row N j fun here => other here.1, bare j below]
  have apart : ∀ f ∈ fs, f ≠ p4 := fun f member => scratch.root ▸ (scratch.good.fresh f member).1
  have ready : Ready alloc N fs u := by
    refine ⟨window, allocator ▸ scratch.good.supplies, scratch.good.fits, fun f member j => ?_, fun f member => ⟨?_, ?_⟩,
      scratch.good.distinct⟩
    · rw [row f j fun here => apart f member here.1, scratch.good.zero f member j]
    · rw [root]
      exact apart f member
    · rintro ⟨π, ordinary, reaches⟩
      obtain ⟨-, rfl⟩ := bare_descend bare' ordinary reaches
      exact scratch.unsupplied member
  have good : Good alloc N fs u := by
    refine ⟨ready, bare_tree bare', .inr ?_⟩
    rintro ⟨π, ordinary, reaches⟩
    rw [root] at reaches
    exact other (bare_descend bare' ordinary reaches).2.symm
  have loaded := load_logged (slot_resolve window) []
  refine ⟨_, (bind_ok stored _).trans ((bind_ok loaded _).trans (flush_tlb_run _)), ?_, bare', slot, active, row⟩
  exact (good.step (.quiet u fs ⟨rfl, rfl⟩)).step (.quiet _ fs ⟨rfl, rfl⟩)

/-- The old level 4 table is written at its page, whatever was done outside the old hierarchy. -/
theorem restore_run (scratch : Scratch alloc p4 N fs s) (same : SameTables p4 s.mem s'.mem) (cr3 : s'.cr3 = s.cr3)
    (low : p4 < 2 ^ 40) :
    ∃ u, remap_restore p4 s' = .ok () u ∧ Scratch alloc p4 N [] u ∧ next (u.mem p4 511) = some p4 ∧
      ∀ t i, ¬ (t = p4 ∧ i = 511) → u.mem t i = s'.mem t i := by
  have root : s'.root = p4 := by rw [← scratch.root, Machine.root, Machine.root, cr3]
  obtain ⟨flags, mapped⟩ := scratch.mapped
  have mapped' : walk s'.mem s'.root (path old_p4_page) = some (p4, flags) := by
    rw [root, same.walk scratch.good.tree old_beyond.1, mapped]
  obtain ⟨u, stored, mem, active⟩ :
      ∃ u, set_page_table_entry (entry_addr old_p4_table 511) p4 (present_bit ||| writeable_bit) s' = .ok () u ∧
        u.mem = put s'.mem p4 511 (link p4) ∧ u.cr3 = s'.cr3 :=
    ⟨_, set_entry_run (page_resolve (by decide) mapped' 511) low (present_bit ||| writeable_bit), rfl, rfl⟩
  have row : ∀ t i, ¬ (t = p4 ∧ i = 511) → u.mem t i = s'.mem t i := fun t i below => by rw [mem, put_other below]
  have slot : next (u.mem p4 511) = some p4 := by rw [mem, put_same, next_link low]
  have root' : u.root = p4 := by rw [← root, Machine.root, Machine.root, active]
  have window : Window u.mem u.root p4 := by
    rw [root']
    exact ⟨slot, slot⟩
  have loaded := load_logged (slot_resolve window) [.wrote_cr3 u.cr3]
  refine ⟨_, (bind_ok stored _).trans ((bind_ok (flush_tlb_run _) _).trans ((bind_ok loaded _).trans rfl)), ?_, slot, row⟩
  exact scratch.bare.same (fun t i table below => (row t i below).trans (same t i table below)) (active.trans cr3) trivial
    slot (by simp)

/-- The level 4 table of a frame becomes active. -/
theorem switch_run (fits : N < 2 ^ 40) (slot : next (s.mem N 511) = some N) :
    ∃ s', remap_switch N s = .ok () s' ∧ s'.root = N ∧ Window s'.mem s'.root N := by
  have start : wrap (N * PAGE_SIZE) = N * 4096 := start_addr_eq (by omega)
  have root : address (wrap (N * PAGE_SIZE)) = N := by
    rw [start, address_mul fits]
  refine ⟨_, rfl, root, ?_, slot⟩
  change next (s.mem (address (wrap (N * PAGE_SIZE))) 511) = some N
  rw [root, slot]

end

/-! ### The mappings of the new hierarchy -/

/-- The assertions of `remap_kernel` hold, over sections whose first and last address lie
    below 2^47 and a Multiboot block whose pages begin below 2^47. -/
structure Acceptable (data : multiboot_data) : Prop where
  sections : ∀ h ∈ data.sectionheaders, elf_section_is_allocated h = true →
    h.sh_addr % PAGE_SIZE = 0 ∧ h.sh_addr ≤ wrap (h.sh_addr + h.sh_size - 1) ∧ wrap (h.sh_addr + h.sh_size - 1) < 2 ^ 47
  multiboot : data.start + 8 * data.total_size / PAGE_SIZE * PAGE_SIZE < 2 ^ 47

/-- The pages that the new hierarchy maps, with their flags. -/
def filled_pages (data : multiboot_data) : List (ℕ × ℕ) :=
  data.sectionheaders.flatMap section_pages ++ (0xb8, writeable_bit ||| present_bit ||| no_exec_bit) :: multiboot_pages data

variable {data : multiboot_data}

theorem Acceptable.formed (acceptable : Acceptable data) {h : multiboot_elf_section_header} (member : h ∈ data.sectionheaders)
    (allocated : elf_section_is_allocated h = true) : Formed h ∧ h.sh_addr + h.sh_size ≤ 2 ^ 47 := by
  obtain ⟨aligned, order, below⟩ := acceptable.sections h member allocated
  have := h.addr_lt
  have := h.size_lt
  unfold wrap at order below
  refine ⟨⟨aligned, ?_, ?_⟩, ?_⟩ <;> omega

theorem Acceptable.usable (acceptable : Acceptable data) :
    ∀ page ∈ filled_pages data, page.1 < 2 ^ 35 ∧ page.2 &&& physical_addr_mask = 0 := by
  rintro ⟨q, flags⟩ member
  rcases List.mem_append.mp member with inSections | rest
  · obtain ⟨h, inList, here⟩ := List.mem_flatMap.mp inSections
    obtain ⟨allocated, j, less, rfl, rfl⟩ := mem_section_pages.mp here
    obtain ⟨formed, below⟩ := acceptable.formed inList allocated
    obtain ⟨inside, begins⟩ := section_page_begins less
    refine ⟨?_, ?_⟩
    · unfold InSection at inside
      unfold PAGE_SIZE at begins
      change h.sh_addr / 4096 + j < 2 ^ 35
      omega
    · change section_flags h &&& physical_addr_mask = 0
      unfold section_flags
      cases elf_section_is_exectuable h <;> cases elf_section_is_writable h <;> decide
  · rcases List.mem_cons.mp rest with same | inBlock
    · cases same
      decide
    · obtain ⟨j, less, same⟩ := List.mem_map.mp inBlock
      cases same
      have below := acceptable.multiboot
      have less := List.mem_range.mp less
      unfold multiboot_count at less
      unfold PAGE_SIZE at below
      refine ⟨?_, ?_⟩
      · change data.start / 4096 + j < 2 ^ 35
        omega
      · change (present_bit ||| no_exec_bit) &&& physical_addr_mask = 0
        decide

/-- With enough steps, the loops map these pages. -/
theorem remap_fill_eq (acceptable : Acceptable data) {fuel : ℕ} (enough : 2 ^ 36 ≤ fuel) :
    remap_fill alloc fuel data = map_pages (map_page_to_frame alloc) (filled_pages data) := by
  have sections : remap_sections (map_page_to_frame alloc) fuel data.sectionheaders =
      map_pages (map_page_to_frame alloc) (data.sectionheaders.flatMap section_pages) := by
    refine remap_sections_eq fun h member => remap_section_eq (fun allocated => ?_) (fun allocated => ?_) (fun allocated => ?_)
    all_goals obtain ⟨formed, below⟩ := acceptable.formed member allocated
    · exact formed
    · have := formed.nonempty
      omega
    · unfold section_count
      omega
  have block : remap_multiboot (map_page_to_frame alloc) fuel data =
      map_pages (map_page_to_frame alloc) (multiboot_pages data) := by
    have := data.total_size_lt
    refine remap_multiboot_eq acceptable.multiboot ?_
    unfold multiboot_count
    omega
  have vga : remap_vga (map_page_to_frame alloc) =
      map_page_to_frame alloc 0xb8 0xb8 (writeable_bit ||| present_bit ||| no_exec_bit) :=
    identity_map_page_eq (by decide) _
  rw [remap_fill, sections, vga, block]
  simp [map_pages, filled_pages]

/-! ### The run -/

/-- The states of `remap_kernel` up to the load of CR3. -/
structure Course (alloc : A → ℤ × ℕ × A) (fuel f : ℕ) (data : multiboot_data) (s : Machine A) (p4 N : ℕ) where
  scratched : Machine A
  prepared : Machine A
  redirected : Machine A
  filled : Machine A
  restored : Machine A
  unmapped : Machine A
  switched : Machine A
  scratch : remap_scratch alloc s = .ok (N, p4) scratched
  clear : remap_clear N scratched = .ok () prepared
  redirect : remap_redirect N prepared = .ok () redirected
  fill : remap_fill alloc fuel data redirected = .ok () filled
  restore : remap_restore p4 filled = .ok () restored
  unmap : unmap_page f old_p4_page restored = .ok () unmapped
  switch : remap_switch N unmapped = .ok () switched

/-- What is left of `remap_kernel` then is the guard page. -/
theorem Course.remap_kernel_eq {fuel f : ℕ} {p4 N : ℕ} (run : Course alloc fuel f data s p4 N) (g : ℕ) :
    remap_kernel alloc fuel f g data s = unmap_page g p4 run.switched := by
  refine (bind_ok run.scratch _).trans ?_
  refine (bind_ok run.clear _).trans ?_
  refine (bind_ok run.redirect _).trans ?_
  refine (bind_ok run.fill _).trans ?_
  refine (bind_ok run.restore _).trans ?_
  refine (bind_ok run.unmap _).trans ?_
  exact bind_ok run.switch _

/-- Where the slot leads in a run, and what is written meanwhile. -/
structure Redirects {fuel f p4 N : ℕ} (run : Course alloc fuel f data s p4 N) : Prop where
  /-- The old hierarchy keeps the tables of the boot code. -/
  tables : ∀ t, IsTable s.mem p4 t → IsTable run.prepared.mem p4 t
  redirected : next (run.redirected.mem p4 511) = some N ∧ next (run.filled.mem p4 511) = some N
  /-- Meanwhile entries of the new table and of tables allocated for it are written, and no
      table of the old hierarchy changes but for the slot. -/
  confined : ∃ events, run.filled.trace = events ++ run.redirected.trace ∧
    (∀ x ∈ stores events, IsTable run.filled.mem N x.1 ∧ (x.1 = N ∨ x.1 ∈ allocs events)) ∧
    ∀ t, IsTable run.prepared.mem p4 t → (∀ x ∈ stores events, x.1 ≠ t) ∧
      ∀ i, ¬ (t = p4 ∧ i = 511) → run.filled.mem t i = run.prepared.mem t i
  restored : next (run.restored.mem p4 511) = some p4
  active : run.switched.root = N
  itself : next (run.switched.mem run.switched.root 511) = some run.switched.root
  denotes : ∀ i : Index, resolve run.switched.mem run.switched.root (entry_addr p4_table i) = some (N, 8 * (i : ℕ))

/-- The frames that a run may take: the new level 4 table, and at most three tables for each page. -/
def frames_needed (data : multiboot_data) : ℕ := 1 + 3 * (2 + (filled_pages data).length)

section
variable {p4 N : ℕ}

/-- While the slot points to the new table, only the new table and tables allocated for it
    are written: no table of the old hierarchy. -/
theorem fill_confined {s₀ s₁ s₂ : Machine A} {events : List Event} (scratch : Scratch alloc p4 N fs s₀)
    (bare : ∀ j, j ≠ 511 → s₁.mem N j = 0) (grown : Grown N s₁ s₂ events) (drawn : fs = (allocs events).reverse ++ fs') :
    (∀ x ∈ stores events, IsTable s₂.mem N x.1 ∧ (x.1 = N ∨ x.1 ∈ allocs events)) ∧
      ∀ t, IsTable s₀.mem p4 t → (∀ x ∈ stores events, x.1 ≠ t) ∧ ∀ i, s₂.mem t i = s₁.mem t i := by
  have inNew (x) (member : x ∈ stores events) : x.1 = N ∨ x.1 ∈ allocs events := by
    refine (grown.within x member).imp_left ?_
    rintro ⟨π, ordinary, reaches⟩
    exact (bare_descend bare ordinary reaches).2
  have apart (t) (table : IsTable s₀.mem p4 t) (x) (member : x ∈ stores events) : x.1 ≠ t := by
    rintro rfl
    rcases inNew x member with same | allocated
    · exact scratch.outside (same ▸ table)
    · refine (scratch.good.fresh x.1 ?_).2 table
      rw [drawn]
      exact List.mem_append_left _ (List.mem_reverse.mpr allocated)
  refine ⟨fun x member => ⟨?_, inNew x member⟩, fun t table => ⟨apart t table, fun i => ?_⟩⟩
  · rcases inNew x member with same | allocated
    · exact same ▸ grown.isTable (isTable_top _ _)
    · exact grown.linked x.1 allocated
  · exact grown.kept t i fun stored => apart t table (t, i) stored rfl

/-- The page of the old level 4 table is unmapped over the restored hierarchy. -/
theorem release_run (scratch : Scratch alloc p4 N fs s) (f : ℕ) :
    ∃ s', unmap_page f old_p4_page s = .ok () s' ∧ ∀ j, s'.mem N j = s.mem N j := by
  obtain ⟨t, reaches⟩ := scratch.last_table
  obtain ⟨s', ran, changed⟩ := unmap_page_run scratch.good old_beyond.1 reaches
  obtain ⟨events, grown, drawn⟩ := changed.grown
  exact ⟨s', ran, (Grown.foreign grown drawn scratch.outside scratch.unsupplied).2.1⟩

end

/-- From the boot hierarchy, with frames supplied, `remap_kernel` comes to the load of CR3, and its slot
    leads to the new hierarchy, back to the old one, and in the end to the active one. -/
theorem remap_kernel_redirects {p4 p3 p2 : ℕ} (boot : BootTables s.mem p4 p3 p2) (active : s.cr3 / PAGE_SIZE = p4)
    (ready : Ready alloc p4 fs s) (acceptable : Acceptable data) (enough : frames_needed data ≤ fs.length) :
    ∃ least, ∀ fuel ≥ least, ∀ f, ∃ N, ∃ run : Course alloc fuel f data s p4 N, Redirects run := by
  refine ⟨2 ^ 36, fun fuel many f => ?_⟩
  obtain ⟨N, fs, rfl⟩ : ∃ N gs, fs = N :: gs := by
    cases fs with
    | nil => simp [frames_needed] at enough
    | cons N gs => exact ⟨N, gs, rfl⟩
  unfold frames_needed at enough
  rw [List.length_cons] at enough
  have fits : N < 2 ^ 40 := ready.fits N List.mem_cons_self
  have low : p4 < 2 ^ 40 := by
    have := boot.low.1
    omega
  obtain ⟨s₁, gs, scratched, scratch₁, count, newMapped, zero, tables₁⟩ := scratch_run boot active ready (by omega)
  obtain ⟨s₂, cleared, scratch₂, self, bare₂, tables₂⟩ := clear_run scratch₁ fits newMapped zero
  obtain ⟨s₃, redirected, good₃, bare₃, slot₃, cr3₃, row₃⟩ := redirect_run scratch₂ fits self bare₂
  obtain ⟨s₄, hs, events, filled, good₄, grown, drawn⟩ :=
    map_pages_good good₃ (bare_plain bare₃) acceptable.usable (by omega)
  obtain ⟨written, kept⟩ := fill_confined scratch₂ bare₃ grown drawn
  have same₄ : SameTables p4 s₂.mem s₄.mem := fun t i table below => ((kept t table).2 i).trans (row₃ t i below)
  obtain ⟨s₅, restored, scratch₅, slot₅, row₅⟩ := restore_run scratch₂ same₄ (grown.cr3.trans cr3₃) low
  obtain ⟨s₆, unmapped, row₆⟩ := release_run scratch₅ f
  have slot₆ : next (s₆.mem N 511) = some N := by
    rw [row₆, row₅ N 511 fun here => scratch₂.other here.1]
    exact good₄.window.inner
  obtain ⟨s₇, switched, root₇, window₇⟩ := switch_run fits slot₆
  have fill : remap_fill alloc fuel data s₃ = .ok () s₄ := by
    rw [remap_fill_eq acceptable many, filled]
  have slot₄ : next (s₄.mem p4 511) = some N :=
    (congrArg next ((kept p4 (isTable_top _ _)).2 511)).trans slot₃
  refine ⟨N, ⟨s₁, s₂, s₃, s₄, s₅, s₆, s₇, scratched, cleared, redirected, fill, restored, unmapped, switched⟩, ?_⟩
  constructor
  case tables => exact fun t table => tables₂ t (tables₁ t table)
  case redirected => exact ⟨slot₃, slot₄⟩
  case confined => exact ⟨events, grown.trace, written, fun t table => ⟨(kept t table).1, fun i => same₄ t i table⟩⟩
  case restored => exact slot₅
  case active => exact root₇
  case itself => exact window₇.outer.trans (congrArg some root₇.symm)
  case denotes => exact fun i => window₇.resolve (π := []) (Nat.zero_le 3) rfl i

end

/-- A block with one section. -/
def small_data : multiboot_data :=
  { start := 0x12000
    total_size := 120
    memory_map :=
      { size := 48
        entry_size := 32
        memory_maps := [{ base_addr := 0x400000, length := 0x600000, type := 1 }] }
    sectionheaders := [longer_section] }

theorem small_data_acceptable : Acceptable small_data where
  sections h member _ := by
    obtain rfl := List.mem_singleton.mp member
    decide
  multiboot := by decide

theorem remap_kernel_redirects_boot :
    ∃ least, ∀ fuel ≥ least, ∀ f, ∃ N,
      ∃ run : Course from_list fuel f small_data (machine (List.range' 0x200 16)) 0x101 N, Redirects run := by
  have good : Good from_list 0x101 (List.range' 0x200 16) (machine (List.range' 0x200 16)) :=
    machine_good (by decide) (by decide)
  exact remap_kernel_redirects (machine_boot _) (by decide) good.toReady small_data_acceptable (by decide)

end OsC.Redirect
