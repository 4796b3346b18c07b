import OsC.Redirect
import OsC.Access

/-!
The address space that `remap_kernel` leaves. The tables of the new hierarchy are
apart from those of the old one, so that what is done to the old hierarchy after
the new one is filled does not change it. In the end each page of the list
`filled_pages` is mapped to its own frame with the flags that the list gives it
last, but for the guard page in the place of the old level 4 table, and no other
page is mapped (`remap_kernel_maps`).
-/
namespace OsC.AddressSpace
open OsC.Word OsC.Frames OsC.Loop OsC.Entry OsC.Radix OsC.Walk OsC.Multiboot OsC.Paging OsC.Recursive OsC.Tables OsC.PageMap
open OsC.Boot OsC.Remap OsC.Sections OsC.Redirect OsC.Access

/-! ### The pages of a list -/

/-- The mapping after the pages of a list are identity mapped. -/
def identity_mapping (m : Mapping) (pages : List (ℕ × ℕ)) : Mapping :=
  pages.foldl (fun m page => Operation.apply m (.map page.1 page.1 page.2)) m

/-- The flags that a list gives a page last. -/
def last_flags (pages : List (ℕ × ℕ)) (q : ℕ) : Option ℕ := (pages.reverse.find? fun page => page.1 == q).map Prod.snd

theorem last_flags_mem {pages : List (ℕ × ℕ)} {q flags : ℕ} (found : last_flags pages q = some flags) : (q, flags) ∈ pages := by
  obtain ⟨page, first, rfl⟩ := Option.map_eq_some_iff.mp found
  have key : page.1 = q := by simpa using List.find?_some first
  rw [← key]
  exact List.mem_reverse.mp (List.mem_of_find?_eq_some first)

theorem last_flags_of_mem {pages : List (ℕ × ℕ)} {q flags : ℕ} (member : (q, flags) ∈ pages) :
    ∃ flags, last_flags pages q = some flags := by
  rw [← Option.isSome_iff_exists, last_flags, Option.isSome_map, List.find?_isSome]
  exact ⟨(q, flags), List.mem_reverse.mpr member, by simp⟩

theorem identity_mapping_eq (m : Mapping) (pages : List (ℕ × ℕ)) (q : ℕ) :
    identity_mapping m pages q = ((last_flags pages q).map fun flags => (q, present_bit ||| flags)).or (m q) := by
  induction pages using List.reverseRecOn with
  | nil => rfl
  | append_singleton pages page ih =>
    obtain ⟨p, flags⟩ := page
    rw [identity_mapping, List.foldl_append]
    change Function.update (identity_mapping m pages) p (some (p, present_bit ||| flags)) q = _
    have first : last_flags (pages ++ [(p, flags)]) q = if p = q then some flags else last_flags pages q := by
      by_cases here : p = q <;> simp [last_flags, here]
    rw [first]
    by_cases here : p = q
    · subst here
      simp
    · rw [Function.update_of_ne (Ne.symm here), ih, if_neg here]

section
variable {A : Type} {alloc : A → ℤ × ℕ × A} {s s' : Machine A} {top : ℕ} {fs fs' : List ℕ}

theorem low_usable {page : ℕ} (low : page < 2 ^ 35) : Usable page := by
  refine ⟨.inl low, fun last => ?_⟩
  rw [(page_indices page).1] at last
  have last : page / 2 ^ 27 % 512 = 511 := last
  omega

/-- Identity mapping the pages of a list is the same sequence of updates of the map. -/
theorem map_pages_keep {pages : List (ℕ × ℕ)} {m : Mapping} (good : Good alloc top fs s) (linking : Linking s.mem top)
    (agree : ∀ q, Usable q → walk s.mem top (path q) = m q)
    (usable : ∀ page ∈ pages, page.1 < 2 ^ 35 ∧ page.2 &&& physical_addr_mask = 0) (enough : 3 * pages.length ≤ fs.length) :
    ∃ s' fs' events, map_pages (map_page_to_frame alloc) pages s = .ok () s' ∧ Good alloc top fs' s' ∧
      Linking s'.mem top ∧ Grown top s s' events ∧ fs = (allocs events).reverse ++ fs' ∧
      fs.length ≤ fs'.length + 3 * pages.length ∧ ∀ q, Usable q → walk s'.mem top (path q) = identity_mapping m pages q := by
  induction pages generalizing s fs m with
  | nil => exact ⟨s, fs, [], rfl, good, linking, .refl s, rfl, Nat.le_add_right _ _, agree⟩
  | cons page pages ih =>
    obtain ⟨low, noAddress⟩ := usable page List.mem_cons_self
    have fits : page.1 < 2 ^ 40 := by omega
    rw [List.length_cons] at enough ⊢
    obtain ⟨s₁, gs, ran, changed, count⟩ := map_plain_run good ordinary_closed (fun _ inside => inside) linking.plain
      (low_ordinary low) (by omega) fits noAddress
    have linking₁ := map_links good linking (low_ordinary low) (by omega) fits ran
    obtain ⟨early, grown, drawn⟩ := changed.grown
    have agree₁ : ∀ q, Usable q → walk s₁.mem top (path q) = Operation.apply m (.map page.1 page.1 page.2) q := by
      intro q inside
      rw [changed.walks q inside.ordinary, agree q inside, Operation.apply, Function.update_apply]
      exact if_congr ⟨fun same => inside.eq_of_path (low_usable low) same, fun same => same ▸ rfl⟩ rfl rfl
    obtain ⟨s', fs', late, rest, good', linking', more, later, left, walks⟩ := ih changed.good linking₁ agree₁
      (fun p member => usable p (List.mem_cons_of_mem page member)) (by omega)
    refine ⟨s', fs', late ++ early, (bind_ok ran _).trans rest, good', linking', grown.trans more, ?_, by omega, walks⟩
    rw [allocs_append, List.reverse_append, List.append_assoc, ← later]
    exact drawn

/-! ### A hierarchy that others leave alone -/

theorem Linking.same {mem mem' : Walk.Tables} (linking : Linking mem top) (same : SameTables top mem mem')
    (tree : Tree next mem top Ordinary) : Linking mem' top := by
  intro π i t inside reaches isPresent
  have ordinary := ordinary_closed π _ (List.prefix_append π [i]) inside
  rw [same.descend tree ordinary] at reaches
  have entry := same.passed tree inside.2 (List.prefix_refl _) ordinary reaches
  rw [entry] at isPresent ⊢
  exact linking π i t inside reaches isPresent

/-- The hierarchy becomes the active one. -/
theorem Good.activates (good : Good alloc top fs s) (same : SameTables top s.mem s'.mem) (root : s'.root = top)
    (supplies : Supplies alloc fs s'.allocator) (slot : next (s'.mem top 511) = some top)
    (zero : ∀ f ∈ fs, ∀ j, s'.mem f j = 0) : Good alloc top fs s' := by
  have isTable := fun f => same.isTable good.tree (f := f)
  refine ⟨⟨?_, supplies, good.fits, zero, fun f member => ⟨?_, fun table => ?_⟩, good.distinct⟩,
    same.keeps_tree good.tree, .inl root⟩
  · rw [root]
    exact ⟨slot, slot⟩
  · rw [root]
    rintro rfl
    exact (good.fresh f member).2 (isTable_top _ _)
  · exact (good.fresh f member).2 ((isTable f).mp table)

/-! ### Calls of the allocator -/

/-- The allocator after a call. -/
def spent (alloc : A → ℤ × ℕ × A) (a : A) : A := (alloc a).2.2

/-- An action that calls the allocator at most `k` times. -/
def Takes {α : Type} (alloc : A → ℤ × ℕ × A) (k : ℕ) (x : Kernel A α) : Prop :=
  ∀ s a s', x s = .ok a s' → ∃ n ≤ k, s'.allocator = (spent alloc)^[n] s.allocator

section
variable {α β : Type} {x : Kernel A α} {f : α → Kernel A β} {k l m : ℕ}

theorem ok_of_bind {b : β} (ran : (x >>= f) s = .ok b s') : ∃ a u, x s = .ok a u ∧ f a u = .ok b s' := by
  cases first : x s with
  | ok a u =>
    rw [bind_ok first] at ran
    exact ⟨a, u, rfl, ran⟩
  | error e u =>
    rw [bind_error first] at ran
    cases ran

theorem Takes.bind (first : Takes alloc k x) (rest : ∀ a, Takes alloc l (f a)) (sum : k + l ≤ m) : Takes alloc m (x >>= f) := by
  intro s b s' ran
  obtain ⟨a, u, early, late⟩ := ok_of_bind ran
  obtain ⟨n, few, same⟩ := first s a u early
  obtain ⟨i, fewer, same'⟩ := rest a u b s' late
  refine ⟨i + n, by omega, ?_⟩
  rw [same', same, Function.iterate_add_apply]

theorem Takes.weaker (takes : Takes alloc k x) (le : k ≤ l) : Takes alloc l x := by
  intro s a s' ran
  obtain ⟨n, few, same⟩ := takes s a s' ran
  exact ⟨n, few.trans le, same⟩

theorem Takes.retains (takes : Takes alloc 0 x) {a : α} (ran : x s = .ok a s') : s'.allocator = s.allocator := by
  obtain ⟨n, none, same⟩ := takes s a s' ran
  obtain rfl := Nat.le_zero.mp none
  exact same

theorem takes_of_retains (retains : ∀ s a s', x s = .ok a s' → s'.allocator = s.allocator) (k : ℕ) : Takes alloc k x :=
  fun s a s' ran => ⟨0, Nat.zero_le k, retains s a s' ran⟩

theorem takes_pure (a : α) (k : ℕ) : Takes alloc k (pure a : Kernel A α) :=
  takes_of_retains (fun s b s' ran => by cases ran; rfl) k

end

theorem takes_load (vaddr : ℕ) : Takes alloc 0 (load vaddr : Kernel A ℕ) := by
  refine takes_of_retains (fun s a s' ran => ?_) 0
  unfold load at ran
  split at ran <;> cases ran
  rfl

theorem takes_store (vaddr value : ℕ) : Takes alloc 0 (store vaddr value : Kernel A Unit) := by
  refine takes_of_retains (fun s a s' ran => ?_) 0
  unfold store at ran
  split at ran <;> cases ran
  rfl

theorem takes_set_entry (entry frame flags : ℕ) : Takes alloc 0 (set_page_table_entry entry frame flags : Kernel A Unit) := by
  rw [show set_page_table_entry entry frame flags = store entry _ from funext (set_page_table_entry_eq entry frame flags)]
  exact takes_store _ _

theorem takes_flush : Takes alloc 0 (flush_tlb : Kernel A Unit) := by
  refine takes_of_retains (fun s a s' ran => ?_) 0
  rw [flush_tlb_run] at ran
  cases ran
  rfl

theorem takes_descend (table index : ℕ) : Takes alloc 0 (descened_page_table table index : Kernel A ℕ) := by
  unfold descened_page_table
  split
  · exact takes_pure _ 0
  · refine (takes_load _).bind (l := 0) (fun entry => ?_) (le_refl 0)
    split <;> exact takes_pure _ 0

theorem takes_allocate : Takes alloc 1 (allocate_frame alloc) := by
  intro s r s' ran
  refine ⟨1, le_refl 1, ?_⟩
  unfold allocate_frame at ran
  cases ran
  split <;> rfl

/-- At most one call for each level. -/
theorem takes_get_next (table index : ℕ) : Takes alloc 1 (get_next_page_table_or_create alloc table index) := by
  refine (takes_descend table index).bind (l := 1) (fun tbl => ?_) (le_refl 1)
  dsimp only
  split
  · refine takes_allocate.bind (l := 0) ?_ (le_refl 1)
    rintro ⟨success, frame⟩
    dsimp only
    split
    · exact (takes_set_entry _ _ _).bind (fun _ => takes_flush.bind (fun _ => takes_descend table index) (le_refl 0)) (le_refl 0)
    · exact takes_descend table index
  · exact (takes_descend table index).weaker (Nat.zero_le 1)

theorem takes_map_page (page frame flags : ℕ) : Takes alloc 3 (map_page_to_frame alloc page frame flags) := by
  refine (takes_get_next _ _).bind (l := 2) (fun p3_table => ?_) (le_refl 3)
  refine (takes_get_next _ _).bind (l := 1) (fun p2_table => ?_) (le_refl 2)
  exact (takes_get_next _ _).bind (fun _ => takes_set_entry _ _ _) (le_refl 1)

theorem takes_scratch : Takes alloc 7 (remap_scratch alloc) := by
  refine takes_allocate.bind (l := 6) ?_ (le_refl 7)
  rintro ⟨_, frame⟩
  refine (takes_map_page _ frame _).bind (l := 3) (fun _ => ?_) (le_refl 6)
  refine (takes_of_retains (fun s a s' ran => by cases ran; rfl) 0).bind (l := 3) (fun cr3 => ?_) (le_refl 3)
  exact (takes_map_page _ _ _).bind (fun _ => takes_flush.bind (fun _ => takes_pure _ 0) (le_refl 0)) (le_refl 3)

theorem takes_restore (p4 : ℕ) : Takes alloc 0 (remap_restore p4 : Kernel A Unit) := by
  refine (takes_set_entry _ _ _).bind (l := 0) (fun _ => ?_) (le_refl 0)
  refine takes_flush.bind (l := 0) (fun _ => ?_) (le_refl 0)
  exact (takes_load _).bind (fun _ => takes_pure _ 0) (le_refl 0)

/-! ### A limited supply -/

theorem Supplies.drop {a : A} {n : ℕ} (supplies : Supplies alloc fs a) (within : n ≤ fs.length) :
    Supplies alloc (fs.drop n) ((spent alloc)^[n] a) := by
  induction n generalizing fs a with
  | zero => exact supplies
  | succ n ih =>
    cases fs with
    | nil => simp at within
    | cons f fs =>
      obtain ⟨a', given, rest⟩ := supplies
      have next : spent alloc a = a' := congrArg (·.2.2) given
      rw [List.drop_succ_cons, Function.iterate_succ_apply, next]
      exact ih rest (by simpa using within)

/-- Two supplies of one allocator agree. -/
theorem Supplies.take_prefix {gs hs : List ℕ} {a : A} (left : Supplies alloc gs a) (right : Supplies alloc hs a) :
    gs.take hs.length <+: hs := by
  induction hs generalizing gs a with
  | nil => simp
  | cons h hs ih =>
    cases gs with
    | nil => simp
    | cons g gs =>
      obtain ⟨a', given, rest⟩ := left
      obtain ⟨b', given', rest'⟩ := right
      have same := given.symm.trans given'
      obtain ⟨rfl, rfl⟩ : g = h ∧ a' = b' := by simpa using same
      rw [List.length_cons, List.take_succ_cons]
      exact (List.cons_prefix_cons).mpr ⟨rfl, ih rest rest'⟩

theorem Supplies.take {gs : List ℕ} {a : A} (supplies : Supplies alloc gs a) (n : ℕ) : Supplies alloc (gs.take n) a := by
  induction n generalizing gs a with
  | zero => trivial
  | succ n ih =>
    cases gs with
    | nil => exact supplies
    | cons g gs =>
      obtain ⟨a', given, rest⟩ := supplies
      exact ⟨a', given, ih rest⟩

theorem Good.take {gs : List ℕ} (good : Good alloc top gs s) (n : ℕ) : Good alloc top (gs.take n) s := by
  have sub : gs.take n ⊆ gs := List.take_subset n gs
  exact ⟨⟨good.window, Supplies.take good.supplies n, fun f member => good.fits f (sub member), fun f member => good.zero f (sub member),
    fun f member => good.fresh f (sub member), good.distinct.sublist (List.take_sublist n gs)⟩, good.tree, good.apart⟩

/-- What is left of the supply after the scratch mappings. -/
theorem scratch_supply {p4 p3 p2 N : ℕ} (boot : BootTables s.mem p4 p3 p2) (active : s.cr3 / PAGE_SIZE = p4)
    (ready : Ready alloc p4 (N :: fs) s) (enough : 6 ≤ fs.length) :
    ∃ s' gs, remap_scratch alloc s = .ok (N, p4) s' ∧ Scratch alloc p4 N gs s' ∧ fs.length ≤ gs.length + 6 ∧ gs ⊆ fs ∧
      (∃ flags, walk s'.mem p4 (path new_page) = some (N, flags)) ∧ ∀ j, s'.mem N j = 0 := by
  obtain ⟨s', gs, ran, scratch, count, mapped, zero, -⟩ := scratch_run boot active ready enough
  obtain ⟨n, few, spend⟩ := takes_scratch s (N, p4) s' ran
  obtain ⟨hs, isRest⟩ : ∃ hs, hs = (N :: fs).drop n := ⟨_, rfl⟩
  have rest : Supplies alloc hs s'.allocator := by
    rw [isRest, spend]
    exact Supplies.drop ready.supplies (by simp; omega)
  have length : hs.length = fs.length + 1 - n := by rw [isRest, List.length_drop, List.length_cons]
  have inside := (Supplies.take_prefix scratch.good.supplies rest).subset
  have sub : gs.take hs.length ⊆ gs := List.take_subset _ gs
  refine ⟨s', gs.take hs.length, ran, ⟨Good.take scratch.good _, scratch.root, scratch.outside, ?_, scratch.mapped,
    scratch.last_table⟩, ?_, ?_, mapped, zero⟩
  · exact fun member => scratch.unsupplied (sub member)
  · rw [List.length_take]
    omega
  · intro g member
    have given : g ∈ N :: fs := List.mem_of_mem_drop (isRest ▸ inside member)
    rcases List.mem_cons.mp given with rfl | later
    · exact absurd (sub member) scratch.unsupplied
    · exact later

/-! ### The run -/

/-- What `remap_kernel` leaves: the new hierarchy is active, and maps each page as the list says
    but for the guard page. -/
structure Remapped (alloc : A → ℤ × ℕ × A) (data : multiboot_data) (p4 N : ℕ) (fs : List ℕ) (s : Machine A) : Prop where
  root : s.root = N
  good : Good alloc N fs s
  linking : Linking s.mem N
  mapping : ∀ q, Usable q → hardware s q =
    if q = p4 then none else (last_flags (filled_pages data) q).map fun flags => (q, present_bit ||| flags)

section
variable {p4 N : ℕ} {data : multiboot_data}

/-- The page of the old level 4 table is unmapped over the restored hierarchy, and nothing changes outside its tables. -/
theorem release_keeps (scratch : Scratch alloc p4 N [] s) (f : ℕ) :
    ∃ s', unmap_page f old_p4_page s = .ok () s' ∧ s'.allocator = s.allocator ∧
      ∀ t, ¬ IsTable s.mem p4 t → ∀ j, s'.mem t j = s.mem t j := by
  obtain ⟨t, reaches⟩ := scratch.last_table
  obtain ⟨_, _, _, ran⟩ := unmap_page_logs (f := f) scratch.good old_beyond.1 reaches
  refine ⟨_, ran, rfl, fun u outside j => put_row ?_ j⟩
  rintro rfl
  exact outside ⟨upper old_p4_page, old_beyond.1, reaches⟩

/-- The last steps of `remap_kernel` leave a new hierarchy as it was filled, if none of its tables
    belongs to the old one, and make it the active one. -/
theorem remap_finish {s₂ s₄ : Machine A} {hs : List ℕ} (scratch : Scratch alloc p4 N fs s₂)
    (same : SameTables p4 s₂.mem s₄.mem) (cr3 : s₄.cr3 = s₂.cr3) (low : p4 < 2 ^ 40) (fits : N < 2 ^ 40)
    (good : Good alloc N hs s₄) (apart : ∀ t, IsTable s₄.mem N t ∨ t ∈ hs → ¬ IsTable s₂.mem p4 t) (f : ℕ) :
    ∃ s₅ s₆ s₇, remap_restore p4 s₄ = .ok () s₅ ∧ unmap_page f old_p4_page s₅ = .ok () s₆ ∧ remap_switch N s₆ = .ok () s₇ ∧
      s₇.root = N ∧ Good alloc N hs s₇ ∧ SameTables N s₄.mem s₇.mem := by
  obtain ⟨s₅, restored, scratch₅, slot₅, row₅⟩ := restore_run scratch same cr3 low
  obtain ⟨s₆, released, allocator₆, row₆⟩ := release_keeps scratch₅ f
  have tree := scratch.good.tree
  have same₅ : SameTables p4 s₂.mem s₅.mem :=
    same.trans tree fun t i _ below => row₅ t i below
  have row : ∀ t, IsTable s₄.mem N t ∨ t ∈ hs → ∀ j, s₆.mem t j = s₄.mem t j := by
    intro t new j
    have old := apart t new
    rw [row₆ t (fun table => old ((same₅.isTable tree).mp table)), row₅]
    rintro ⟨rfl, _⟩
    exact old (isTable_top _ _)
  have slot : next (s₆.mem N 511) = some N := by
    rw [row N (.inl (isTable_top _ _))]
    exact good.window.inner
  obtain ⟨s₇, switched, root, -⟩ := switch_run fits slot
  have kept : s₇.mem = s₆.mem ∧ s₇.allocator = s₆.allocator := by
    cases switched
    exact ⟨rfl, rfl⟩
  have same₇ : SameTables N s₄.mem s₇.mem := by
    intro t i table _
    rw [kept.1]
    exact row t (.inl table) i
  refine ⟨s₅, s₆, s₇, restored, released, switched, root, ?_, same₇⟩
  refine Good.activates good same₇ root ?_ ?_ fun g member j => ?_
  · have takes : Takes alloc 0 (remap_restore p4) := takes_restore p4
    rw [kept.2, allocator₆, takes.retains restored]
    exact good.supplies
  · rw [kept.1]
    exact slot
  · rw [kept.1, row g (.inr member)]
    exact good.zero g member j

end

/-- A run of `remap_kernel` to the end of its loops. -/
structure Fills (alloc : A → ℤ × ℕ × A) (data : multiboot_data) (p4 N : ℕ) (gs hs : List ℕ) (s : Machine A) where
  scratched : Machine A
  prepared : Machine A
  redirected : Machine A
  filled : Machine A
  scratch : remap_scratch alloc s = .ok (N, p4) scratched
  clear : remap_clear N scratched = .ok () prepared
  redirect : remap_redirect N prepared = .ok () redirected
  fill : map_pages (map_page_to_frame alloc) (filled_pages data) redirected = .ok () filled
  fits : N < 2 ^ 40
  low : p4 < 2 ^ 20
  before : Scratch alloc p4 N gs scratched
  newMapped : ∃ flags, walk scratched.mem p4 (path new_page) = some (N, flags)
  zero : ∀ j, scratched.mem N j = 0
  behind : Scratch alloc p4 N gs prepared
  bareGood : Good alloc N gs redirected
  bare : ∀ j, j ≠ 511 → redirected.mem N j = 0
  slotOnly : ∀ t i, ¬ (t = p4 ∧ i = 511) → redirected.mem t i = prepared.mem t i
  active : redirected.cr3 = prepared.cr3
  good : Good alloc N hs filled
  linking : Linking filled.mem N
  left : gs.length ≤ hs.length + 3 * (filled_pages data).length
  supply : hs ⊆ gs
  tables : ∀ t, IsTable filled.mem N t → t = N ∨ t ∈ gs
  same : SameTables p4 prepared.mem filled.mem
  cr3 : filled.cr3 = prepared.cr3
  walks : ∀ q, Usable q → walk filled.mem N (path q) =
    (last_flags (filled_pages data) q).map fun flags => (q, present_bit ||| flags)

section
variable {p4 p3 p2 N : ℕ} {data : multiboot_data} {gs hs : List ℕ}

theorem fills (boot : BootTables s.mem p4 p3 p2) (active : s.cr3 / PAGE_SIZE = p4) (ready : Ready alloc p4 (N :: fs) s)
    (acceptable : Acceptable data) (enough : frames_needed data ≤ fs.length + 1) :
    ∃ gs hs, Nonempty (Fills alloc data p4 N gs hs s) ∧ fs.length ≤ gs.length + 6 ∧ gs ⊆ fs := by
  unfold frames_needed at enough
  have fits : N < 2 ^ 40 := ready.fits N List.mem_cons_self
  obtain ⟨s₁, gs, scratched, scratch₁, count, drops, newMapped, zero⟩ := scratch_supply boot active ready (by omega)
  obtain ⟨s₂, cleared, scratch₂, self, bare₂, -⟩ := clear_run scratch₁ fits newMapped zero
  obtain ⟨s₃, redirected, good₃, bare₃, slot₃, cr3₃, row₃⟩ := redirect_run scratch₂ fits self bare₂
  -- In a bare hierarchy nothing is mapped.
  have nothing : ∀ q, Usable q → walk s₃.mem N (path q) = (fun _ => none : Mapping) q := by
    intro q usable
    refine walk_absent ?_
    rw [bare₃]
    · rfl
    · intro slot
      exact usable.ordinary.2 (congrArg some slot)
  obtain ⟨s₄, hs, events, filled, good₄, linking₄, grown, drawn, left, walks₄⟩ :=
    map_pages_keep good₃ (bare_linking bare₃) nothing acceptable.usable (by omega)
  obtain ⟨written, kept⟩ := fill_confined scratch₂ bare₃ grown drawn
  refine ⟨gs, hs, ⟨⟨s₁, s₂, s₃, s₄, scratched, cleared, redirected, filled, fits, boot.low.1, scratch₁, newMapped, zero, scratch₂,
    good₃, bare₃, row₃, cr3₃, good₄, linking₄, left, ?_, ?_, fun t i table below => ((kept t table).2 i).trans (row₃ t i below),
    grown.cr3.trans cr3₃, ?_⟩⟩, count, drops⟩
  · rw [drawn]
    exact List.subset_append_right _ _
  · intro t table
    rcases grown.tables t table with ⟨π, ordinary, reaches⟩ | allocated
    · exact .inl (bare_descend bare₃ ordinary reaches).2
    · refine .inr ?_
      rw [drawn]
      exact List.mem_append_left _ (List.mem_reverse.mpr allocated)
  · intro q usable
    rw [walks₄ q usable, identity_mapping_eq, Option.or_none]

/-- The new hierarchy and the frames that are left are apart from the old hierarchy. -/
theorem Fills.apart (run : Fills alloc data p4 N gs hs s) {t : ℕ} (new : IsTable run.filled.mem N t ∨ t ∈ hs) :
    ¬ IsTable run.prepared.mem p4 t := by
  rcases new with table | supplied
  · rcases run.tables t table with rfl | given
    · exact run.behind.outside
    · exact (run.behind.good.fresh t given).2
  · exact (run.behind.good.fresh t (run.supply supplied)).2

/-- The steps up to the switch leave the new hierarchy as it was filled. -/
theorem Fills.finish (run : Fills alloc data p4 N gs hs s) (f : ℕ) :
    ∃ s₅ s₆ s₇, remap_restore p4 run.filled = .ok () s₅ ∧ unmap_page f old_p4_page s₅ = .ok () s₆ ∧
      remap_switch N s₆ = .ok () s₇ ∧ s₇.root = N ∧ Good alloc N hs s₇ ∧ SameTables N run.filled.mem s₇.mem := by
  have boundary := run.low
  exact remap_finish run.behind run.same run.cr3 (by omega) run.fits run.good (fun _ new => run.apart new) f

section
variable {s₇ : Machine A} (run : Fills alloc data p4 N gs hs s) (same : SameTables N run.filled.mem s₇.mem)
include run same

theorem Fills.walks_kept {q : ℕ} (usable : Usable q) :
    walk s₇.mem N (path q) = (last_flags (filled_pages data) q).map fun flags => (q, present_bit ||| flags) := by
  rw [same.walk run.good.tree usable.ordinary, run.walks q usable]

/-- The guard page is mapped, and so has its tables. -/
theorem Fills.guard_table (guard : p4 ∈ (filled_pages data).map Prod.fst) :
    Usable p4 ∧ ∃ t, descend next s₇.mem N (upper p4) = some t := by
  have boundary := run.low
  have usable : Usable p4 := low_usable (by omega)
  have linking := Linking.same run.linking same run.good.tree
  have clear := linking.plain.clear (π := []) (ρ := upper p4) ordinary_closed usable.ordinary rfl
  refine ⟨usable, descend_of_walk clear (j := last p4) ?_⟩
  obtain ⟨⟨p, old⟩, member, isGuard⟩ := List.mem_map.mp guard
  have isGuard : p = p4 := isGuard
  obtain ⟨flags, found⟩ := last_flags_of_mem (isGuard ▸ member)
  rw [← path, run.walks_kept same usable, found]
  simp

/-- The last step takes the guard page out. -/
theorem Fills.guarded {t : ℕ} (root : s₇.root = N) (good : Good alloc N hs s₇) (usable : Usable p4)
    (reaches : descend next s₇.mem N (upper p4) = some t) (g : ℕ) :
    ∃ s', unmap_page g p4 s₇ = .ok () s' ∧ Remapped alloc data p4 N hs s' ∧ ∀ t, IsTable s'.mem N t → t = N ∨ t ∈ gs := by
  have linking := Linking.same run.linking same run.good.tree
  obtain ⟨s', unmapped, changed⟩ := unmap_page_run (f := g) good usable.ordinary reaches
  obtain ⟨last, more, none⟩ := changed.grown
  have root' : s'.root = N := by rw [← root, Machine.root, Machine.root, more.cr3]
  refine ⟨s', unmapped, ⟨root', changed.good, unmap_links good linking usable.ordinary reaches unmapped, ?_⟩, ?_⟩
  · intro q inside
    rw [hardware, root', indices_page, changed.walks q inside.ordinary, run.walks_kept same inside]
    exact if_congr ⟨fun same => inside.eq_of_path usable same, fun same => same ▸ rfl⟩ rfl rfl
  · intro t table
    have nothing : allocs last = [] := by simpa using none
    rcases more.tables t table with before | allocated
    · exact run.tables t ((same.isTable run.good.tree).mp before)
    · rw [nothing] at allocated
      cases allocated

end

theorem Fills.remap_kernel_eq {s₅ s₆ s₇ : Machine A} {fuel f : ℕ} (run : Fills alloc data p4 N gs hs s)
    (acceptable : Acceptable data) (many : 2 ^ 36 ≤ fuel) (restored : remap_restore p4 run.filled = .ok () s₅)
    (released : unmap_page f old_p4_page s₅ = .ok () s₆) (switched : remap_switch N s₆ = .ok () s₇) (g : ℕ) :
    remap_kernel alloc fuel f g data s = unmap_page g p4 s₇ := by
  have fill : remap_fill alloc fuel data run.redirected = .ok () run.filled := by
    rw [remap_fill_eq acceptable many, run.fill]
  exact Course.remap_kernel_eq
    ⟨_, _, _, _, s₅, s₆, s₇, run.scratch, run.clear, run.redirect, fill, restored, released, switched⟩ g

theorem remap_kernel_leaves (boot : BootTables s.mem p4 p3 p2) (active : s.cr3 / PAGE_SIZE = p4)
    (ready : Ready alloc p4 fs s) (acceptable : Acceptable data) (guard : p4 ∈ (filled_pages data).map Prod.fst)
    (enough : frames_needed data ≤ fs.length) {fuel : ℕ} (many : 2 ^ 36 ≤ fuel) (f g : ℕ) :
    ∃ N hs s', remap_kernel alloc fuel f g data s = .ok () s' ∧ Remapped alloc data p4 N hs s' ∧
      fs.length ≤ hs.length + frames_needed data ∧ hs ⊆ fs ∧ ∀ t, IsTable s'.mem N t → t ∈ fs := by
  have positive : 0 < fs.length := by
    unfold frames_needed at enough
    omega
  obtain ⟨N, fs, rfl⟩ := List.exists_cons_of_length_pos positive
  obtain ⟨gs, hs, ⟨run⟩, count, drops⟩ := fills boot active ready acceptable enough
  obtain ⟨s₅, s₆, s₇, restored, released, switched, root, good, same⟩ := run.finish f
  obtain ⟨usable, t, reaches⟩ := run.guard_table same guard
  obtain ⟨s', unmapped, remapped, tables⟩ := run.guarded same root good usable reaches g
  have left := run.left
  refine ⟨N, hs, s', (run.remap_kernel_eq acceptable many restored released switched g).trans unmapped, remapped, ?_, ?_, ?_⟩
  · unfold frames_needed
    rw [List.length_cons]
    omega
  · exact fun f member => List.mem_cons_of_mem N (drops (run.supply member))
  · intro t table
    rcases tables t table with rfl | given
    · exact List.mem_cons_self
    · exact List.mem_cons_of_mem N (drops given)

end

/-- From the boot hierarchy, with frames supplied and the page of the old level 4 table among those
    that are mapped, `remap_kernel` returns, and the hardware maps exactly the pages of the list. -/
theorem remap_kernel_maps {p4 p3 p2 : ℕ} {data : multiboot_data} (boot : BootTables s.mem p4 p3 p2)
    (active : s.cr3 / PAGE_SIZE = p4) (ready : Ready alloc p4 fs s) (acceptable : Acceptable data)
    (guard : p4 ∈ (filled_pages data).map Prod.fst) (enough : frames_needed data ≤ fs.length) :
    ∃ least, ∀ fuel ≥ least, ∀ f g, ∃ N hs s', remap_kernel alloc fuel f g data s = .ok () s' ∧
      Remapped alloc data p4 N hs s' ∧ fs.length ≤ hs.length + frames_needed data ∧ hs ⊆ fs ∧
        ∀ t, IsTable s'.mem N t → t ∈ fs :=
  ⟨2 ^ 36, fun _ many f g => remap_kernel_leaves boot active ready acceptable guard enough many f g⟩

/-- The sections of a kernel: the page of the boot level 4 table is the third one of its data. -/
def guarded_data : multiboot_data :=
  { small_data with sectionheaders :=
      [{ sh_flags := shf_alloc ||| shf_write, sh_addr := 0xff000, sh_size := 0x3a10 },
       { sh_flags := shf_alloc ||| shf_execinstr, sh_addr := 0x109000, sh_size := 0x1110 }] }

theorem guarded_data_acceptable : Acceptable guarded_data where
  sections h member _ := by
    rcases List.mem_cons.mp member with rfl | member
    · decide
    · obtain rfl := List.mem_singleton.mp member
      decide
  multiboot := by decide

theorem remap_kernel_maps_boot : ∃ least, ∀ fuel ≥ least, ∀ f g, ∃ N hs s',
    remap_kernel from_list fuel f g guarded_data (machine (List.range' 0x200 32)) = .ok () s' ∧
      Remapped from_list guarded_data 0x101 N hs s' ∧
        (List.range' 0x200 32).length ≤ hs.length + frames_needed guarded_data ∧ hs ⊆ List.range' 0x200 32 ∧
          ∀ t, IsTable s'.mem N t → t ∈ List.range' 0x200 32 := by
  have good : Good from_list 0x101 (List.range' 0x200 32) (machine (List.range' 0x200 32)) :=
    machine_good (by decide) (by decide)
  exact remap_kernel_maps (machine_boot _) (by decide) good.toReady guarded_data_acceptable (by decide) (by decide)

/-! ### The rights of its pages -/

/-- The entries permit writing and execution as the flags of the page say, and user mode to none. -/
theorem Remapped.permits {p4 N : ℕ} {data : multiboot_data} (remapped : Remapped alloc data p4 N fs s) {q : ℕ} (usable : Usable q)
    (right : Right) : permits s.mem s.root (indices (q * PAGE_SIZE)) right =
      if q = p4 then false
      else (last_flags (filled_pages data) q).any fun flags => right != .user && grants right (present_bit ||| flags) := by
  have linking := remapped.linking
  have walks := remapped.mapping q usable
  rw [← remapped.root] at linking
  rw [hardware] at walks
  rw [indices_page] at walks ⊢
  rw [linking.permits usable.ordinary, walks]
  split
  · rfl
  · rw [Option.any_map]

/-- What the entries of an address space permit over the sections of the kernel, and what the
    processor allows then. -/
structure Protected (data : multiboot_data) (p4 : ℕ) (s : Machine A) : Prop where
  /-- A page of a section that is listed with one set of flags, and is not the guard page, is permitted
      what the section is; but with CR0.WP clear the kernel writes it all the same. -/
  sections : ∀ h ∈ data.sectionheaders, ∀ q flags, (q, flags) ∈ section_pages h → q ≠ p4 →
    (∀ page ∈ filled_pages data, page.1 = q → page.2 = flags) →
      permits s.mem s.root (indices (q * PAGE_SIZE)) .write = elf_section_is_writable h ∧
      permits s.mem s.root (indices (q * PAGE_SIZE)) .execute = elf_section_is_exectuable h ∧
      ∀ c, allows (enable_no_exec c) s.mem s.root (indices (q * PAGE_SIZE)) .kernel .write =
          (!c.write_protect || elf_section_is_writable h) ∧
        allows (enable_no_exec c) s.mem s.root (indices (q * PAGE_SIZE)) .kernel .execute = elf_section_is_exectuable h
  user : ∀ q, Usable q → permits s.mem s.root (indices (q * PAGE_SIZE)) .user = false ∧
    ∀ c use, allows c s.mem s.root (indices (q * PAGE_SIZE)) .user use = false
  exclusive : (∀ h ∈ data.sectionheaders, elf_section_is_allocated h = true →
      ¬ (elf_section_is_writable h = true ∧ elf_section_is_exectuable h = true)) →
    ∀ q, Usable q → ¬ (permits s.mem s.root (indices (q * PAGE_SIZE)) .write = true ∧
      permits s.mem s.root (indices (q * PAGE_SIZE)) .execute = true)

theorem section_flags_grants (h : multiboot_elf_section_header) :
    grants .write (present_bit ||| section_flags h) = elf_section_is_writable h ∧
      grants .execute (present_bit ||| section_flags h) = elf_section_is_exectuable h := by
  unfold section_flags
  cases elf_section_is_exectuable h <;> cases elf_section_is_writable h <;> decide

/-- Every page of the list has the flags of an allocated section, or cannot be executed. -/
theorem filled_flags {data : multiboot_data} {q flags : ℕ} (member : (q, flags) ∈ filled_pages data) :
    (∃ h ∈ data.sectionheaders, elf_section_is_allocated h = true ∧ flags = section_flags h) ∨
      grants .execute (present_bit ||| flags) = false := by
  rcases List.mem_append.mp member with inSections | rest
  · obtain ⟨h, inList, here⟩ := List.mem_flatMap.mp inSections
    obtain ⟨allocated, _, _, _, same⟩ := mem_section_pages.mp here
    exact .inl ⟨h, inList, allocated, same⟩
  · refine .inr ?_
    rcases List.mem_cons.mp rest with same | inBlock
    · cases same
      decide
    · obtain ⟨_, _, same⟩ := List.mem_map.mp inBlock
      cases same
      decide

theorem Remapped.protects {p4 N : ℕ} {data : multiboot_data} (remapped : Remapped alloc data p4 N fs s)
    (acceptable : Acceptable data) : Protected data p4 s := by
  refine ⟨fun h inList q flags member other same => ?_, fun q usable => ?_, fun exclusive q usable both => ?_⟩
  · have listed : (q, flags) ∈ filled_pages data := List.mem_append_left _ (List.mem_flatMap.mpr ⟨h, inList, member⟩)
    have usable : Usable q := low_usable (acceptable.usable _ listed).1
    obtain ⟨last, found⟩ := last_flags_of_mem listed
    obtain rfl : last = flags := same _ (last_flags_mem found) rfl
    obtain ⟨_, _, _, _, rfl⟩ := mem_section_pages.mp member
    obtain ⟨granted, executed⟩ := section_flags_grants h
    have write : Access.permits s.mem s.root (indices (q * PAGE_SIZE)) .write = elf_section_is_writable h := by
      rw [remapped.permits usable, if_neg other, found]
      exact granted
    have execute : Access.permits s.mem s.root (indices (q * PAGE_SIZE)) .execute = elf_section_is_exectuable h := by
      rw [remapped.permits usable, if_neg other, found]
      exact executed
    have mapped : (walk s.mem s.root (indices (q * PAGE_SIZE))).isSome = true := by
      have walks := remapped.mapping q usable
      rw [hardware, if_neg other, found] at walks
      rw [walks]
      rfl
    refine ⟨write, execute, fun c => ?_⟩
    rw [kernel_writes, kernel_executes, mapped, write, execute, Bool.true_and]
    exact ⟨rfl, rfl⟩
  · have barred : Access.permits s.mem s.root (indices (q * PAGE_SIZE)) .user = false := by
      rw [remapped.permits usable]
      split
      · rfl
      · simp
    exact ⟨barred, fun c use => user_barred barred c use⟩
  · rw [remapped.permits usable, remapped.permits usable] at both
    by_cases isGuard : q = p4
    · rw [if_pos isGuard] at both
      cases both.1
    · rw [if_neg isGuard, if_neg isGuard] at both
      cases found : last_flags (filled_pages data) q with
      | none =>
        rw [found] at both
        cases both.1
      | some flags =>
        rw [found] at both
        obtain ⟨writes, executes⟩ := both
        change grants .write (present_bit ||| flags) = true at writes
        change grants .execute (present_bit ||| flags) = true at executes
        rcases filled_flags (last_flags_mem found) with ⟨h, inList, allocated, rfl⟩ | never
        · obtain ⟨write, execute⟩ := section_flags_grants h
          exact exclusive h inList allocated ⟨write ▸ writes, execute ▸ executes⟩
        · rw [never] at executes
          cases executes

/-- After `remap_kernel` the entries permit the sections their rights, no page is open to user mode, and none is
    permitted both writing and execution unless a section is; the kernel writes any mapped page while CR0.WP is clear. -/
theorem remap_kernel_protects {p4 p3 p2 : ℕ} {data : multiboot_data} (boot : BootTables s.mem p4 p3 p2)
    (active : s.cr3 / PAGE_SIZE = p4) (ready : Ready alloc p4 fs s) (acceptable : Acceptable data)
    (guard : p4 ∈ (filled_pages data).map Prod.fst) (enough : frames_needed data ≤ fs.length) :
    ∃ least, ∀ fuel ≥ least, ∀ f g, ∃ s', remap_kernel alloc fuel f g data s = .ok () s' ∧ Protected data p4 s' := by
  refine ⟨2 ^ 36, fun fuel many f g => ?_⟩
  obtain ⟨_, _, s', ran, remapped, -⟩ := remap_kernel_leaves boot active ready acceptable guard enough many f g
  exact ⟨s', ran, remapped.protects acceptable⟩

theorem remap_kernel_protects_boot : ∃ least, ∀ fuel ≥ least, ∀ f g, ∃ s',
    remap_kernel from_list fuel f g guarded_data (machine (List.range' 0x200 32)) = .ok () s' ∧
      Protected guarded_data 0x101 s' := by
  have good : Good from_list 0x101 (List.range' 0x200 32) (machine (List.range' 0x200 32)) :=
    machine_good (by decide) (by decide)
  exact remap_kernel_protects (machine_boot _) (by decide) good.toReady guarded_data_acceptable (by decide) (by decide)

end
end OsC.AddressSpace
