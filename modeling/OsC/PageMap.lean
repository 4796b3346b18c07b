import OsC.Tables

/-!
Page tables as a finite map. Where the tables of a hierarchy form a tree and no
entry on the way maps a page itself, mapping and unmapping a page change the
walk of that page and of no other (`map_page_run`, `unmap_page_run`), whichever
tables are added. Any sequence of operations therefore is the same sequence of
updates of a map from pages to frames and attributes (`operations_refine`).
-/
namespace OsC.PageMap
open OsC.Frames OsC.Loop OsC.Entry OsC.Radix OsC.Walk OsC.Paging OsC.Recursive OsC.Tables

section
variable {A : Type} {alloc : A → ℤ × ℕ × A} {s s' : Machine A} {top : ℕ} {fs fs' : List ℕ}

/-- The hierarchy below `top` is a tree, and the active table, if it is not `top`, is not part of it. -/
structure Good (alloc : A → ℤ × ℕ × A) (top : ℕ) (fs : List ℕ) (s : Machine A) : Prop extends
    Ready alloc top fs s where
  tree : Tree next s.mem top Ordinary
  apart : s.root = top ∨ ¬ IsTable s.mem top s.root

/-- No entry at the end of a path of `D` is present and maps a page itself. -/
def Plain (mem : Tables) (top : ℕ) (D : List Index → Prop) : Prop :=
  ∀ π i t, D (π ++ [i]) → descend next mem top π = some t → present (mem t i) = true → huge (mem t i) = false

theorem Plain.clear {mem : Tables} {D : List Index → Prop} (closed : Closed D) (plain : Plain mem top D)
    {π ρ : List Index} {t : ℕ} (inside : D (π ++ ρ)) (reaches : descend next mem top π = some t) : Clear mem t ρ := by
  induction ρ generalizing π t with
  | nil => trivial
  | cons i ρ ih =>
    rw [List.append_cons π i ρ] at inside
    refine ⟨plain π i t (closed _ _ (List.prefix_append _ ρ) inside) reaches, fun u table => ?_⟩
    exact ih inside ((descend_snoc reaches).trans table)

/-! ### Links in a tree -/

theorem Good.step (good : Good alloc top fs s) (step : Step alloc top (s, fs) (s', fs')) : Good alloc top fs' s' := by
  refine ⟨good.toReady.step step, ?_, ?_⟩
  · cases step with
    | quiet quiet => exact good.tree
    | link links absent inside given stored allocated => exact links.keeps_tree good.tree ordinary_closed
  · cases step with
    | quiet quiet => exact good.apart
    | @link _ f _ π t i a events links absent inside given stored allocated =>
      refine good.apart.imp_right fun notTable => ?_
      rintro ⟨ρ, ordinary, reaches⟩
      rcases links.reaches_old reaches with same | before
      · exact (good.fresh f List.mem_cons_self).1 same.symm
      · exact notTable ⟨ρ, ordinary, before⟩

theorem Plain.step {D : List Index → Prop} (sub : ∀ π, D π → Ordinary π) (plain : Plain s.mem top D)
    (good : Good alloc top fs s) (step : Step alloc top (s, fs) (s', fs')) : Plain s'.mem top D := by
  cases step with
  | quiet quiet => exact plain
  | @link _ f _ π t i a events links absent inside given stored allocated =>
    intro ρ j u inD reaches isPresent
    have ordinary := ordinary_closed ρ _ (List.prefix_append ρ [j]) (sub _ inD)
    change descend next (put s.mem t i (link f)) top ρ = some u at reaches
    change present (put s.mem t i (link f) u j) = true at isPresent
    change huge (put s.mem t i (link f) u j) = false
    by_cases new : u = f
    · subst new
      rw [put_row links.apart, good.zero u List.mem_cons_self] at isPresent
      exact absurd isPresent (by decide)
    · have before := (links.reaches_old reaches).resolve_left new
      by_cases here : u = t ∧ j = i
      · obtain ⟨rfl, rfl⟩ := here
        rw [put_same]
        exact huge_link f
      · rw [put_other here] at isPresent ⊢
        exact plain ρ j u inD before isPresent

/-- The indices of a page at all levels. -/
def path (page : ℕ) : List Index := upper page ++ [last page]

theorem path_inside {page : ℕ} (outside : Ordinary (upper page)) {σ : List Index} {j : Index}
    (here : σ ++ [j] <+: path page) : Ordinary σ := by
  rcases List.prefix_concat_iff.mp here with whole | before
  · obtain ⟨rfl, _⟩ := List.append_inj' whole rfl
    exact outside
  · exact ordinary_closed σ _ ((List.prefix_append σ [j]).trans before) outside

/-- The pages outside the recursive slot walk as before. -/
def SameWalks (top : ℕ) (s s' : Machine A) : Prop :=
  ∀ page, Ordinary (upper page) → walk s'.mem top (path page) = walk s.mem top (path page)

theorem SameWalks.step (good : Good alloc top fs s) (step : Step alloc top (s, fs) (s', fs')) :
    SameWalks top s s' := by
  cases step with
  | quiet quiet => exact fun _ _ => rfl
  | @link _ f _ π t i a events links absent inside given stored allocated =>
    intro page outside
    have below : π.length + 1 < (path page).length := by
      have := inside.1
      simp at this
      simp [path, upper]
      omega
    have empty : ∀ j, present (s.mem f j) = false := fun j => by rw [good.zero f List.mem_cons_self]; rfl
    exact walk_link good.tree links absent empty (fun σ j => path_inside outside) below

/-- What a sequence of links keeps in a tree. -/
theorem Good.linked (good : Good alloc top fs s) (linked : Linked alloc top (s, fs) (s', fs')) :
    Good alloc top fs' s' ∧ SameWalks top s s' ∧
      ∀ D, (∀ π, D π → Ordinary π) → Plain s.mem top D → Plain s'.mem top D := by
  refine linked_keeps (I := fun u gs => Good alloc top gs u ∧ SameWalks top s u ∧
    ∀ D, (∀ π, D π → Ordinary π) → Plain s.mem top D → Plain u.mem top D) ?_
    ⟨good, fun _ _ => rfl, fun _ _ plain => plain⟩ linked
  rintro u gs v hs ⟨good, same, keeps⟩ step
  refine ⟨good.step step, fun page outside => ?_, fun D sub plain => (keeps D sub plain).step sub good step⟩
  exact (SameWalks.step good step page outside).trans (same page outside)

/-! ### Changing an entry of the last level -/

section
variable {π : List Index} {t : ℕ} {j : Index} {e : ℕ} {events : List Event}

/-- An entry of a table of the last level is changed. -/
structure Leaf (top : ℕ) (s : Machine A) (π : List Index) (t : ℕ) : Prop where
  ordinary : Ordinary π
  length : π.length = 3
  reaches : descend next s.mem top π = some t

theorem Leaf.descend (leaf : Leaf top s π t) (tree : Tree next s.mem top Ordinary) {ρ : List Index}
    (ordinary : Ordinary ρ) : descend next (put s.mem t j e) top ρ = descend next s.mem top ρ := by
  refine descend_put_apart tree ordinary_closed leaf.ordinary leaf.reaches ordinary fun longer => ?_
  have := longer.length_le
  have := ordinary.1
  have := leaf.length
  simp at *
  omega

theorem Leaf.isTable (leaf : Leaf top s π t) (tree : Tree next s.mem top Ordinary) {f : ℕ} :
    IsTable (put s.mem t j e) top f ↔ IsTable s.mem top f :=
  exists_congr fun _ => and_congr_right fun ordinary => by rw [leaf.descend tree ordinary]

theorem Leaf.good (leaf : Leaf top s π t) (good : Good alloc top fs s) (events : List Event) :
    Good alloc top fs (logs { s with mem := put s.mem t j e } events) := by
  have table : IsTable s.mem top t := ⟨π, leaf.ordinary, leaf.reaches⟩
  have notTop : top ≠ t := by
    rintro rfl
    have := good.tree [] π top ordinary_nil leaf.ordinary rfl leaf.reaches
    have := leaf.length
    simp_all
  have notRoot : s.root ≠ t := by
    rcases good.apart with same | notTable
    · rwa [same]
    · rintro rfl
      exact notTable table
  have isTable := fun f => leaf.isTable (j := j) (e := e) (f := f) good.tree
  refine ⟨⟨⟨?_, ?_⟩, good.supplies, good.fits, fun f member i => ?_, fun f member => ?_, good.distinct⟩, ?_, ?_⟩
  · exact (congrArg next (put_row notRoot 511)).trans good.window.outer
  · exact (congrArg next (put_row notTop 511)).trans good.window.inner
  · have other : f ≠ t := by
      rintro rfl
      exact (good.fresh f member).2 table
    exact (put_row other i).trans (good.zero f member i)
  · exact ⟨(good.fresh f member).1, fun inside => (good.fresh f member).2 ((isTable f).mp inside)⟩
  · intro σ ρ u left right first second
    exact good.tree σ ρ u left right ((leaf.descend good.tree left).symm.trans first)
      ((leaf.descend good.tree right).symm.trans second)
  · exact good.apart.imp_right fun notTable inside => notTable ((isTable s.root).mp inside)

theorem Leaf.grown (leaf : Leaf top s π t) (tree : Tree next s.mem top Ordinary) (stored : stores events = [(t, j)])
    (none : allocs events = []) : Grown top s (logs { s with mem := put s.mem t j e } events) events := by
  refine ⟨rfl, rfl, ?_, by simp [none], ?_, fun f inside => .inl ((leaf.isTable tree).mp inside), ?_⟩
  · intro x member
    rw [stored, List.mem_singleton] at member
    subst member
    exact .inl ⟨π, leaf.ordinary, leaf.reaches⟩
  · intro f i outside
    rw [stored, List.mem_singleton] at outside
    exact put_other fun here => outside (Prod.ext here.1 here.2)
  · exact fun ρ f ordinary reaches => (leaf.descend tree ordinary).trans reaches

theorem Leaf.plain {D : List Index → Prop} (leaf : Leaf top s π t) (tree : Tree next s.mem top Ordinary)
    (sub : ∀ π, D π → Ordinary π) (plain : Plain s.mem top D) : Plain (put s.mem t j e) top D := by
  intro ρ i u inside reaches
  have ordinary := ordinary_closed ρ _ (List.prefix_append ρ [i]) (sub _ inside)
  rw [leaf.descend tree ordinary] at reaches
  have other : u ≠ t := by
    rintro rfl
    have same := tree ρ π u ordinary leaf.ordinary reaches leaf.reaches
    have short := (sub _ inside).1
    have := leaf.length
    rw [← same] at this
    simp at short
    omega
  rw [put_row other]
  exact plain ρ i u inside reaches

end

/-! ### One operation -/

/-- An operation changed the walk of one page, and kept the hierarchy in shape. -/
structure Changed (alloc : A → ℤ × ℕ × A) (top : ℕ) (fs fs' : List ℕ) (s s' : Machine A) (page : ℕ)
    (result : Option (ℕ × ℕ)) : Prop where
  good : Good alloc top fs' s'
  walks : ∀ q, Ordinary (upper q) →
    walk s'.mem top (path q) = if path q = path page then result else walk s.mem top (path q)
  plain : ∀ D, (∀ π, D π → Ordinary π) → Plain s.mem top D → Plain s'.mem top D
  grown : ∃ events, Grown top s s' events ∧ fs = (allocs events).reverse ++ fs'

theorem Leaf.changed {page t e : ℕ} {events : List Event} (leaf : Leaf top s (upper page) t)
    (good : Good alloc top fs s) (stored : stores events = [(t, last page)]) (none : allocs events = []) :
    Changed alloc top fs fs s (logs { s with mem := put s.mem t (last page) e } events) page
      (if present e then some (address e, attributes e) else .none) := by
  refine ⟨leaf.good good events, fun q outside => ?_, fun D sub => leaf.plain good.tree sub,
    ⟨events, leaf.grown good.tree stored none, by simp [none]⟩⟩
  exact walk_leaf good.tree ordinary_closed leaf.ordinary leaf.reaches (fun σ j => path_inside outside) rfl

theorem present_clear {flags : ℕ} (noAddress : flags &&& physical_addr_mask = 0) :
    (present_bit ||| flags) &&& addressMask = 0 := by
  rw [Nat.and_or_distrib_right, show flags &&& addressMask = 0 from noAddress]
  rfl

theorem map_page_run {page f flags : ℕ} (good : Good alloc top fs s) (outside : Ordinary (upper page))
    (clear : Clear s.mem top (upper page)) (enough : missing s.mem top (upper page) ≤ fs.length)
    (fits : f < 2 ^ 40) (noAddress : flags &&& physical_addr_mask = 0) :
    ∃ s', map_page_to_frame alloc page f flags s = .ok () s' ∧
      Changed alloc top fs (fs.drop (missing s.mem top (upper page))) s s' page (some (f, present_bit ||| flags)) := by
  obtain ⟨s₁, t, ran, linked, reaches⟩ := create_run (π := []) (ρ := upper page) good.toReady outside rfl
    clear enough
  rw [List.nil_append] at ran reaches
  obtain ⟨good₁, same, keeps⟩ := good.linked linked
  obtain ⟨early, grown, drawn⟩ := grown_of_linked linked
  have leaf : Leaf top s₁ (upper page) t := ⟨outside, rfl, reaches⟩
  have stored := set_page_table_entry_run good₁.window (π := upper page) (le_refl 3) reaches (last page) fits
    (present_bit ||| flags)
  have changed := leaf.changed (e := f * 4096 ||| (present_bit ||| flags)) good₁
    (show stores [.store (entry_addr (recursive (upper page)) (last page)) t (last page)] = _ from rfl) rfl
  have clean := present_clear noAddress
  have isPresent : present (f * 4096 ||| (present_bit ||| flags)) = true := by
    rw [present_or, present, Nat.testBit_or]
    rfl
  rw [if_pos isPresent, address_or fits clean, attributes_or fits clean] at changed
  obtain ⟨late, more, rest⟩ := changed.grown
  refine ⟨_, ?_, changed.good, fun q inside => ?_, fun D sub plain => changed.plain D sub (keeps D sub plain),
    ⟨late ++ early, grown.trans more, ?_⟩⟩
  · rw [map_page_to_frame_eq, bind_ok ran]
    exact stored
  · rw [changed.walks q inside, same q inside]
  · rw [allocs_append, List.reverse_append, List.append_assoc, ← rest]
    exact drawn

/-- Among the paths without a huge entry, three frames are enough. -/
theorem map_plain_run {D : List Index → Prop} {page f flags : ℕ} (good : Good alloc top fs s) (closed : Closed D)
    (sub : ∀ π, D π → Ordinary π) (plain : Plain s.mem top D) (inside : D (upper page)) (enough : 3 ≤ fs.length)
    (fits : f < 2 ^ 40) (noAddress : flags &&& physical_addr_mask = 0) :
    ∃ s' fs', map_page_to_frame alloc page f flags s = .ok () s' ∧
      Changed alloc top fs fs' s s' page (some (f, present_bit ||| flags)) ∧ fs.length ≤ fs'.length + 3 := by
  have count : missing s.mem top (upper page) ≤ 3 := missing_le s.mem top (upper page)
  have clear := plain.clear (π := []) (ρ := upper page) closed inside rfl
  obtain ⟨s', ran, changed⟩ := map_page_run good (sub _ inside) clear (le_trans count enough) fits noAddress
  refine ⟨s', _, ran, changed, ?_⟩
  rw [List.length_drop]
  omega

theorem descened_page_table_next {π : List Index} {t u : ℕ} {i : Index} (window : Window s.mem s.root top)
    (short : π.length ≤ 2) (reaches : descend next s.mem top π = some t) (table : next (s.mem t i) = some u) :
    ∃ events, Quiet events ∧ descened_page_table (recursive π) i s = .ok (recursive (π ++ [i])) (logs s events) ∧
      descend next s.mem top (π ++ [i]) = some u := by
  obtain ⟨events, quiet, ran⟩ := descened_page_table_run window short reaches i
  rw [if_pos (next_eq_some.mp table).1] at ran
  exact ⟨events, quiet, ran, (descend_snoc reaches).trans table⟩

/-- `descened_page_table` along indices. -/
def descend_tables : ℕ → List Index → Kernel A ℕ
  | table, [] => pure table
  | table, i :: ρ => do
    let table ← descened_page_table table i
    descend_tables table ρ

/-- The descents of a page whose tables are all present. -/
theorem descend_tables_run {π ρ : List Index} {t u : ℕ} (window : Window s.mem s.root top)
    (short : (π ++ ρ).length ≤ 3) (reaches : descend next s.mem top π = some t)
    (more : descend next s.mem t ρ = some u) :
    ∃ events, Quiet events ∧ descend_tables (recursive π) ρ s = .ok (recursive (π ++ ρ)) (logs s events) := by
  induction ρ generalizing π t s with
  | nil => exact ⟨[], ⟨rfl, rfl⟩, by simp [descend_tables]; rfl⟩
  | cons i ρ ih =>
    rw [List.append_cons π i ρ] at short ⊢
    obtain ⟨v, table, rest⟩ := Option.bind_eq_some_iff.mp more
    obtain ⟨e₁, q₁, ran₁, down⟩ := descened_page_table_next window (by simp at short; omega) reaches table
    obtain ⟨e₂, q₂, ran₂⟩ := ih (s := logs s e₁) window short down rest
    refine ⟨e₂ ++ e₁, q₂.append q₁, ?_⟩
    rw [descend_tables, bind_ok ran₁, ran₂, logs_logs]

theorem unmap_page_eq (f page : ℕ) : (unmap_page f page : Kernel A Unit) = (do
    let table ← descend_tables (recursive []) (upper page)
    set_unused (entry_addr table (last page))
    let (_, frame) ← get_physical_frame (entry_addr table (last page)) f
    deallocate_frame frame
    flush_tlb) := by
  obtain ⟨p4, p3, p2, p1⟩ := page_indices page
  simp only [unmap_page, upper, List.map, descend_tables, p4, p3, p2, p1, bind_assoc, pure_bind]
  rfl

/-- The accesses of `unmap_page` behind the descent: it reads the entry after it has cleared it. -/
def unmap_events (s : Machine A) (page t f : ℕ) : List Event :=
  [.wrote_cr3 s.cr3, .deallocated f, .load (entry_addr (recursive (upper page)) (last page)) t (last page),
    .store (entry_addr (recursive (upper page)) (last page)) t (last page)]

theorem unmap_page_logs {page t f : ℕ} (good : Good alloc top fs s) (outside : Ordinary (upper page))
    (reaches : descend next s.mem top (upper page) = some t) : ∃ first, Quiet first ∧
      descend_tables (recursive []) (upper page) s = .ok (recursive (upper page)) (logs s first) ∧
      unmap_page f page s =
        .ok () (logs { s with mem := put s.mem t (last page) 0x0 } (unmap_events s page t f ++ first)) := by
  have leaf : Leaf top s (upper page) t := ⟨outside, rfl, reaches⟩
  obtain ⟨first, quiet, ran⟩ := descend_tables_run good.window (π := []) (ρ := upper page) (le_refl 3) rfl reaches
  rw [List.nil_append] at ran
  obtain ⟨s₁, same⟩ : ∃ s₁, s₁ = logs { s with mem := put s.mem t (last page) 0x0 }
    ([.store (entry_addr (recursive (upper page)) (last page)) t (last page)] ++ first) := ⟨_, rfl⟩
  have cleared : store (entry_addr (recursive (upper page)) (last page)) 0x0 (logs s first) = .ok () s₁ := by
    rw [store_entry (s := logs s first) good.window (le_refl 3) reaches (last page), same]
    simp [logs]
  have good₁ : Good alloc top fs s₁ := by rw [same]; exact leaf.good good _
  have reaches₁ : descend next s₁.mem top (upper page) = some t := by
    rw [same]
    exact (leaf.descend good.tree outside).trans reaches
  have loaded := load_run (good₁.window.resolve (π := upper page) (le_refl 3) reaches₁ (last page))
  have zero : s₁.mem t (last page) = 0 := by rw [same]; exact put_same
  have gone : get_physical_frame (entry_addr (recursive (upper page)) (last page)) f s₁ =
      .ok (-1, f) (logs s₁ [.load (entry_addr (recursive (upper page)) (last page)) t (last page)]) := by
    rw [get_physical_frame, bind_ok loaded, zero]
    rfl
  refine ⟨first, quiet, ran, ?_⟩
  rw [unmap_page_eq, bind_ok ran, set_unused, bind_ok cleared, bind_ok gone, same]
  simp [logs, unmap_events]
  rfl

theorem unmap_page_run {page t f : ℕ} (good : Good alloc top fs s) (outside : Ordinary (upper page))
    (reaches : descend next s.mem top (upper page) = some t) :
    ∃ s', unmap_page f page s = .ok () s' ∧ Changed alloc top fs fs s s' page none := by
  have leaf : Leaf top s (upper page) t := ⟨outside, rfl, reaches⟩
  obtain ⟨first, quiet, -, ran⟩ := unmap_page_logs (f := f) good outside reaches
  refine ⟨_, ran, leaf.changed good ?_ ?_⟩
  · rw [stores_append, quiet.1]
    rfl
  · rw [allocs_append, quiet.2]
    rfl

/-! ### Sequences of operations -/

/-- `uninit` is what the variable for the frame holds in `unmap_page`. -/
inductive Operation
  | map (page frame flags : ℕ)
  | unmap (uninit page : ℕ)

def Operation.perform (alloc : A → ℤ × ℕ × A) : Operation → Kernel A Unit
  | .map page frame flags => map_page_to_frame alloc page frame flags
  | .unmap uninit page => unmap_page uninit page

/-- The frames and attributes of the mapped pages. -/
abbrev Mapping := ℕ → Option (ℕ × ℕ)

def Operation.apply (m : Mapping) : Operation → Mapping
  | .map page frame flags => Function.update m page (some (frame, present_bit ||| flags))
  | .unmap _ page => Function.update m page none

/-- The frames that an operation may need for tables. -/
def Operation.tables : Operation → ℕ
  | .map _ _ _ => 3
  | .unmap _ _ => 0

/-- The pages of canonical addresses outside the recursive slot. -/
def Usable (page : ℕ) : Prop :=
  (page < 2 ^ 35 ∨ 2 ^ 52 - 2 ^ 35 ≤ page ∧ page < 2 ^ 52) ∧ get_p4_index page ≠ 511

/-- The operations are for usable pages, map frames that an entry can hold, with
    flags outside the address, and unmap only mapped pages. -/
def Allowed : Mapping → List Operation → Prop
  | _, [] => True
  | m, op :: ops =>
    (match op with
      | .map page frame flags => Usable page ∧ frame < 2 ^ 40 ∧ flags &&& physical_addr_mask = 0
      | .unmap _ page => Usable page ∧ m page ≠ none) ∧ Allowed (op.apply m) ops

/-- What the hardware walk gives for the address of a page. -/
def hardware (s : Machine A) : Mapping := fun page => walk s.mem s.root (indices (page * PAGE_SIZE))

/-- The indices of an address are those of its page. -/
theorem indices_eq_path (vaddr : ℕ) : indices vaddr = path (vaddr / PAGE_SIZE) := by
  have shift : ∀ bit, vaddr / PAGE_SIZE / 2 ^ bit = vaddr / 2 ^ (bit + 12) := by
    intro bit
    rw [Nat.div_div_eq_div_mul, Nat.pow_add, Nat.mul_comm]
    rfl
  simp only [path, upper, last, List.map, shift]
  rfl

theorem indices_page (page : ℕ) : indices (page * PAGE_SIZE) = path page := by
  rw [indices_eq_path, Nat.mul_div_cancel _ (by decide)]

theorem Usable.ordinary {page : ℕ} (usable : Usable page) : Ordinary (upper page) := by
  refine ⟨le_refl 3, fun head => usable.2 ?_⟩
  rw [(page_indices page).1]
  exact congrArg Fin.val (Option.some.inj head)

/-- A page is determined by its indices. -/
theorem Usable.eq_of_path {p q : ℕ} (left : Usable p) (right : Usable q) (same : path p = path q) : p = q := by
  have leftRange := left.1
  have rightRange := right.1
  simp only [path, upper, last, List.map, List.cons_append, List.nil_append, List.cons.injEq, and_true] at same
  obtain ⟨p4, p3, p2, p1⟩ := same
  have p4 : p / 2 ^ 27 % 512 = q / 2 ^ 27 % 512 := congrArg Fin.val p4
  have p3 : p / 2 ^ 18 % 512 = q / 2 ^ 18 % 512 := congrArg Fin.val p3
  have p2 : p / 2 ^ 9 % 512 = q / 2 ^ 9 % 512 := congrArg Fin.val p2
  have p1 : p % 512 = q % 512 := congrArg Fin.val p1
  omega

/-- A mapped page has all its tables. -/
theorem descend_of_walk {mem : Tables} {t : ℕ} {ρ : List Index} {j : Index} (clear : Clear mem t ρ)
    (mapped : walk mem t (ρ ++ [j]) ≠ none) : ∃ u, descend next mem t ρ = some u := by
  induction ρ generalizing t with
  | nil => exact ⟨t, rfl⟩
  | cons i ρ ih =>
    cases isPresent : present (mem t i) with
    | false => exact absurd (walk_absent isPresent) mapped
    | true =>
      have table := next_of_present isPresent (clear.1 isPresent)
      rw [List.cons_append, walk_next (by simp) table] at mapped
      obtain ⟨u, reaches⟩ := ih (clear.2 _ table) mapped
      exact ⟨u, by simpa [descend, table] using reaches⟩

/-- One operation updates the map of the hardware walks. -/
theorem operation_run {op : Operation} {m : Mapping} {ops : List Operation} (good : Good alloc s.root fs s)
    (plain : Plain s.mem s.root Ordinary) (agree : ∀ q, Usable q → hardware s q = m q) (allowed : Allowed m (op :: ops))
    (enough : op.tables ≤ fs.length) :
    ∃ s' gs, op.perform alloc s = .ok () s' ∧ s'.root = s.root ∧ fs.length ≤ gs.length + op.tables ∧
      Good alloc s.root gs s' ∧ Plain s'.mem s.root Ordinary ∧ ∀ q, Usable q → hardware s' q = op.apply m q := by
  -- Both operations change the walk of one page.
  have finish : ∀ {s' page result} {gs : List ℕ}, Usable page → Changed alloc s.root fs gs s s' page result →
      s'.root = s.root ∧ Plain s'.mem s.root Ordinary ∧
        ∀ q, Usable q → hardware s' q = Function.update m page result q := by
    intro s' page result gs usable changed
    obtain ⟨events, grown, -⟩ := changed.grown
    have root : s'.root = s.root := by rw [Machine.root, Machine.root, grown.cr3]
    refine ⟨root, changed.plain Ordinary (fun _ inside => inside) plain, fun q inside => ?_⟩
    rw [hardware, root, indices_page, changed.walks q inside.ordinary, Function.update_apply, ← agree q inside,
      hardware, indices_page]
    exact if_congr ⟨fun same => inside.eq_of_path usable same, fun same => same ▸ rfl⟩ rfl rfl
  cases op with
  | map page frame flags =>
    obtain ⟨⟨usable, fits, noAddress⟩, _⟩ := allowed
    obtain ⟨s', gs, ran, changed, count⟩ := map_plain_run good ordinary_closed (fun _ inside => inside) plain
      usable.ordinary enough fits noAddress
    obtain ⟨root, plain', walks⟩ := finish usable changed
    exact ⟨s', gs, ran, root, count, changed.good, plain', walks⟩
  | unmap uninit page =>
    obtain ⟨⟨usable, mapped⟩, _⟩ := allowed
    rw [← agree page usable, hardware, indices_page] at mapped
    have clear := plain.clear (π := []) (ρ := upper page) ordinary_closed usable.ordinary rfl
    obtain ⟨t, reaches⟩ := descend_of_walk clear mapped
    obtain ⟨s', ran, changed⟩ := unmap_page_run (f := uninit) good usable.ordinary reaches
    obtain ⟨root, plain', walks⟩ := finish usable changed
    exact ⟨s', fs, ran, root, Nat.le_add_right _ _, changed.good, plain', walks⟩

theorem operations_run {ops : List Operation} {m : Mapping} (good : Good alloc s.root fs s)
    (plain : Plain s.mem s.root Ordinary) (agree : ∀ q, Usable q → hardware s q = m q) (allowed : Allowed m ops)
    (enough : (ops.map Operation.tables).sum ≤ fs.length) :
    ∃ s', ops.forM (Operation.perform alloc) s = .ok () s' ∧
      ∀ q, Usable q → hardware s' q = ops.foldl Operation.apply m q := by
  induction ops generalizing s m fs with
  | nil => exact ⟨s, rfl, agree⟩
  | cons op ops ih =>
    simp only [List.map_cons, List.sum_cons] at enough
    obtain ⟨s₁, gs, ran, root, count, good₁, plain₁, walks⟩ := operation_run good plain agree allowed (by omega)
    rw [← root] at good₁ plain₁
    obtain ⟨s', rest, refines⟩ := ih good₁ plain₁ walks allowed.2 (by omega)
    refine ⟨s', ?_, refines⟩
    exact (bind_ok ran _).trans rest

/-- Any sequence of operations on a tree of tables without huge entries is the
    same sequence of updates of the map from pages to frames and attributes. -/
theorem operations_refine {ops : List Operation} (good : Good alloc s.root fs s)
    (plain : Plain s.mem s.root Ordinary) (allowed : Allowed (hardware s) ops)
    (enough : (ops.map Operation.tables).sum ≤ fs.length) :
    ∃ s', ops.forM (Operation.perform alloc) s = .ok () s' ∧
      ∀ q, Usable q → hardware s' q = ops.foldl Operation.apply (hardware s) q :=
  operations_run good plain (fun _ _ => rfl) allowed enough

/-! ### A hierarchy of one table -/

/-- A top table with nothing but its recursive slot has no table below it. -/
theorem bare_descend {mem : Tables} (bare : ∀ j, j ≠ 511 → mem top j = 0) {π : List Index} {f : ℕ}
    (ordinary : Ordinary π) (reaches : descend next mem top π = some f) : π = [] ∧ f = top := by
  cases π with
  | nil => exact ⟨rfl, (Option.some.inj reaches).symm⟩
  | cons i π =>
    have other : i ≠ 511 := by
      rintro rfl
      exact ordinary.2 rfl
    simp [descend, bare i other, next_zero] at reaches

theorem bare_tree {mem : Tables} (bare : ∀ j, j ≠ 511 → mem top j = 0) : Tree next mem top Ordinary := by
  intro π ρ u left right first second
  rw [(bare_descend bare left first).1, (bare_descend bare right second).1]

theorem bare_plain {mem : Tables} (bare : ∀ j, j ≠ 511 → mem top j = 0) : Plain mem top Ordinary := by
  intro π i t inside reaches isPresent
  obtain ⟨rfl, rfl⟩ := bare_descend bare (ordinary_closed π _ (List.prefix_append π [i]) inside) reaches
  have other : i ≠ 511 := by
    rintro rfl
    exact inside.2 rfl
  rw [bare i other] at isPresent
  exact absurd isPresent (by decide)

/-- An allocator that hands out a list. -/
def from_list : List ℕ → ℤ × ℕ × List ℕ
  | [] => (-1, 0, [])
  | f :: fs => (0, f, fs)

theorem supplies_from_list (fs : List ℕ) : Supplies from_list fs fs := by
  induction fs with
  | nil => trivial
  | cons f fs ih => exact ⟨fs, rfl, ih⟩

/-- A machine with one table in frame 1 and empty frames elsewhere. -/
def one_table : Machine (List ℕ) :=
  { mem := fun f j => if f = 1 ∧ j = 511 then link 1 else 0
    cr3 := link 1
    allocator := [2, 3, 4, 5, 6, 7]
    trace := [] }

theorem one_table_good : Good from_list one_table.root [2, 3, 4, 5, 6, 7] one_table := by
  have bare : ∀ j, j ≠ 511 → one_table.mem one_table.root j = 0 := fun j other => if_neg fun here => other here.2
  have distinct : ∀ f ∈ [2, 3, 4, 5, 6, 7], f ≠ one_table.root := by decide
  refine ⟨⟨⟨rfl, rfl⟩, supplies_from_list _, by decide, fun f member j => ?_, fun f member => ?_, by decide⟩,
    bare_tree bare, .inl rfl⟩
  · exact if_neg fun here => distinct f member here.1
  · refine ⟨distinct f member, ?_⟩
    rintro ⟨π, ordinary, reaches⟩
    exact distinct f member (bare_descend bare ordinary reaches).2

theorem operations_refine_one_table :
    ∃ s', [Operation.map 5 1000 2, .map (2 ^ 52 - 2 ^ 35) 7 0, .unmap 0 5].forM (Operation.perform from_list) one_table =
        .ok () s' ∧
      ∀ q, Usable q → hardware s' q =
        [Operation.map 5 1000 2, .map (2 ^ 52 - 2 ^ 35) 7 0, .unmap 0 5].foldl Operation.apply (hardware one_table) q := by
  refine operations_refine one_table_good (bare_plain fun j other => if_neg fun here => other here.2) ?_ (by decide)
  refine ⟨⟨⟨.inl (by decide), by decide⟩, by decide, by decide⟩, ?_⟩
  refine ⟨⟨⟨.inr ⟨by decide, by decide⟩, by decide⟩, by decide, by decide⟩, ?_⟩
  exact ⟨⟨⟨.inl (by decide), by decide⟩, by decide⟩, trivial⟩

/-! ### Recursive addresses -/

theorem recursive_canonical {π : List Index} (short : π.length ≤ 3) : Canonical (recursive π) := by
  have range := recursive_range short
  refine .inr ⟨by omega, ?_⟩
  cases π using List.reverseRecOn with
  | nil => decide
  | append_singleton π i =>
    have aligned := (recursive_range (π := π) (by simp at short; omega)).2
    have := i.isLt
    rw [recursive_snoc]
    omega

/-- Along any path of at most three indices whose entries are present and not
    huge, slot 511 included, `descened_page_table` computes an address at which every entry of the
    table that the path reaches is found. -/
theorem descend_tables_resolves {π : List Index} {t : ℕ} (slot : next (s.mem s.root 511) = some s.root) (short : π.length ≤ 3)
    (reaches : descend next s.mem s.root π = some t) :
    ∃ table s', descend_tables p4_table π s = .ok table s' ∧ s'.mem = s.mem ∧ s'.root = s.root ∧
      table ≠ NULL ∧ table % PAGE_SIZE = 0 ∧ Canonical table ∧
      ∀ j : Index, resolve s.mem s.root (entry_addr table j) = some (t, 8 * (j : ℕ)) := by
  have window : Window s.mem s.root s.root := ⟨slot, slot⟩
  obtain ⟨events, -, ran⟩ := descend_tables_run window (π := []) (ρ := π) (by simpa using short) rfl reaches
  rw [List.nil_append] at ran
  exact ⟨recursive π, _, ran, rfl, rfl, recursive_ne_null short, (recursive_range short).2, recursive_canonical short,
    window.resolve short reaches⟩

/-- A path through the recursive slot. -/
theorem descend_tables_resolves_one_table :
    ∃ table s', descend_tables p4_table [511, 511] one_table = .ok table s' ∧ s'.mem = one_table.mem ∧
      s'.root = one_table.root ∧ table ≠ NULL ∧ table % PAGE_SIZE = 0 ∧ Canonical table ∧
      ∀ j : Index, resolve one_table.mem one_table.root (entry_addr table j) = some (1, 8 * (j : ℕ)) :=
  descend_tables_resolves rfl (by decide) rfl

end
end OsC.PageMap
