import OsC.Recursive
import Mathlib.Logic.Relation

/-!
How the kernel adds tables to a hierarchy. `get_next_page_table_or_create`
goes down one level and links a table that the allocator supplies where the
level below is missing. A sequence of such links (`Linked`) keeps the window
that slot 511 opens on the hierarchy and every table that it had.
-/
namespace OsC.Tables
open OsC.Word OsC.Frames OsC.Loop OsC.Entry OsC.Radix OsC.Walk OsC.Paging OsC.Recursive

/-- The paths of at most three indices that do not begin with the recursive slot. -/
def Ordinary (π : List Index) : Prop := π.length ≤ 3 ∧ π.head? ≠ some 511

theorem ordinary_closed : Closed Ordinary := by
  rintro π ρ ⟨σ, rfl⟩ ⟨short, head⟩
  refine ⟨by simp at short; omega, ?_⟩
  cases π with
  | nil => simp
  | cons i π => simpa using head

/-- A table of the hierarchy below `top`, reached outside the recursive slot. -/
def IsTable (mem : Tables) (top f : ℕ) : Prop := ∃ π, Ordinary π ∧ descend next mem top π = some f

/-- A level of an ordinary path: the table, the next one, and how deep they lie. -/
theorem Ordinary.level {π ρ : List Index} {i : Index} (ordinary : Ordinary (π ++ i :: ρ)) :
    Ordinary π ∧ Ordinary (π ++ [i]) ∧ π.length ≤ 2 := by
  have inside : Ordinary (π ++ [i]) := ordinary_closed _ _ ⟨ρ, (List.append_cons π i ρ).symm⟩ ordinary
  refine ⟨ordinary_closed π _ (List.prefix_append π [i]) inside, inside, ?_⟩
  have short := inside.1
  rw [List.length_append, List.length_singleton] at short
  omega

theorem ordinary_nil : Ordinary [] := ⟨Nat.zero_le 3, by simp⟩

theorem isTable_top (mem : Tables) (top : ℕ) : IsTable mem top top := ⟨[], ordinary_nil, rfl⟩

section
variable {A : Type} {alloc : A → ℤ × ℕ × A}

/-- The next calls of the allocator succeed with the frames of the list. -/
def Supplies (alloc : A → ℤ × ℕ × A) : List ℕ → A → Prop
  | [], _ => True
  | f :: fs, a => ∃ a', alloc a = (0, f, a') ∧ Supplies alloc fs a'

/-- The window on the hierarchy below `top` is open, and the allocator supplies
    frames that are empty, distinct and not in use as tables. -/
structure Ready (alloc : A → ℤ × ℕ × A) (top : ℕ) (fs : List ℕ) (s : Machine A) : Prop where
  window : Window s.mem s.root top
  supplies : Supplies alloc fs s.allocator
  fits : ∀ f ∈ fs, f < 2 ^ 40
  zero : ∀ f ∈ fs, ∀ j, s.mem f j = 0
  fresh : ∀ f ∈ fs, f ≠ s.root ∧ ¬ IsTable s.mem top f
  distinct : fs.Nodup

/-- The entry that links a table. -/
def link (f : ℕ) : ℕ := f * 4096 ||| (present_bit ||| writeable_bit)

theorem present_link (f : ℕ) : present (link f) = true := present_or f _
theorem huge_link (f : ℕ) : huge (link f) = false := huge_or f _

theorem next_link {f : ℕ} (fits : f < 2 ^ 40) : next (link f) = some f := by
  rw [next_of_present (present_link f) (huge_link f), link, address_or fits (by decide)]

/-- One step: events that leave the tables alone, or a supplied table linked at an absent entry. -/
inductive Step (alloc : A → ℤ × ℕ × A) (top : ℕ) : Machine A × List ℕ → Machine A × List ℕ → Prop
  | quiet (s : Machine A) (fs : List ℕ) {events : List Event} (quiet : Quiet events) :
      Step alloc top (s, fs) (logs s events, fs)
  | link {s : Machine A} {f : ℕ} {fs : List ℕ} {π : List Index} {t : ℕ} {i : Index} {a : A} {events : List Event}
      (links : Links next s.mem top Ordinary π t i (link f) f) (absent : present (s.mem t i) = false)
      (inside : Ordinary (π ++ [i])) (given : alloc s.allocator = (0, f, a))
      (stored : stores events = [(t, i)]) (allocated : allocs events = [f]) :
      Step alloc top (s, f :: fs) (logs { s with mem := put s.mem t i (Tables.link f), allocator := a } events, fs)

abbrev Linked (alloc : A → ℤ × ℕ × A) (top : ℕ) := Relation.ReflTransGen (Step (A := A) alloc top)

/-! ### What linking keeps -/

variable {s s' : Machine A} {top : ℕ} {fs fs' : List ℕ}

theorem Ready.step (ready : Ready alloc top fs s) (step : Step alloc top (s, fs) (s', fs')) :
    Ready alloc top fs' s' := by
  cases step with
  | quiet quiet => exact ⟨ready.window, ready.supplies, ready.fits, ready.zero, ready.fresh, ready.distinct⟩
  | @link _ f _ π t i a events links absent inside given stored allocated =>
    obtain ⟨notIn, distinct⟩ := List.nodup_cons.mp ready.distinct
    obtain ⟨a', given', rest⟩ := ready.supplies
    have same : a' = a := congrArg (·.2.2) (given'.symm.trans given)
    refine ⟨ready.window.keep links.absent, same ▸ rest, fun g member => ready.fits g (List.mem_cons_of_mem f member),
      fun g member j => ?_, fun g member => ?_, distinct⟩
    · have old := List.mem_cons_of_mem f member
      have notTable : g ≠ t := by
        rintro rfl
        exact (ready.fresh g old).2 ⟨π, links.inDom, links.reaches⟩
      exact (put_row notTable j).trans (ready.zero g old j)
    · have old := List.mem_cons_of_mem f member
      refine ⟨(ready.fresh g old).1, ?_⟩
      rintro ⟨ρ, ordinary, reaches⟩
      rcases links.reaches_old reaches with rfl | before
      · exact notIn member
      · exact (ready.fresh g old).2 ⟨ρ, ordinary, before⟩

/-- What a sequence of links did: its stores lie in tables that the hierarchy had
    or in frames that it allocated, nothing else changed, and the hierarchy has
    its old tables and those frames. -/
structure Grown (top : ℕ) (s s' : Machine A) (events : List Event) : Prop where
  trace : s'.trace = events ++ s.trace
  cr3 : s'.cr3 = s.cr3
  within : ∀ x ∈ stores events, IsTable s.mem top x.1 ∨ x.1 ∈ allocs events
  linked : ∀ f ∈ allocs events, IsTable s'.mem top f
  kept : ∀ f i, (f, i) ∉ stores events → s'.mem f i = s.mem f i
  tables : ∀ f, IsTable s'.mem top f → IsTable s.mem top f ∨ f ∈ allocs events
  descents : ∀ π f, Ordinary π → descend next s.mem top π = some f → descend next s'.mem top π = some f

theorem Grown.quiet {events : List Event} (quiet : Quiet events) (a : A) :
    Grown top s (logs { s with allocator := a } events) events :=
  ⟨rfl, rfl, by simp [quiet.1], by simp [quiet.2], fun _ _ _ => rfl, fun _ table => .inl table,
    fun _ _ _ reaches => reaches⟩

theorem Grown.refl (s : Machine A) : Grown top s s [] :=
  have nothing : Quiet [] := ⟨rfl, rfl⟩
  Grown.quiet (s := s) nothing s.allocator

/-- The old tables stay in the hierarchy. -/
theorem Grown.isTable {events : List Event} (grown : Grown top s s' events) {f : ℕ} (table : IsTable s.mem top f) :
    IsTable s'.mem top f := by
  obtain ⟨π, ordinary, reaches⟩ := table
  exact ⟨π, ordinary, grown.descents π f ordinary reaches⟩

theorem Grown.trans {u : Machine A} {early late : List Event} (first : Grown top s s' early)
    (second : Grown top s' u late) : Grown top s u (late ++ early) := by
  refine ⟨?_, second.cr3.trans first.cr3, ?_, ?_, ?_, ?_, fun π f inside reaches => ?_⟩
  · rw [second.trace, first.trace, List.append_assoc]
  · intro x member
    simp only [stores_append, allocs_append, List.mem_append] at member ⊢
    rcases member with late | early
    · rcases second.within x late with table | allocated
      · exact (first.tables x.1 table).imp_right .inr
      · exact .inr (.inl allocated)
    · exact (first.within x early).imp_right .inr
  · intro f member
    simp only [allocs_append, List.mem_append] at member
    rcases member with late | early
    · exact second.linked f late
    · exact second.isTable (first.linked f early)
  · intro f i outside
    simp only [stores_append, List.mem_append, not_or] at outside
    rw [second.kept f i outside.1, first.kept f i outside.2]
  · intro f table
    simp only [allocs_append, List.mem_append]
    rcases second.tables f table with before | allocated
    · exact (first.tables f before).imp_right .inr
    · exact .inr (.inl allocated)
  · exact second.descents π f inside (first.descents π f inside reaches)

theorem Step.grown (step : Step alloc top (s, fs) (s', fs')) :
    ∃ events, Grown top s s' events ∧ fs = (allocs events).reverse ++ fs' := by
  cases step with
  | @quiet _ _ events quiet =>
    exact ⟨events, .quiet quiet s.allocator, by simp [quiet.2]⟩
  | @link _ f _ π t i a events links absent inside given stored allocated =>
    refine ⟨events, ⟨rfl, rfl, ?_, ?_, ?_, ?_, fun ρ g _ reaches => descend_put_absent links.absent reaches⟩,
      by simp [allocated]⟩
    · intro x member
      rw [stored, List.mem_singleton] at member
      subst member
      exact .inl ⟨π, links.inDom, links.reaches⟩
    · intro g member
      rw [allocated, List.mem_singleton] at member
      subst member
      exact ⟨π ++ [i], inside, links.reached⟩
    · intro g j outside
      rw [stored, List.mem_singleton] at outside
      exact put_other fun here => outside (Prod.ext here.1 here.2)
    · rintro g ⟨ρ, ordinary, reaches⟩
      rw [allocated]
      rcases links.reaches_old reaches with rfl | before
      · exact .inr List.mem_cons_self
      · exact .inl ⟨ρ, ordinary, before⟩

/-- A sequence of links keeps what each step keeps. -/
theorem linked_keeps {I : Machine A → List ℕ → Prop}
    (keeps : ∀ s fs s' fs', I s fs → Step alloc top (s, fs) (s', fs') → I s' fs') (start : I s fs)
    (linked : Linked alloc top (s, fs) (s', fs')) : I s' fs' := by
  have all : ∀ x, Linked alloc top (s, fs) x → I x.1 x.2 := by
    intro x path
    induction path with
    | refl => exact start
    | @tail y z _ step ih => exact keeps y.1 y.2 z.1 z.2 ih step
  exact all (s', fs') linked

theorem Ready.linked (ready : Ready alloc top fs s) (linked : Linked alloc top (s, fs) (s', fs')) :
    Ready alloc top fs' s' :=
  linked_keeps (I := fun s fs => Ready alloc top fs s) (fun _ _ _ _ ready step => ready.step step) ready linked

/-- The linked tables are the frames that were supplied. -/
theorem grown_of_linked (linked : Linked alloc top (s, fs) (s', fs')) :
    ∃ events, Grown top s s' events ∧ fs = (allocs events).reverse ++ fs' := by
  refine linked_keeps (I := fun u gs => ∃ events, Grown top s u events ∧ fs = (allocs events).reverse ++ gs) ?_
    ⟨[], .refl s, rfl⟩ linked
  rintro u gs v hs ⟨early, grown, drawn⟩ step
  obtain ⟨late, more, next⟩ := step.grown
  refine ⟨late ++ early, grown.trans more, ?_⟩
  rw [drawn, next, allocs_append, List.reverse_append, List.append_assoc]

/-! ### Going down a level -/

variable {π : List Index} {t : ℕ} {i : Index}

theorem flush_tlb_run (s : Machine A) : flush_tlb s = .ok () (logs s [.wrote_cr3 s.cr3]) := rfl

/-- A supplied frame can be linked at an absent entry. -/
theorem Ready.links {f : ℕ} (ready : Ready alloc top (f :: fs) s) (ordinary : Ordinary π)
    (reaches : descend next s.mem top π = some t) (absent : present (s.mem t i) = false) :
    Links next s.mem top Ordinary π t i (link f) f := by
  have first : f ∈ f :: fs := List.mem_cons_self
  refine ⟨ordinary, reaches, next_of_absent absent, next_link (ready.fits f first), fun j => ?_, fun ρ inside leads => ?_⟩
  · rw [ready.zero f first j, next_zero]
  · exact (ready.fresh f first).2 ⟨ρ, inside, leads⟩

/-- A present entry is gone down, whatever it points to. -/
theorem get_next_found (alloc : A → ℤ × ℕ × A) (short : π.length ≤ 2)
    (resolves : resolve s.mem s.root (entry_addr (recursive π) i) = some (t, 8 * (i : ℕ)))
    (isPresent : present (s.mem t i) = true) :
    get_next_page_table_or_create alloc (recursive π) i s = .ok (recursive (π ++ [i]))
      (logs s [.load (entry_addr (recursive π) i) t i, .load (entry_addr (recursive π) i) t i]) := by
  have ran := descened_page_table_at short resolves
  have ran' := descened_page_table_at (s := logs s [.load (entry_addr (recursive π) i) t i]) short resolves
  have nonNull : recursive (π ++ [i]) ≠ NULL := recursive_ne_null (by simp; omega)
  rw [if_pos isPresent] at ran
  rw [logs_mem, if_pos isPresent, logs_logs] at ran'
  rw [get_next_page_table_or_create, bind_ok ran, if_neg nonNull]
  exact ran'

theorem get_next_present (alloc : A → ℤ × ℕ × A) (window : Window s.mem s.root top) (short : π.length ≤ 2)
    (reaches : descend next s.mem top π = some t) (isPresent : present (s.mem t i) = true) :
    ∃ events, Quiet events ∧
      get_next_page_table_or_create alloc (recursive π) i s = .ok (recursive (π ++ [i])) (logs s events) :=
  ⟨_, ⟨rfl, rfl⟩, get_next_found alloc short (window.resolve (by omega) reaches i) isPresent⟩

/-- Where the entry leads nowhere and no frame is left it gives NULL. -/
theorem get_next_unsupplied {table : ℕ} {s₁ : Machine A} (descends : descened_page_table table i s = .ok NULL s₁)
    (fails : (alloc s.allocator).1 ≠ 0) :
    ∃ events, Quiet events ∧ get_next_page_table_or_create alloc table i s =
      .ok NULL (logs { s with allocator := (alloc s.allocator).2.2 } events) := by
  rcases given : alloc s.allocator with ⟨result, frame, a⟩
  have failed : result ≠ 0 := by simpa [given] using fails
  have first := descends
  rw [descened_page_table_eq] at first
  rcases resolves : resolve s.mem s.root (entry_addr table i) with _ | ⟨t, offset⟩
  · rw [resolves] at first
    cases first
  · -- The second descent reads the same entry.
    obtain ⟨event, isLoad⟩ : ∃ e, e = Event.load (entry_addr table i) t (word offset) := ⟨_, rfl⟩
    simp only [resolves, ← isLoad] at first
    injection first with value same
    obtain ⟨s₂, isNext⟩ : ∃ s₂, s₂ = logs { s with allocator := a } [event] := ⟨_, rfl⟩
    have allocated : allocate_frame alloc s₁ = .ok (result, frame) s₂ := by
      rw [← same, isNext]
      simp [allocate_frame, given, failed, logs]
    have again : descened_page_table table i s₂ = .ok NULL (logs s₂ [event]) := by
      have resolves' : resolve s₂.mem s₂.root (entry_addr table i) = some (t, offset) := by rw [isNext]; exact resolves
      have value' : (if present (s₂.mem t (word offset)) then wrap (table <<< 9) ||| (i : ℕ) <<< 12 else NULL) = NULL := by
        rw [isNext]
        exact value
      rw [descened_page_table_eq, resolves']
      simp only [value', ← isLoad]
    refine ⟨[event, event], by rw [isLoad]; exact ⟨rfl, rfl⟩, ?_⟩
    rw [get_next_page_table_or_create, bind_ok descends, if_pos rfl, bind_ok allocated]
    change (if result = 0 then _ else _ : Kernel A ℕ) s₂ = _
    rw [if_neg failed]
    rw [isNext, logs_logs] at again
    rw [isNext]
    exact again

theorem get_next_existing (ready : Ready alloc top fs s) (short : π.length ≤ 2)
    (reaches : descend next s.mem top π = some t) (isPresent : present (s.mem t i) = true) :
    ∃ s', get_next_page_table_or_create alloc (recursive π) i s = .ok (recursive (π ++ [i])) s' ∧
      Step alloc top (s, fs) (s', fs) ∧ s'.mem = s.mem := by
  obtain ⟨events, quiet, ran⟩ := get_next_present alloc ready.window short reaches isPresent
  exact ⟨_, ran, .quiet s fs quiet, rfl⟩

/-- The frame that the allocator gives is linked at an absent entry, whatever its number and contents. -/
theorem get_next_given {f : ℕ} {a : A} (window : Window s.mem s.root top) (short : π.length ≤ 2)
    (reaches : descend next s.mem top π = some t) (absent : present (s.mem t i) = false)
    (given : alloc s.allocator = (0, f, a)) :
    ∃ events, get_next_page_table_or_create alloc (recursive π) i s =
        .ok (recursive (π ++ [i])) (logs { s with mem := put s.mem t i (link (f % 2 ^ 40)), allocator := a } events) ∧
      stores events = [(t, i)] ∧ allocs events = [f] := by
  obtain ⟨first, quiet, ran⟩ := descened_page_table_run window short reaches i
  rw [if_neg (by simp [absent])] at ran
  have allocated : allocate_frame alloc (logs s first) =
      .ok (0, f) ((Machine.log { logs s first with allocator := a } (.allocated f))) := by
    simp [allocate_frame, given]
  obtain ⟨s₂, same⟩ : ∃ s₂, s₂ = Machine.log { logs s first with allocator := a } (.allocated f) := ⟨_, rfl⟩
  have window₂ : Window s₂.mem s₂.root top := by rw [same]; exact window
  have stored := store_entry (s := s₂) window₂ (π := π) (by omega) (by rw [same]; exact reaches) i
    (get_frame_start_addr f &&& physical_addr_mask ||| (present_bit ||| writeable_bit))
  rw [← set_page_table_entry_eq, start_addr_low] at stored
  obtain ⟨s₃, same'⟩ : ∃ s₃, s₃ = logs (logs { s₂ with mem := put s₂.mem t i (link (f % 2 ^ 40)) }
    [.store (entry_addr (recursive π) i) t i]) [.wrote_cr3 s₂.cr3] := ⟨_, rfl⟩
  have mem : s₃.mem = put s.mem t i (link (f % 2 ^ 40)) := by rw [same', same]; rfl
  have root : s₃.root = s.root := by rw [same', same]; rfl
  have window' : Window s₃.mem s₃.root top := by
    rw [mem, root]
    exact window.keep (next_of_absent absent)
  have reaches' : descend next s₃.mem top π = some t := by
    rw [mem]
    exact descend_put_absent (next_of_absent absent) reaches
  obtain ⟨second, quiet', ran'⟩ := descened_page_table_run window' short reaches' i
  rw [mem, put_same, if_pos (present_link (f % 2 ^ 40))] at ran'
  have made : logs s₃ second = logs { s with mem := put s.mem t i (link (f % 2 ^ 40)), allocator := a }
      (second ++ [.wrote_cr3 s.cr3, .store (entry_addr (recursive π) i) t i, .allocated f] ++ first) := by
    rw [same', same]
    simp [logs, Machine.log]
  refine ⟨second ++ [.wrote_cr3 s.cr3, .store (entry_addr (recursive π) i) t i, .allocated f] ++ first, ?_, ?_, ?_⟩
  · rw [← made, get_next_page_table_or_create, bind_ok ran, if_pos rfl, bind_ok allocated, ← same]
    change (if (0 : ℤ) = 0 then _ else _ : Kernel A ℕ) s₂ = _
    rw [if_pos rfl, bind_ok stored, bind_ok (flush_tlb_run _)]
    rw [same'] at ran' ⊢
    exact ran'
  · simp only [stores_append, quiet.1, quiet'.1]
    rfl
  · simp only [allocs_append, quiet.2, quiet'.2]
    rfl

/-- A supplied frame is linked at an absent entry, whatever it holds. -/
theorem get_next_supplied {f : ℕ} {a : A} (window : Window s.mem s.root top) (short : π.length ≤ 2)
    (reaches : descend next s.mem top π = some t) (absent : present (s.mem t i) = false)
    (given : alloc s.allocator = (0, f, a)) (fits : f < 2 ^ 40) :
    ∃ events, get_next_page_table_or_create alloc (recursive π) i s =
        .ok (recursive (π ++ [i])) (logs { s with mem := put s.mem t i (link f), allocator := a } events) ∧
      stores events = [(t, i)] ∧ allocs events = [f] := by
  have ran := get_next_given window short reaches absent given
  rwa [Nat.mod_eq_of_lt fits] at ran

theorem get_next_missing {f : ℕ} (ready : Ready alloc top (f :: fs) s) (ordinary : Ordinary (π ++ [i]))
    (reaches : descend next s.mem top π = some t) (absent : present (s.mem t i) = false) :
    ∃ s', get_next_page_table_or_create alloc (recursive π) i s = .ok (recursive (π ++ [i])) s' ∧
      Step alloc top (s, f :: fs) (s', fs) ∧ s'.mem = put s.mem t i (link f) := by
  have short : π.length ≤ 2 := by have := ordinary.1; simp at this; omega
  have links := ready.links (i := i) (ordinary_closed π _ (List.prefix_append π [i]) ordinary) reaches absent
  obtain ⟨a, given, rest⟩ := ready.supplies
  obtain ⟨events, ran, stored, allocated⟩ :=
    get_next_supplied ready.window short reaches absent given (ready.fits f List.mem_cons_self)
  exact ⟨_, ran, .link links absent ordinary given stored allocated, rfl⟩

/-! ### Going down to the last table of a page -/

/-- `get_next_page_table_or_create` along indices. -/
def create (alloc : A → ℤ × ℕ × A) : ℕ → List Index → Kernel A ℕ
  | table, [] => pure table
  | table, i :: ρ => do
    let table ← get_next_page_table_or_create alloc table i
    create alloc table ρ

/-- No entry along the indices is present and maps a page itself. -/
def Clear (mem : Tables) : ℕ → List Index → Prop
  | _, [] => True
  | t, i :: ρ => (present (mem t i) = true → huge (mem t i) = false) ∧ ∀ u, next (mem t i) = some u → Clear mem u ρ

/-- How many tables are missing along the indices. -/
def missing (mem : Tables) : ℕ → List Index → ℕ
  | _, [] => 0
  | t, i :: ρ =>
    match next (mem t i) with
    | some u => missing mem u ρ
    | none => ρ.length + 1

theorem missing_le (mem : Tables) (t : ℕ) (ρ : List Index) : missing mem t ρ ≤ ρ.length := by
  induction ρ generalizing t with
  | nil => exact le_refl 0
  | cons i ρ ih =>
    rw [missing]
    split
    next u found =>
      have := ih u
      simp
      omega
    next => simp

theorem missing_next {mem : Tables} {u : ℕ} (table : next (mem t i) = some u) (ρ : List Index) :
    missing mem t (i :: ρ) = missing mem u ρ := by
  simp [missing, table]

theorem missing_absent {mem : Tables} (absent : present (mem t i) = false) (ρ : List Index) :
    missing mem t (i :: ρ) = ρ.length + 1 := by
  simp [missing, next_of_absent absent]

/-- Below a table without present entries all tables are missing. -/
theorem missing_of_empty {mem : Tables} {f : ℕ} (empty : ∀ j, present (mem f j) = false) (ρ : List Index) :
    missing mem f ρ = ρ.length := by
  cases ρ with
  | nil => rfl
  | cons j ρ => exact missing_absent (empty j) ρ

theorem clear_of_absent {mem : Tables} (absent : present (mem t i) = false) (ρ : List Index) : Clear mem t (i :: ρ) := by
  refine ⟨fun isPresent => ?_, fun u table => ?_⟩
  · rw [absent] at isPresent
    cases isPresent
  · rw [next_of_absent absent] at table
    cases table

theorem clear_of_empty {mem : Tables} {f : ℕ} (empty : ∀ j, present (mem f j) = false) (ρ : List Index) : Clear mem f ρ := by
  cases ρ with
  | nil => trivial
  | cons j ρ => exact clear_of_absent (empty j) ρ

/-- Where no entry on the way maps a page itself and the missing tables are
    supplied, the levels are gone down by a sequence of links. -/
theorem create_run {ρ : List Index} (ready : Ready alloc top fs s) (ordinary : Ordinary (π ++ ρ))
    (reaches : descend next s.mem top π = some t) (clear : Clear s.mem t ρ) (enough : missing s.mem t ρ ≤ fs.length) :
    ∃ s' t', create alloc (recursive π) ρ s = .ok (recursive (π ++ ρ)) s' ∧
      Linked alloc top (s, fs) (s', fs.drop (missing s.mem t ρ)) ∧ descend next s'.mem top (π ++ ρ) = some t' := by
  induction ρ generalizing π t s fs with
  | nil => exact ⟨s, t, by simp [create]; rfl, .refl, by simpa using reaches⟩
  | cons i ρ ih =>
    obtain ⟨here, inside, short⟩ := ordinary.level
    rw [List.append_cons π i ρ] at ordinary ⊢
    cases isPresent : present (s.mem t i) with
    | true =>
      have table := next_of_present isPresent (clear.1 isPresent)
      obtain ⟨s₁, ran, step, same⟩ := get_next_existing ready short reaches isPresent
      rw [missing_next table] at enough ⊢
      have down : descend next s₁.mem top (π ++ [i]) = some (address (s.mem t i)) := by
        rw [same, descend_snoc reaches, table]
      rw [← same] at enough ⊢
      obtain ⟨s', t', rest, linked, leads⟩ := ih (ready.step step) ordinary down
        (by rw [same]; exact clear.2 _ table) (by rw [same] at enough ⊢; exact enough)
      refine ⟨s', t', ?_, .head step ?_, leads⟩
      · rw [create, bind_ok ran, rest]
      · rw [same] at linked ⊢
        exact linked
    | false =>
      rw [missing_absent isPresent] at enough ⊢
      obtain ⟨f, fs, rfl⟩ : ∃ f gs, fs = f :: gs := by
        cases fs with
        | nil => simp at enough
        | cons f gs => exact ⟨f, gs, rfl⟩
      obtain ⟨s₁, ran, step, put⟩ := get_next_missing ready inside reaches isPresent
      have links := ready.links (i := i) here reaches isPresent
      have down : descend next s₁.mem top (π ++ [i]) = some f := by rw [put]; exact links.reached
      have empty : ∀ j, present (s₁.mem f j) = false := fun j => by
        rw [put, put_row links.apart, ready.zero f List.mem_cons_self]
        rfl
      have all : missing s₁.mem f ρ = ρ.length := missing_of_empty empty ρ
      obtain ⟨s', t', rest, linked, leads⟩ := ih (ready.step step) ordinary down (clear_of_empty empty ρ)
        (by rw [all]; simpa using enough)
      refine ⟨s', t', ?_, .head step ?_, leads⟩
      · rw [create, bind_ok ran, rest]
      · rw [all] at linked
        exact linked

/-- The indices of a page at levels 4 to 2. -/
def upper (page : ℕ) : List Index := [27, 18, 9].map fun bit => Fin.ofNat 512 (page / 2 ^ bit)

/-- The index of a page at level 1. -/
def last (page : ℕ) : Index := Fin.ofNat 512 page

theorem nine_bits (n : ℕ) : n &&& 0o777 = (Fin.ofNat 512 n).val := Nat.and_two_pow_sub_one_eq_mod n 9

theorem page_indices (page : ℕ) :
    get_p4_index page = (Fin.ofNat 512 (page / 2 ^ 27)).val ∧ get_p3_index page = (Fin.ofNat 512 (page / 2 ^ 18)).val ∧
      get_p2_index page = (Fin.ofNat 512 (page / 2 ^ 9)).val ∧ get_p1_index page = (last page).val := by
  refine ⟨?_, ?_, ?_, nine_bits page⟩
  all_goals
    rw [← nine_bits, ← Nat.shiftRight_eq_div_pow]
    rfl

theorem map_page_to_frame_eq (page frame flags : ℕ) :
    map_page_to_frame alloc page frame flags = (do
      let table ← create alloc (recursive []) (upper page)
      set_page_table_entry (entry_addr table (last page)) frame (present_bit ||| flags)) := by
  obtain ⟨p4, p3, p2, p1⟩ := page_indices page
  simp only [map_page_to_frame, upper, List.map, create, p4, p3, p2, p1, bind_assoc, pure_bind]
  rfl

end
end OsC.Tables
