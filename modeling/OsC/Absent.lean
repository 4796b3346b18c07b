import OsC.StaleTables
import OsC.Exhaustion
import OsC.Translate

/-!
Pages without a mapping. No caller of `descened_page_table` looks for NULL, so
that `translate_page` and `unmap_page` go on through it where a table is
missing; and `translate` does not look whether `translate_page` has set a
frame (`absent_page`).
-/
namespace OsC.Absent
open OsC.Word OsC.Frames OsC.Loop OsC.Entry OsC.Radix OsC.Walk OsC.Paging OsC.Recursive OsC.Tables OsC.PageMap OsC.HugePages
open OsC.StaleTables OsC.Exhaustion OsC.Translate

section
variable {A : Type}

/-- The address is computed from whatever the variable for the frame holds. -/
def FromUnset (vaddr : ℕ) (s : Machine A) : Prop :=
  ∀ f, ∃ s', Paging.translate f vaddr s = .ok (wrap (f * PAGE_SIZE + vaddr % PAGE_SIZE)) s'

/-- The absence of a mapping is noticed. -/
structure Noticed (vaddr : ℕ) (s : Machine A) : Prop where
  refuses : ∀ f, ∃ g s', translate_page (vaddr / PAGE_SIZE) f s = .ok (-1, g) s'
  translates : ∀ f, ¬ ThroughNull s (translate_page (vaddr / PAGE_SIZE) f s)
  unmaps : ∀ f, ¬ ThroughNull s (unmap_page f (vaddr / PAGE_SIZE) s)
  set : ¬ FromUnset vaddr s

/-- The tables of levels 4 to 1 are all there. -/
def HasTables (mem : Tables) (root page : ℕ) : Prop := ∃ t, descend next mem root (upper page) = some t

/-- The entry of level 2 is not present, but has the huge bit. -/
def HugeHole (mem : Tables) (root page : ℕ) : Prop :=
  ∃ t, descend next mem root (upperTwo page) = some t ∧ present (mem t (second page)) = false ∧ huge (mem t (second page)) = true

end
/-! ### Runs that stay away from NULL -/

section
variable {A α β : Type} {s s' : Machine A} {x : Kernel A α} {a : α}

/-- No event is an access through NULL. -/
def Clean (events : List Event) : Prop := ∀ e ∈ events, null_access e = false

theorem Clean.append {new old : List Event} (late : Clean new) (early : Clean old) : Clean (new ++ old) := by
  intro e member
  rcases List.mem_append.mp member with inNew | inOld
  · exact late e inNew
  · exact early e inOld

theorem clean_load {π : List Index} (short : π.length ≤ 3) (t : ℕ) (i j : Index) :
    Clean [.load (entry_addr (recursive π) i) t j] := by
  intro e member
  rw [List.mem_singleton.mp member]
  simpa [null_access] using recursive_high short i

theorem not_through_null (events : List Event) (ran : x s = .ok a s') (grown : s'.trace = events ++ s.trace)
    (clean : Clean events) : ¬ ThroughNull s (x s) := by
  rw [ran]
  rintro (⟨others, same, e, member, isNull⟩ | ⟨vaddr, s₁, fault, -⟩)
  · obtain rfl : events = others := List.append_cancel_right (grown.symm.trans same)
    rw [clean e member] at isNull
    cases isNull
  · cases fault

/-! ### Runs through NULL -/

/-- Earlier events do not matter. -/
theorem through_null_later {early : List Event} {result : EStateM.Result Fault (Machine A) α}
    (touches : ThroughNull (logs s early) result) : ThroughNull s result := by
  rcases touches with ⟨events, grown, e, member, isNull⟩ | fault
  · refine .inl ⟨events ++ early, ?_, e, List.mem_append_left early member, isNull⟩
    rw [grown, List.append_assoc]
    rfl
  · exact .inr fault

theorem grows_pure (a : α) : Grows (pure a : Kernel A α) := fun _ => ⟨[], rfl⟩

theorem grows_load (vaddr : ℕ) : Grows (load (A := A) vaddr) := by
  intro s
  obtain ⟨events, -, ⟨value, ran⟩ | ⟨e, ran⟩⟩ := load_final vaddr s
  · rw [ran]
    exact ⟨events, rfl⟩
  · rw [ran]
    exact ⟨events, rfl⟩

theorem grows_store (vaddr value : ℕ) : Grows (store (A := A) vaddr value) := by
  intro s
  unfold store
  cases resolve s.mem s.root vaddr with
  | none => exact ⟨[], rfl⟩
  | some place => exact ⟨[_], rfl⟩

theorem grows_get_physical_frame (entry f : ℕ) : Grows (get_physical_frame (A := A) entry f) := by
  refine (grows_load entry).bind fun value => ?_
  split
  · exact grows_pure _
  · exact grows_pure _

theorem load_through_null (j : Index) (s : Machine A) : ThroughNull s (load (entry_addr NULL j) s) := by
  have low := null_low j
  unfold load
  cases resolve s.mem s.root (entry_addr NULL j) with
  | none => exact .inr ⟨_, s, rfl, low⟩
  | some place => exact .inl ⟨[_], rfl, _, List.mem_singleton_self _, by simpa [null_access] using low⟩

theorem store_through_null (j : Index) (value : ℕ) (s : Machine A) : ThroughNull s (store (entry_addr NULL j) value s) := by
  have low := null_low j
  unfold store
  cases resolve s.mem s.root (entry_addr NULL j) with
  | none => exact .inr ⟨_, s, rfl, low⟩
  | some place => exact .inl ⟨[_], rfl, _, List.mem_singleton_self _, by simpa [null_access] using low⟩

theorem get_physical_frame_through_null (j : Index) (f : ℕ) (s : Machine A) :
    ThroughNull s (get_physical_frame (entry_addr NULL j) f s) := by
  refine ThroughNull.before (load_through_null j s) fun value => ?_
  split
  · exact grows_pure _
  · exact grows_pure _

end
/-! ### Descents -/

section
variable {A β : Type} {s : Machine A} {π ρ : List Index} {t u : ℕ} {i : Index}

theorem gap_cons {mem : Tables} (gap : Gap mem t (i :: ρ)) :
    present (mem t i) = false ∨ ∃ u, next (mem t i) = some u ∧ Gap mem u ρ := by
  obtain ⟨σ, j, u, inside, reaches, absent⟩ := gap
  cases σ with
  | nil =>
    obtain ⟨rfl, -⟩ := List.cons_prefix_cons.mp inside
    obtain rfl := Option.some.inj reaches
    exact .inl absent
  | cons k σ =>
    obtain ⟨rfl, rest⟩ := List.cons_prefix_cons.mp inside
    obtain ⟨v, table, more⟩ := Option.bind_eq_some_iff.mp reaches
    exact .inr ⟨v, table, σ, j, u, rest, more, absent⟩

/-- An absent entry on a path is its last or one before. -/
theorem gap_snoc {mem : Tables} (gap : Gap mem t (ρ ++ [i])) :
    Gap mem t ρ ∨ ∃ u, descend next mem t ρ = some u ∧ present (mem u i) = false := by
  obtain ⟨σ, j, u, inside, reaches, absent⟩ := gap
  rcases List.prefix_concat_iff.mp inside with whole | before
  · obtain ⟨rfl, same⟩ := List.append_inj' whole rfl
    obtain rfl := (List.cons.inj same).1
    exact .inr ⟨u, reaches, absent⟩
  · exact .inl ⟨σ, j, u, before, reaches, absent⟩

theorem gap_no_table {mem : Tables} (gap : Gap mem t ρ) : descend next mem t ρ ≠ some u := by
  induction ρ generalizing t with
  | nil =>
    obtain ⟨σ, j, _, inside, -⟩ := gap
    simp at inside
  | cons i ρ ih =>
    intro reaches
    obtain ⟨v, table, rest⟩ := Option.bind_eq_some_iff.mp reaches
    rcases gap_cons gap with absent | ⟨w, same, more⟩
    · rw [next_of_absent absent] at table
      cases table
    · obtain rfl := Option.some.inj (table.symm.trans same)
      exact ih more rest

/-- A descent from a table, which the walk takes too. -/
theorem descend_step (slot : next (s.mem s.root 511) = some s.root) (short : π.length ≤ 2)
    (reaches : descend next s.mem s.root π = some t) (i : Index) :
    ∃ event, Clean [event] ∧ descened_page_table (recursive π) i s =
      .ok (if present (s.mem t i) then recursive (π ++ [i]) else NULL) (logs s [event]) :=
  ⟨_, clean_load (by omega) t i i, descened_page_table_at short (Window.resolve ⟨slot, slot⟩ (by omega) reaches i)⟩

theorem load_clean (slot : next (s.mem s.root 511) = some s.root) (short : π.length ≤ 3)
    (reaches : descend next s.mem s.root π = some t) (j : Index) :
    ∃ event, Clean [event] ∧ load (entry_addr (recursive π) j) s = .ok (s.mem t j) (logs s [event]) :=
  ⟨_, clean_load short t j j, load_run (Window.resolve ⟨slot, slot⟩ short reaches j)⟩

/-- Where an entry is absent, what follows the descents gets NULL or an access through NULL comes before. -/
theorem descend_tables_through {access : ℕ → Kernel A β} (slot : next (s.mem s.root 511) = some s.root)
    (short : (π ++ ρ).length ≤ 3) (reaches : descend next s.mem s.root π = some t) (gap : Gap s.mem t ρ)
    (null : ∀ s, ThroughNull s (access NULL s)) (grows : ∀ table, Grows (access table)) :
    ThroughNull s ((descend_tables (recursive π) ρ >>= access) s) := by
  have all : ∀ table ρ, Grows (descend_tables (A := A) table ρ >>= access) := by
    intro table ρ
    induction ρ generalizing table with
    | nil => exact (grows_pure table).bind grows
    | cons i ρ ih =>
      rw [descend_tables, bind_assoc]
      exact (grows_descened table i).bind ih
  induction ρ generalizing π t s with
  | nil =>
    obtain ⟨σ, j, _, inside, -⟩ := gap
    simp at inside
  | cons i ρ ih =>
    rw [List.append_cons π i ρ] at short
    obtain ⟨event, -, ran⟩ := descend_step slot (by simp at short; omega) reaches i
    rw [descend_tables, bind_assoc]
    rcases gap_cons gap with absent | ⟨u, table, rest⟩
    · rw [if_neg (by simp [absent])] at ran
      refine ThroughNull.after ran (grows_descened _ i) ?_
      cases ρ with
      | nil => exact null _
      | cons j ρ =>
        rw [descend_tables, bind_assoc]
        exact ThroughNull.before (descened_through_null j _) fun table => all table ρ
    · rw [if_pos (next_eq_some.mp table).1] at ran
      exact ThroughNull.after ran (grows_descened _ i) (ih (s := logs s [event]) slot short ((descend_snoc reaches).trans table) rest)

/-- Where all tables are there, the descents stay away from NULL. -/
theorem descend_tables_clean (slot : next (s.mem s.root 511) = some s.root) (short : (π ++ ρ).length ≤ 3)
    (reaches : descend next s.mem s.root π = some t) (more : descend next s.mem t ρ = some u) :
    ∃ events, Clean events ∧ descend_tables (recursive π) ρ s = .ok (recursive (π ++ ρ)) (logs s events) := by
  induction ρ generalizing π t s with
  | nil =>
    refine ⟨[], by simp [Clean], ?_⟩
    rw [List.append_nil]
    rfl
  | cons i ρ ih =>
    rw [List.append_cons π i ρ] at short ⊢
    obtain ⟨v, table, rest⟩ := Option.bind_eq_some_iff.mp more
    obtain ⟨event, clean, ran⟩ := descend_step slot (by simp at short; omega) reaches i
    rw [if_pos (next_eq_some.mp table).1] at ran
    obtain ⟨events, others, goes⟩ := ih (s := logs s [event]) slot short ((descend_snoc reaches).trans table) rest
    refine ⟨events ++ [event], others.append clean, ?_⟩
    rw [descend_tables, bind_ok ran, goes, logs_logs]

/-! ### Unmapping -/

section
variable {page : ℕ}

/-- What `unmap_page` does at an entry. -/
def unmap_at (page f table : ℕ) : Kernel A Unit := do
  set_unused (entry_addr table (last page))
  let (_, frame) ← get_physical_frame (entry_addr table (last page)) f
  deallocate_frame frame
  flush_tlb

/-- It begins with a store. -/
theorem unmap_at_begins (page f table : ℕ) : ∃ rest : Unit → Kernel A Unit,
    unmap_at page f table = store (entry_addr table (last page)) 0x0 >>= rest ∧ ∀ u, Grows (rest u) := by
  refine ⟨_, rfl, fun _ => (grows_get_physical_frame _ _).bind ?_⟩
  rintro ⟨_, frame⟩
  exact fun s => ⟨[.wrote_cr3 s.cr3, .deallocated frame], rfl⟩

theorem grows_unmap_at (page f table : ℕ) : Grows (unmap_at (A := A) page f table) := by
  obtain ⟨rest, same, grows⟩ := unmap_at_begins (A := A) page f table
  rw [same]
  exact (grows_store _ _).bind grows

theorem unmap_at_null (page f : ℕ) (s : Machine A) : ThroughNull s (unmap_at page f NULL s) := by
  obtain ⟨rest, same, grows⟩ := unmap_at_begins (A := A) page f NULL
  rw [same]
  exact ThroughNull.before (store_through_null (last page) 0x0 s) grows

/-- Clearing an absent entry changes no descent. -/
theorem descend_cleared {mem : Tables} {root : ℕ} (absent : present (mem t i) = false) :
    descend next (put mem t i 0) root π = descend next mem root π := by
  have same : ∀ v j, next (put mem t i 0 v j) = next (mem v j) := by
    intro v j
    by_cases here : v = t ∧ j = i
    · rw [here.1, here.2, put_same, next_zero, next_of_absent absent]
    · rw [put_other here]
  induction π generalizing root with
  | nil => rfl
  | cons j π ih =>
    simp only [descend, same]
    exact congrArg _ (funext fun _ => ih)

theorem unmap_clean (slot : next (s.mem s.root 511) = some s.root) (reaches : descend next s.mem s.root (upper page) = some t)
    (absent : present (s.mem t (last page)) = false) (f : ℕ) : ¬ ThroughNull s (unmap_page f page s) := by
  obtain ⟨first, clean, ran⟩ := descend_tables_clean slot (π := []) (ρ := upper page) (le_refl 3) rfl reaches
  rw [List.nil_append] at ran
  obtain ⟨entry, isEntry⟩ : ∃ entry, entry = entry_addr (recursive (upper page)) (last page) := ⟨_, rfl⟩
  have window : Window s.mem s.root s.root := ⟨slot, slot⟩
  have resolves := window.resolve (le_refl 3) reaches (last page)
  have high := recursive_high (π := upper page) (le_refl 3) (last page)
  rw [← isEntry] at resolves high
  have cleared := store_run (s := logs s first) resolves 0x0
  obtain ⟨s₁, isNext⟩ : ∃ s₁, s₁ = logs { s with mem := put s.mem t (last page) 0x0 } ([.store entry t (last page)] ++ first) :=
    ⟨_, rfl⟩
  have kept : Window s₁.mem s₁.root s.root := by
    rw [isNext]
    exact window.keep (next_of_absent absent)
  have still : descend next s₁.mem s.root (upper page) = some t := by
    rw [isNext]
    exact (descend_cleared absent).trans reaches
  have zero : s₁.mem t (last page) = 0 := by rw [isNext]; exact put_same
  have loaded := load_run (kept.resolve (le_refl 3) still (last page))
  rw [← isEntry, zero] at loaded
  have gone : get_physical_frame entry f s₁ = .ok (-1, f) (logs s₁ [.load entry t (last page)]) := by
    rw [get_physical_frame, bind_ok loaded]
    rfl
  have stored : store entry 0x0 (logs s first) = .ok () s₁ := by
    rw [cleared, isNext]
    simp [logs]
  have silent : unmap_page f page s = .ok () (logs s₁ [.wrote_cr3 s.cr3, .deallocated f, .load entry t (last page)]) := by
    rw [unmap_page_eq, bind_ok ran, ← isEntry, set_unused, bind_ok stored, bind_ok gone, isNext]
    rfl
  refine not_through_null ([.wrote_cr3 s.cr3, .deallocated f, .load entry t (last page), .store entry t (last page)] ++ first)
    silent (by rw [isNext]; rfl) (Clean.append (fun e member => ?_) clean)
  simp only [List.mem_cons, List.not_mem_nil, or_false] at member
  rcases member with rfl | rfl | rfl | rfl
  · rfl
  · rfl
  · simpa [null_access] using high
  · simpa [null_access] using high

/-- With an absent entry on its path, unmapping a page stays away from NULL exactly if its tables are there. -/
theorem unmap_iff (slot : next (s.mem s.root 511) = some s.root) (gap : Gap s.mem s.root (path page)) :
    (∀ f, ¬ ThroughNull s (unmap_page f page s)) ↔ HasTables s.mem s.root page := by
  rcases gap_snoc gap with above | ⟨t, reaches, absent⟩
  · refine iff_of_false (fun safe => safe 0 ?_) (fun ⟨t, reaches⟩ => gap_no_table above reaches)
    have touches := descend_tables_through slot (π := []) (le_refl 3) rfl above (unmap_at_null page 0) (grows_unmap_at page 0)
    rw [unmap_page_eq]
    exact touches
  · exact iff_of_true (unmap_clean slot reaches absent) ⟨t, reaches⟩

end

/-! ### Translating -/

section
variable {page : ℕ}

/-- What `translate_page` does with an entry of level 2. -/
def translate_entry (page f table entry : ℕ) : Kernel A (ℤ × ℕ) :=
  if entry &&& huge_bit ≠ 0 then do
    let (result, frame) ← get_physical_frame (entry_addr table (second page)) f
    if result ≠ 0 then pure (-1, frame) else pure (0, wrap (frame + get_p1_index page))
  else do
    let table ← descened_page_table table (second page)
    get_physical_frame (entry_addr table (last page)) f

/-- What it does at a table of level 2. -/
def translate_at (page f table : ℕ) : Kernel A (ℤ × ℕ) := do
  let entry ← load (entry_addr table (second page))
  translate_entry page f table entry

/-- The index of a page at level 4, and at level 3. -/
def fourth (page : ℕ) : Index := Fin.ofNat 512 (page / 2 ^ 27)
def third (page : ℕ) : Index := Fin.ofNat 512 (page / 2 ^ 18)

theorem two_short (page : ℕ) : (upperTwo page).length ≤ 3 := Nat.le_succ 2

theorem translate_page_eq (page f : ℕ) : (translate_page page f : Kernel A (ℤ × ℕ)) = (do
    let table ← descened_page_table (recursive []) (fourth page)
    let _ ← load (entry_addr table (third page))
    let table ← descened_page_table table (third page)
    translate_at page f table) := by
  obtain ⟨p4, p3, p2, p1⟩ := page_indices page
  change get_p4_index page = (fourth page).val at p4
  change get_p3_index page = (third page).val at p3
  change get_p2_index page = (second page).val at p2
  simp only [translate_page, translate_at, translate_entry, p4, p3, p2, p1]
  rfl

theorem grows_translate_entry (page f table entry : ℕ) : Grows (translate_entry (A := A) page f table entry) := by
  unfold translate_entry
  split
  · refine (grows_get_physical_frame _ _).bind ?_
    rintro ⟨result, frame⟩
    dsimp only
    split
    · exact grows_pure _
    · exact grows_pure _
  · exact (grows_descened _ _).bind fun table => grows_get_physical_frame _ _

theorem grows_translate_at (page f table : ℕ) : Grows (translate_at (A := A) page f table) :=
  (grows_load _).bind fun entry => grows_translate_entry page f table entry

theorem translate_at_null (page f : ℕ) (s : Machine A) : ThroughNull s (translate_at page f NULL s) :=
  ThroughNull.before (load_through_null (second page) s) fun entry => grows_translate_entry page f NULL entry

/-- Where an entry of level 4 or 3 is absent, the next table is read through NULL. -/
theorem translate_page_lost (slot : next (s.mem s.root 511) = some s.root) (gap : Gap s.mem s.root (upperTwo page)) (f : ℕ) :
    ThroughNull s (translate_page page f s) := by
  have below : ∀ table, Grows (do
      let table ← descened_page_table (A := A) table (third page)
      translate_at page f table) := fun table => (grows_descened table _).bind fun table => grows_translate_at page f table
  obtain ⟨event, -, ran⟩ := descend_step slot (π := []) (by simp) rfl (fourth page)
  rw [translate_page_eq]
  rcases gap_cons gap with absent | ⟨u, table, rest⟩
  · change present (s.mem s.root (fourth page)) = false at absent
    rw [if_neg (by simp [absent])] at ran
    exact ThroughNull.after ran (grows_descened _ _)
      (ThroughNull.before (load_through_null (third page) _) fun _ => below NULL)
  · change next (s.mem s.root (fourth page)) = some u at table
    rw [if_pos (next_eq_some.mp table).1] at ran
    have down : descend next s.mem s.root ([] ++ [fourth page]) = some u := (descend_snoc rfl).trans table
    have window : Window s.mem s.root s.root := ⟨slot, slot⟩
    have loaded := load_run (s := logs s [event]) (window.resolve (by simp) down (third page))
    obtain ⟨event', -, ran'⟩ := descend_step (s := logs (logs s [event]) [.load (entry_addr (recursive ([] ++ [fourth page]))
      (third page)) u (third page)]) slot (by simp) down (third page)
    refine ThroughNull.after ran (grows_descened _ _) (ThroughNull.after loaded (grows_load _) ?_)
    rcases gap_cons rest with absent | ⟨v, -, σ, j, w, inside, -⟩
    · change present (s.mem u (third page)) = false at absent
      rw [if_neg (by simpa using absent)] at ran'
      exact ThroughNull.after ran' (grows_descened _ _) (translate_at_null page f _)
    · simp at inside

/-- Where both are tables, `translate_page` comes to the entry of level 2. -/
theorem translate_page_at (slot : next (s.mem s.root 511) = some s.root) (reaches : descend next s.mem s.root (upperTwo page) = some t)
    (f : ℕ) : ∃ events, Clean events ∧ translate_page page f s =
      translate_entry page f (recursive (upperTwo page)) (s.mem t (second page)) (logs s events) := by
  obtain ⟨u, first, more⟩ := Option.bind_eq_some_iff.mp reaches
  obtain ⟨v, below, here⟩ := Option.bind_eq_some_iff.mp more
  change next (s.mem s.root (fourth page)) = some u at first
  change next (s.mem u (third page)) = some v at below
  have down : descend next s.mem s.root ([] ++ [fourth page]) = some u := (descend_snoc rfl).trans first
  have window : Window s.mem s.root s.root := ⟨slot, slot⟩
  obtain ⟨e₁, c₁, ran₁⟩ := descend_step slot (π := []) (by simp) rfl (fourth page)
  obtain ⟨e₂, c₂, ran₂⟩ := load_clean (s := logs s [e₁]) slot (by simp) down (third page)
  obtain ⟨e₃, c₃, ran₃⟩ := descend_step (s := logs (logs s [e₁]) [e₂]) slot (by simp) down (third page)
  obtain ⟨e₄, c₄, ran₄⟩ := load_clean (s := logs (logs (logs s [e₁]) [e₂]) [e₃]) slot (two_short page) reaches (second page)
  rw [if_pos (next_eq_some.mp first).1] at ran₁
  rw [logs_mem, logs_mem, if_pos (next_eq_some.mp below).1] at ran₃
  refine ⟨[e₄] ++ ([e₃] ++ ([e₂] ++ [e₁])), c₄.append (c₃.append (c₂.append c₁)), ?_⟩
  rw [translate_page_eq, bind_ok ran₁, bind_ok ran₂, bind_ok ran₃]
  exact bind_ok ran₄ _

/-- It gives -1 and leaves the variable for the frame as it was. -/
def Refuses (page : ℕ) (s : Machine A) : Prop :=
  ∀ f, ∃ events, Clean events ∧ translate_page page f s = .ok (-1, f) (logs s events)

theorem get_physical_frame_absent (slot : next (s.mem s.root 511) = some s.root) (short : π.length ≤ 3)
    (reaches : descend next s.mem s.root π = some t) {j : Index} (absent : present (s.mem t j) = false) (f : ℕ) :
    ∃ event, Clean [event] ∧ get_physical_frame (entry_addr (recursive π) j) f s = .ok (-1, f) (logs s [event]) := by
  obtain ⟨event, clean, loaded⟩ := load_clean slot short reaches j
  have clear : ¬ s.mem t j &&& present_bit ≠ 0 := by
    rw [and_present_bit, absent]
    simp
  refine ⟨event, clean, ?_⟩
  rw [get_physical_frame, bind_ok loaded, if_neg clear]
  rfl

theorem refuses_small (slot : next (s.mem s.root 511) = some s.root) (reaches : descend next s.mem s.root (upper page) = some t)
    (absent : present (s.mem t (last page)) = false) : Refuses page s := by
  intro f
  obtain ⟨u, down, table⟩ := descend_snoc_some (upper_eq page ▸ reaches)
  obtain ⟨early, clean, start⟩ := translate_page_at slot down f
  have notHuge : ¬ s.mem u (second page) &&& huge_bit ≠ 0 := by
    rw [and_huge_bit, (next_eq_some.mp table).2.1]
    simp
  obtain ⟨e₁, c₁, ran₁⟩ := descend_step (s := logs s early) (π := upperTwo page) slot (le_refl 2) down (second page)
  obtain ⟨e₂, c₂, ran₂⟩ := get_physical_frame_absent (s := logs (logs s early) [e₁]) (π := upper page) slot (le_refl 3)
    reaches absent f
  rw [logs_mem, if_pos (next_eq_some.mp table).1, ← upper_eq] at ran₁
  refine ⟨[e₂] ++ ([e₁] ++ early), c₂.append (c₁.append clean), ?_⟩
  rw [start, translate_entry, if_neg notHuge, bind_ok ran₁, ran₂, logs_logs, logs_logs, List.append_assoc]

theorem refuses_huge (slot : next (s.mem s.root 511) = some s.root) (reaches : descend next s.mem s.root (upperTwo page) = some t)
    (absent : present (s.mem t (second page)) = false) (isHuge : huge (s.mem t (second page)) = true) : Refuses page s := by
  intro f
  obtain ⟨early, clean, start⟩ := translate_page_at slot reaches f
  obtain ⟨event, other, gone⟩ := get_physical_frame_absent (s := logs s early) slot (two_short page) reaches absent f
  refine ⟨[event] ++ early, other.append clean, ?_⟩
  rw [start, translate_entry, if_pos ((and_huge_bit _).mpr isHuge), bind_ok gone, logs_logs]
  rfl

/-- Where the entry of level 2 is absent without the huge bit, the entry of level 1 is read through NULL. -/
theorem translate_page_missing (slot : next (s.mem s.root 511) = some s.root)
    (reaches : descend next s.mem s.root (upperTwo page) = some t) (absent : present (s.mem t (second page)) = false)
    (plain : huge (s.mem t (second page)) = false) (f : ℕ) : ThroughNull s (translate_page page f s) := by
  obtain ⟨early, -, start⟩ := translate_page_at slot reaches f
  have notHuge : ¬ s.mem t (second page) &&& huge_bit ≠ 0 := by
    rw [and_huge_bit, plain]
    simp
  obtain ⟨event, -, ran⟩ := descend_step (s := logs s early) (π := upperTwo page) slot (le_refl 2) reaches (second page)
  rw [logs_mem, if_neg (by simp [absent])] at ran
  rw [start, translate_entry, if_neg notHuge]
  refine through_null_later (ThroughNull.after ran (grows_descened _ _) ?_)
  exact get_physical_frame_through_null (last page) f _

end

/-! ### Absent entries -/

/-- Where an entry is absent, `translate_page` gives -1 if all tables of the page are
    there, or if the entry of level 2 is absent but has the huge bit; otherwise it goes through NULL. -/
theorem translate_page_cases {page : ℕ} (slot : next (s.mem s.root 511) = some s.root) (gap : Gap s.mem s.root (path page)) :
    (HasTables s.mem s.root page ∨ HugeHole s.mem s.root page) ∧ Refuses page s ∨
      ¬ (HasTables s.mem s.root page ∨ HugeHole s.mem s.root page) ∧ ∀ f, ThroughNull s (translate_page page f s) := by
  rcases gap_snoc gap with above | ⟨t, reaches, absent⟩
  · have noTables : ¬ HasTables s.mem s.root page := fun ⟨t, reaches⟩ => gap_no_table above reaches
    rcases gap_snoc (upper_eq page ▸ above) with higher | ⟨t, reaches, absent⟩
    · refine .inr ⟨fun either => ?_, translate_page_lost slot higher⟩
      rcases either with tables | ⟨t, reaches, -⟩
      · exact noTables tables
      · exact gap_no_table higher reaches
    · cases isHuge : huge (s.mem t (second page)) with
      | true => exact .inl ⟨.inr ⟨t, reaches, absent, isHuge⟩, refuses_huge slot reaches absent isHuge⟩
      | false =>
        refine .inr ⟨fun either => ?_, translate_page_missing slot reaches absent isHuge⟩
        rcases either with tables | ⟨u, same, -, bit⟩
        · exact noTables tables
        · obtain rfl := Option.some.inj (reaches.symm.trans same)
          exact absurd (isHuge.symm.trans bit) (by decide)
  · exact .inl ⟨.inl ⟨t, reaches⟩, refuses_small slot reaches absent⟩

/-- `translate` goes on with the variable as it was. -/
theorem Refuses.from_unset {vaddr : ℕ} (refuses : Refuses (vaddr / PAGE_SIZE) s) (canonical : Canonical vaddr) :
    FromUnset vaddr s := by
  intro f
  obtain ⟨events, -, ran⟩ := refuses f
  exact ⟨_, by rw [Paging.translate, bind_ok (get_page_for_vaddr_run canonical s), bind_ok ran]; rfl⟩

theorem not_noticed {vaddr : ℕ} (slot : next (s.mem s.root 511) = some s.root) (canonical : Canonical vaddr)
    (gap : Gap s.mem s.root (path (vaddr / PAGE_SIZE))) : ¬ Noticed vaddr s := by
  intro noticed
  rcases translate_page_cases slot gap with ⟨-, refuses⟩ | ⟨-, touches⟩
  · exact noticed.set (refuses.from_unset canonical)
  · exact noticed.translates 0 (touches 0)

/-- The absence of a mapping is never noticed: either a table is accessed through NULL, or `translate` computes an
    address from a frame that nothing has set. -/
theorem absent_page {vaddr : ℕ} (slot : next (s.mem s.root 511) = some s.root) (canonical : Canonical vaddr)
    (gap : Gap s.mem s.root (path (vaddr / PAGE_SIZE))) :
    ((∀ f, (∃ g s', translate_page (vaddr / PAGE_SIZE) f s = .ok (-1, g) s') ∧
        ¬ ThroughNull s (translate_page (vaddr / PAGE_SIZE) f s)) ↔
      HasTables s.mem s.root (vaddr / PAGE_SIZE) ∨ HugeHole s.mem s.root (vaddr / PAGE_SIZE)) ∧
    ((∀ f, ¬ ThroughNull s (unmap_page f (vaddr / PAGE_SIZE) s)) ↔ HasTables s.mem s.root (vaddr / PAGE_SIZE)) ∧
    (HasTables s.mem s.root (vaddr / PAGE_SIZE) ∨ HugeHole s.mem s.root (vaddr / PAGE_SIZE) → FromUnset vaddr s) ∧
    ¬ Noticed vaddr s := by
  refine ⟨?_, unmap_iff slot gap, ?_, not_noticed slot canonical gap⟩
  · rcases translate_page_cases slot gap with ⟨holds, refuses⟩ | ⟨fails, touches⟩
    · refine iff_of_true (fun f => ?_) holds
      obtain ⟨events, clean, ran⟩ := refuses f
      exact ⟨⟨f, _, ran⟩, not_through_null _ ran rfl clean⟩
    · exact iff_of_false (fun safe => (safe 0).2 (touches 0)) fails
  · intro holds
    rcases translate_page_cases slot gap with ⟨-, refuses⟩ | ⟨fails, -⟩
    · exact refuses.from_unset canonical
    · exact absurd holds fails

end
/-- The entry of level 1 is absent for address 0x6000 of the hierarchy. -/
theorem gap_two_sizes : Gap two_sizes.mem two_sizes.root (path (0x6000 / PAGE_SIZE)) :=
  ⟨[0, 0, 0], 6, 4, by decide, rfl, rfl⟩

theorem absent_page_two_sizes :
    ((∀ f, (∃ g s', translate_page (0x6000 / PAGE_SIZE) f two_sizes = .ok (-1, g) s') ∧
        ¬ ThroughNull two_sizes (translate_page (0x6000 / PAGE_SIZE) f two_sizes)) ↔
      HasTables two_sizes.mem two_sizes.root (0x6000 / PAGE_SIZE) ∨
        HugeHole two_sizes.mem two_sizes.root (0x6000 / PAGE_SIZE)) ∧
    ((∀ f, ¬ ThroughNull two_sizes (unmap_page f (0x6000 / PAGE_SIZE) two_sizes)) ↔
      HasTables two_sizes.mem two_sizes.root (0x6000 / PAGE_SIZE)) ∧
    (HasTables two_sizes.mem two_sizes.root (0x6000 / PAGE_SIZE) ∨
      HugeHole two_sizes.mem two_sizes.root (0x6000 / PAGE_SIZE) → FromUnset 0x6000 two_sizes) ∧
    ¬ Noticed 0x6000 two_sizes :=
  absent_page rfl (by decide) gap_two_sizes

/-- Address 0x6000 is translated to the beginning of any frame. -/
theorem absent_page_from_unset : next (two_sizes.mem two_sizes.root 511) = some two_sizes.root ∧ Canonical 0x6000 ∧
    Gap two_sizes.mem two_sizes.root (path (0x6000 / PAGE_SIZE)) ∧ FromUnset 0x6000 two_sizes ∧ ¬ Noticed 0x6000 two_sizes := by
  have refused : Refuses (0x6000 / PAGE_SIZE) two_sizes := refuses_small rfl (show _ = some 4 from rfl) rfl
  have unset : FromUnset 0x6000 two_sizes := refused.from_unset (by decide)
  exact ⟨rfl, by decide, gap_two_sizes, unset, fun noticed => noticed.set unset⟩

end OsC.Absent
