import OsC.FrameRuns
import OsC.HugePages

/-!
Mapping a page while physical memory runs out. `map_page` does not look at the
result of `allocate_frame`, and no caller looks whether
`get_next_page_table_or_create` gave NULL. If a call fails, a table is accessed
through NULL or frame 0 is mapped, but for one case (`exhaustion_iff`).
-/
namespace OsC.Exhaustion
open OsC.Word OsC.Frames OsC.Loop OsC.Entry OsC.Radix OsC.Walk OsC.Paging OsC.Recursive OsC.Tables OsC.PageMap OsC.HugePages

/-! ### Failing calls -/

section
variable {A : Type}

/-- An allocator that failed goes on failing, with 0 in the caller's frame. -/
structure Persistent (alloc : A → ℤ × ℕ × A) : Prop where
  number : ∀ a, (alloc a).1 ≠ 0 → (alloc a).2.1 = 0
  again : ∀ a, (alloc a).1 ≠ 0 → (alloc (alloc a).2.2).1 ≠ 0

/-- The allocator with a flag that a failing call sets. -/
def watch (alloc : A → ℤ × ℕ × A) (a : A × Bool) : ℤ × ℕ × A × Bool :=
  ((alloc a.1).1, (alloc a.1).2.1, (alloc a.1).2.2, a.2 || (alloc a.1).1 != 0)

/-- The machine with the flag. -/
def flagged (s : Machine A) (failed : Bool) : Machine (A × Bool) :=
  { mem := s.mem, cr3 := s.cr3, allocator := (s.allocator, failed), trace := s.trace }

/-- Some call of the allocator inside `map_page` fails. -/
def Fails (alloc : A → ℤ × ℕ × A) (page flags : ℕ) (s : Machine A) : Prop :=
  (final (map_page (watch alloc) page flags (flagged s false))).allocator.2 = true

/-! ### What a run is to leave alone -/

/-- An access at the addresses of a table at NULL. -/
def null_access : Event → Bool
  | .load vaddr _ _ => vaddr < PAGE_SIZE
  | .store vaddr _ _ => vaddr < PAGE_SIZE
  | _ => false

/-- A run accesses a table through NULL, or faults there. -/
def ThroughNull {α : Type} (s : Machine A) (result : EStateM.Result Fault (Machine A) α) : Prop :=
  (∃ events, (final result).trace = events ++ s.trace ∧ ∃ e ∈ events, null_access e = true) ∨
    ∃ vaddr s', result = .error (.page_fault vaddr) s' ∧ vaddr < PAGE_SIZE

/-- The action keeps the walk of every page and accesses no table through NULL. -/
structure Unharmed (action : Kernel A Unit) (s : Machine A) : Prop where
  walks : ∀ q, walk (final (action s)).mem (final (action s)).root (path q) = walk s.mem s.root (path q)
  tables : ¬ ThroughNull s (action s)

end
/-! ### Runs add events -/

section
variable {A α β : Type} {alloc : A → ℤ × ℕ × A} {s s' : Machine A} {x : Kernel A α} {f : α → Kernel A β} {a : α}

def Grows (x : Kernel A α) : Prop := ∀ s, ∃ events, (final (x s)).trace = events ++ s.trace

theorem Grows.bind (first : Grows x) (rest : ∀ a, Grows (f a)) : Grows (x >>= f) := by
  intro s
  obtain ⟨early, begins⟩ := first s
  cases ran : x s with
  | error e s₁ =>
    rw [bind_error ran]
    rw [ran] at begins
    exact ⟨early, begins⟩
  | ok a s₁ =>
    rw [bind_ok ran]
    rw [ran] at begins
    obtain ⟨late, ends⟩ := rest a s₁
    refine ⟨late ++ early, ?_⟩
    rw [ends, show s₁.trace = early ++ s.trace from begins, List.append_assoc]

theorem descened_final (table : ℕ) (i : Index) (s : Machine A) :
    ∃ events, final (descened_page_table table i s) = logs s events := by
  rw [descened_page_table_eq]
  cases resolve s.mem s.root (entry_addr table i) with
  | none => exact ⟨[], rfl⟩
  | some place => exact ⟨[_], rfl⟩

theorem set_entry_final (entry frame flags : ℕ) (s : Machine A) :
    ∃ mem events, final (set_page_table_entry entry frame flags s) = logs { s with mem } events := by
  rw [set_page_table_entry_eq, store]
  cases resolve s.mem s.root entry with
  | none => exact ⟨s.mem, [], rfl⟩
  | some place => exact ⟨_, [_], rfl⟩

theorem grows_descened (table : ℕ) (i : Index) : Grows (descened_page_table (A := A) table i) := by
  intro s
  obtain ⟨events, ends⟩ := descened_final table i s
  rw [ends]
  exact ⟨events, rfl⟩

theorem grows_set_entry (entry frame flags : ℕ) : Grows (set_page_table_entry (A := A) entry frame flags) := by
  intro s
  obtain ⟨mem, events, ends⟩ := set_entry_final entry frame flags s
  rw [ends]
  exact ⟨events, rfl⟩

/-- A call of the allocator accesses no memory. -/
theorem allocate_frame_run (alloc : A → ℤ × ℕ × A) (s : Machine A) :
    ∃ events, allocate_frame alloc s = .ok ((alloc s.allocator).1, (alloc s.allocator).2.1)
        (logs { s with allocator := (alloc s.allocator).2.2 } events) ∧ ∀ e ∈ events, null_access e = false := by
  unfold allocate_frame
  rcases alloc s.allocator with ⟨result, frame, a⟩
  by_cases success : result = 0
  · refine ⟨[.allocated frame], by simp [success, Machine.log, logs], fun e member => ?_⟩
    rw [List.mem_singleton.mp member]
    rfl
  · exact ⟨[], by simp [success, logs], by simp⟩

theorem grows_allocate (alloc : A → ℤ × ℕ × A) : Grows (allocate_frame alloc) := by
  intro s
  obtain ⟨events, ran, -⟩ := allocate_frame_run alloc s
  rw [ran]
  exact ⟨events, rfl⟩

/-- A level begins with a descent. -/
theorem get_next_begins (alloc : A → ℤ × ℕ × A) (table : ℕ) (i : Index) :
    ∃ rest : ℕ → Kernel A ℕ, get_next_page_table_or_create alloc table i = descened_page_table table i >>= rest ∧
      ∀ tbl, Grows (rest tbl) := by
  refine ⟨_, rfl, fun tbl => ?_⟩
  split
  · refine (grows_allocate alloc).bind ?_
    rintro ⟨success, frame⟩
    dsimp only
    split
    · refine (grows_set_entry _ _ _).bind fun _ => ?_
      refine Grows.bind (fun s => ⟨[_], congrArg (fun r => (final r).trace) (flush_tlb_run s)⟩) fun _ => ?_
      exact grows_descened table i
    · exact grows_descened table i
  · exact grows_descened table i

theorem grows_get_next (alloc : A → ℤ × ℕ × A) (table : ℕ) (i : Index) :
    Grows (get_next_page_table_or_create alloc table i) := by
  obtain ⟨rest, same, grows⟩ := get_next_begins alloc table i
  rw [same]
  exact (grows_descened table i).bind grows

/-- What `map_page_to_frame` does from a table: the levels along indices and then the entry of the page. -/
def fill (alloc : A → ℤ × ℕ × A) (j : Index) (frame flags table : ℕ) (ρ : List Index) : Kernel A Unit := do
  let table ← create alloc table ρ
  set_page_table_entry (entry_addr table j) frame flags

theorem fill_nil (j : Index) (frame flags table : ℕ) :
    fill alloc j frame flags table [] = set_page_table_entry (entry_addr table j) frame flags := by
  rw [fill, create, pure_bind]

theorem fill_cons (j : Index) (frame flags table : ℕ) (i : Index) (ρ : List Index) :
    fill alloc j frame flags table (i :: ρ) = (do
      let table ← get_next_page_table_or_create alloc table i
      fill alloc j frame flags table ρ) := by
  simp only [fill, create, bind_assoc]

theorem grows_fill (j : Index) (frame flags table : ℕ) (ρ : List Index) : Grows (fill alloc j frame flags table ρ) := by
  induction ρ generalizing table with
  | nil =>
    rw [fill_nil]
    exact grows_set_entry _ _ _
  | cons i ρ ih =>
    rw [fill_cons]
    exact (grows_get_next alloc table i).bind ih

/-! ### Accesses through NULL -/

/-- A run that begins with an access through NULL has it. -/
theorem ThroughNull.before (touches : ThroughNull s (x s)) (rest : ∀ a, Grows (f a)) : ThroughNull s ((x >>= f) s) := by
  cases ran : x s with
  | error e s₁ =>
    rw [bind_error ran]
    rw [ran] at touches
    rcases touches with seen | ⟨vaddr, s', same, low⟩
    · exact .inl seen
    · cases same
      exact .inr ⟨vaddr, s₁, rfl, low⟩
  | ok a s₁ =>
    rw [bind_ok ran]
    rw [ran] at touches
    rcases touches with ⟨early, begins, event, member, isNull⟩ | ⟨_, _, same, _⟩
    · obtain ⟨late, ends⟩ := rest a s₁
      refine .inl ⟨late ++ early, ?_, event, List.mem_append_right late member, isNull⟩
      rw [ends, show s₁.trace = early ++ s.trace from begins, List.append_assoc]
    · cases same

/-- A run that goes on with one has it. -/
theorem ThroughNull.after (ran : x s = .ok a s') (first : Grows x) (touches : ThroughNull s' (f a s')) :
    ThroughNull s ((x >>= f) s) := by
  rw [bind_ok ran]
  obtain ⟨early, begins⟩ := first s
  rw [ran] at begins
  rcases touches with ⟨late, ends, event, member, isNull⟩ | fault
  · refine .inl ⟨late ++ early, ?_, event, List.mem_append_left early member, isNull⟩
    rw [ends, show s'.trace = early ++ s.trace from begins, List.append_assoc]
  · exact .inr fault

theorem null_low (j : Index) : entry_addr NULL j < PAGE_SIZE := by
  rw [null_entry]
  have := j.isLt
  unfold PAGE_SIZE
  omega

theorem descened_through_null (j : Index) (s : Machine A) : ThroughNull s (descened_page_table NULL j s) := by
  have low := null_low j
  rw [descened_page_table_eq]
  cases resolve s.mem s.root (entry_addr NULL j) with
  | none => exact .inr ⟨_, s, rfl, low⟩
  | some place => exact .inl ⟨_, rfl, _, List.mem_singleton_self _, by simpa [null_access] using low⟩

theorem set_entry_through_null (j : Index) (frame flags : ℕ) (s : Machine A) :
    ThroughNull s (set_page_table_entry (entry_addr NULL j) frame flags s) := by
  have low := null_low j
  rw [set_page_table_entry_eq, store]
  cases resolve s.mem s.root (entry_addr NULL j) with
  | none => exact .inr ⟨_, s, rfl, low⟩
  | some place => exact .inl ⟨[_], rfl, _, List.mem_singleton_self _, by simpa [null_access] using low⟩

/-- The levels below NULL are accessed through it. -/
theorem fill_null (j : Index) (frame flags : ℕ) (ρ : List Index) (s : Machine A) :
    ThroughNull s (fill alloc j frame flags NULL ρ s) := by
  cases ρ with
  | nil =>
    rw [fill_nil]
    exact set_entry_through_null j frame flags s
  | cons i ρ =>
    obtain ⟨rest, same, grows⟩ := get_next_begins alloc NULL i
    rw [fill_cons, same, bind_assoc]
    refine ThroughNull.before (descened_through_null i s) fun tbl => ?_
    exact (grows tbl).bind fun table => grows_fill j frame flags table ρ

/-! ### A level whose call fails -/

theorem descened_keeps (table : ℕ) (i : Index) (s : Machine A) :
    (final (descened_page_table table i s)).allocator = s.allocator := by
  obtain ⟨events, ends⟩ := descened_final table i s
  rw [ends]
  rfl

theorem set_entry_keeps (entry frame flags : ℕ) (s : Machine A) :
    (final (set_page_table_entry entry frame flags s)).allocator = s.allocator := by
  obtain ⟨mem, events, ends⟩ := set_entry_final entry frame flags s
  rw [ends]
  rfl

/-- A level calls the allocator at most once; if the call fails it gives NULL. -/
theorem get_next_cases (alloc : A → ℤ × ℕ × A) (table : ℕ) (i : Index) (s : Machine A) :
    (final (get_next_page_table_or_create alloc table i s)).allocator = s.allocator ∨
      ((alloc s.allocator).1 = 0 ∧
        (final (get_next_page_table_or_create alloc table i s)).allocator = (alloc s.allocator).2.2) ∨
      ∃ s', get_next_page_table_or_create alloc table i s = .ok NULL s' := by
  have kept := descened_keeps table i s
  cases descends : descened_page_table table i s with
  | error e s₁ =>
    refine .inl ?_
    rw [get_next_page_table_or_create, bind_error descends]
    rw [descends] at kept
    exact kept
  | ok tbl s₁ =>
    rw [descends] at kept
    have same : s₁.allocator = s.allocator := kept
    by_cases null : tbl = NULL
    · subst null
      by_cases success : (alloc s.allocator).1 = 0
      · refine .inr (.inl ⟨success, ?_⟩)
        obtain ⟨events, allocated, -⟩ := allocate_frame_run alloc s₁
        rw [same, success] at allocated
        rw [get_next_page_table_or_create, bind_ok descends, if_pos rfl, bind_ok allocated]
        obtain ⟨s₂, isNext⟩ : ∃ s₂, s₂ = logs { s₁ with allocator := (alloc s.allocator).2.2 } events := ⟨_, rfl⟩
        have next : s₂.allocator = (alloc s.allocator).2.2 := by rw [isNext]; rfl
        rw [← isNext, ← next]
        change (final ((if (0 : ℤ) = 0 then _ else _ : Kernel A ℕ) s₂)).allocator = _
        rw [if_pos rfl]
        have stored := set_entry_keeps (entry_addr table i) (alloc s.allocator).2.1 (present_bit ||| writeable_bit) s₂
        cases stores : set_page_table_entry (entry_addr table i) (alloc s.allocator).2.1 (present_bit ||| writeable_bit) s₂ with
        | error e s₃ =>
          rw [stores] at stored
          rw [bind_error stores]
          exact stored
        | ok u s₃ =>
          rw [stores] at stored
          rw [bind_ok stores, bind_ok (flush_tlb_run s₃)]
          exact (descened_keeps table i _).trans stored
      · obtain ⟨events, -, ran⟩ := get_next_unsupplied descends success
        exact .inr (.inr ⟨_, ran⟩)
    · refine .inl ?_
      rw [get_next_page_table_or_create, bind_ok descends, if_neg null]
      exact (descened_keeps table i s₁).trans same

/-- If a call below a table fails, there is an access through NULL. -/
theorem fill_fails (j : Index) (frame flags : ℕ) {table : ℕ} {ρ : List Index} {w : Machine (A × Bool)}
    (before : w.allocator.2 = false) (fails : (final (fill (watch alloc) j frame flags table ρ w)).allocator.2 = true) :
    ThroughNull w (fill (watch alloc) j frame flags table ρ w) := by
  induction ρ generalizing table w with
  | nil =>
    rw [fill_nil, set_entry_keeps, before] at fails
    cases fails
  | cons i ρ ih =>
    rw [fill_cons] at fails ⊢
    -- The flag is not set yet unless the level gives NULL.
    have level : (final (get_next_page_table_or_create (watch alloc) table i w)).allocator.2 = false ∨
        ∃ w', get_next_page_table_or_create (watch alloc) table i w = .ok NULL w' := by
      rcases get_next_cases (watch alloc) table i w with same | ⟨success, next⟩ | null
      · exact .inl (same ▸ before)
      · refine .inl ?_
        rw [next]
        simpa [watch, before] using success
      · exact .inr null
    rcases level with still | ⟨w', null⟩
    · cases ran : get_next_page_table_or_create (watch alloc) table i w with
      | error e w' =>
        rw [bind_error ran] at fails
        rw [ran] at still
        exact absurd (still.symm.trans fails) (by decide)
      | ok table' w' =>
        rw [bind_ok ran] at fails
        rw [ran] at still
        exact ThroughNull.after ran (grows_get_next _ table i) (ih still fails)
    · exact ThroughNull.after null (grows_get_next _ table i) (fill_null j frame flags ρ w')

end
/-! ### The flag is only set -/

section
variable {A α β : Type} {alloc : A → ℤ × ℕ × A} {x : Kernel (A × Bool) α} {y : Kernel A α}
  {f : α → Kernel (A × Bool) β} {g : α → Kernel A β}

/-- The machine without the flag. -/
def erase (w : Machine (A × Bool)) : Machine A :=
  { mem := w.mem, cr3 := w.cr3, allocator := w.allocator.1, trace := w.trace }

def erase_result : EStateM.Result Fault (Machine (A × Bool)) α → EStateM.Result Fault (Machine A) α
  | .ok a w => .ok a (erase w)
  | .error e w => .error e (erase w)

/-- The actions differ in the flag alone. -/
def Erases (x : Kernel (A × Bool) α) (y : Kernel A α) : Prop := ∀ w, erase_result (x w) = y (erase w)

theorem Erases.bind (first : Erases x y) (rest : ∀ a, Erases (f a) (g a)) : Erases (x >>= f) (y >>= g) := by
  intro w
  have begins := first w
  cases ran : x w with
  | error e w₁ =>
    rw [ran] at begins
    rw [bind_error ran, bind_error begins.symm]
    rfl
  | ok a w₁ =>
    rw [ran] at begins
    rw [bind_ok ran, bind_ok begins.symm]
    exact rest a w₁

theorem erases_descened (table : ℕ) (i : Index) :
    Erases (descened_page_table (A := A × Bool) table i) (descened_page_table table i) := by
  intro w
  rw [descened_page_table_eq, descened_page_table_eq, show (erase w).mem = w.mem from rfl,
    show (erase w).root = w.root from rfl]
  cases resolve w.mem w.root (entry_addr table i) with
  | none => rfl
  | some place => rfl

theorem erases_set_entry (entry frame flags : ℕ) :
    Erases (set_page_table_entry (A := A × Bool) entry frame flags) (set_page_table_entry entry frame flags) := by
  intro w
  rw [set_page_table_entry_eq, set_page_table_entry_eq, store, store, show (erase w).mem = w.mem from rfl,
    show (erase w).root = w.root from rfl]
  cases resolve w.mem w.root entry with
  | none => rfl
  | some place => rfl

theorem erases_allocate (alloc : A → ℤ × ℕ × A) : Erases (allocate_frame (watch alloc)) (allocate_frame alloc) := by
  intro w
  unfold allocate_frame
  simp only [watch, show (erase w).allocator = w.allocator.1 from rfl]
  by_cases success : (alloc w.allocator.1).1 = 0
  · simp only [success, if_true]
    rfl
  · simp only [success, if_false]
    rfl

theorem erases_get_next (alloc : A → ℤ × ℕ × A) (table : ℕ) (i : Index) :
    Erases (get_next_page_table_or_create (watch alloc) table i) (get_next_page_table_or_create alloc table i) := by
  refine (erases_descened table i).bind fun tbl => ?_
  split
  · refine (erases_allocate alloc).bind ?_
    rintro ⟨success, frame⟩
    dsimp only
    split
    · refine (erases_set_entry _ _ _).bind fun _ => ?_
      refine Erases.bind (x := flush_tlb) (y := flush_tlb) (fun w => rfl) fun _ => ?_
      exact erases_descened table i
    · exact erases_descened table i
  · exact erases_descened table i

theorem erases_fill (j : Index) (frame flags table : ℕ) (ρ : List Index) :
    Erases (fill (watch alloc) j frame flags table ρ) (fill alloc j frame flags table ρ) := by
  induction ρ generalizing table with
  | nil =>
    rw [fill_nil, fill_nil]
    exact erases_set_entry _ _ _
  | cons i ρ ih =>
    rw [fill_cons, fill_cons]
    exact (erases_get_next alloc table i).bind ih

theorem map_page_eq (alloc : A → ℤ × ℕ × A) (page flags : ℕ) :
    map_page alloc page flags = (do
      let (_, frame) ← allocate_frame alloc
      fill alloc (last page) frame (present_bit ||| flags) (recursive []) (upper page)) := by
  simp only [map_page, map_page_to_frame_eq, fill]

theorem erases_map_page (alloc : A → ℤ × ℕ × A) (page flags : ℕ) :
    Erases (map_page (watch alloc) page flags) (map_page alloc page flags) := by
  rw [map_page_eq, map_page_eq]
  exact (erases_allocate alloc).bind fun given => erases_fill _ _ _ _ _

theorem Erases.throughNull (erases : Erases x y) {w : Machine (A × Bool)} (touches : ThroughNull w (x w)) :
    ThroughNull (erase w) (y (erase w)) := by
  rw [← erases w]
  rcases touches with ⟨events, grown, seen⟩ | ⟨vaddr, w', fault, low⟩
  · refine .inl ⟨events, ?_, seen⟩
    cases ran : x w with
    | ok a w' => rw [ran] at grown; exact grown
    | error e w' => rw [ran] at grown; exact grown
  · exact .inr ⟨vaddr, erase w', by rw [fault]; rfl, low⟩

end
/-! ### The tables of a page, as the kernel finds them -/

/-- The frame at the recursive address of a path. Below a huge entry it lies in the page. -/
def place (mem : Tables) (root : ℕ) (π : List Index) : Option ℕ :=
  if π = [] then some root else (walk mem root π).map Prod.fst

/-- Behind a path the entries along indices are present, each read at its recursive address. -/
def Found (mem : Tables) (root : ℕ) : List Index → List Index → Prop
  | _, [] => True
  | π, i :: ρ => (∃ t, place mem root π = some t ∧ present (mem t i) = true) ∧ Found mem root (π ++ [i]) ρ

section
variable {mem : Tables} {root t u : ℕ} {π ρ : List Index} {i : Index}

/-- Where an entry is present its recursive address leads on. -/
theorem walk_snoc {flags : ℕ} (short : π.length ≤ 2) (walks : walk mem t π = some (u, flags))
    (isPresent : present (mem u i) = true) : ∃ x, walk mem t (π ++ [i]) = some x := by
  induction π generalizing t with
  | nil => cases walks
  | cons j π ih =>
    have here : present (mem t j) = true := by
      cases absent : present (mem t j) with
      | false =>
        rw [walk_absent absent] at walks
        cases walks
      | true => rfl
    have less : (π ++ [i]).length < 3 := by simp at short ⊢; omega
    cases isHuge : huge (mem t j) with
    | true =>
      refine ⟨leaf (mem t j) (π ++ [i]), ?_⟩
      simp only [List.cons_append, walk, here, isHuge, less]
      simp
    | false =>
      have table := next_of_present here isHuge
      rw [List.cons_append, walk_next (by simp) table]
      cases π with
      | nil =>
        rw [walk_last, if_pos here] at walks
        obtain ⟨rfl, -⟩ := Prod.mk.inj (Option.some.inj walks)
        exact ⟨_, by rw [List.nil_append, walk_last, if_pos isPresent]⟩
      | cons k π =>
        rw [walk_next (by simp) table] at walks
        exact ih (by simp only [List.length_cons] at short ⊢; omega) walks

theorem place_snoc (short : π.length ≤ 2) (lies : place mem root π = some t) (isPresent : present (mem t i) = true) :
    ∃ u, place mem root (π ++ [i]) = some u := by
  have walks : ∃ x, walk mem root (π ++ [i]) = some x := by
    by_cases first : π = []
    · subst first
      obtain rfl : root = t := by simpa [place] using lies
      exact ⟨_, by rw [List.nil_append, walk_last, if_pos isPresent]⟩
    · rw [place, if_neg first, Option.map_eq_some_iff] at lies
      obtain ⟨⟨u, flags⟩, walks, rfl⟩ := lies
      exact walk_snoc short walks isPresent
  obtain ⟨x, walks⟩ := walks
  exact ⟨x.1, by rw [place, if_neg (by simp), walks]; rfl⟩

theorem place_of_descend (reaches : descend next mem root π = some t) : place mem root π = some t := by
  by_cases first : π = []
  · subst first
    exact reaches
  · obtain ⟨flags, walks⟩ := walk_of_descend first reaches
    rw [place, if_neg first, walks]
    rfl

theorem resolve_place (slot : next (mem root 511) = some root) (short : π.length ≤ 3) (lies : place mem root π = some t)
    (j : Index) : resolve mem root (entry_addr (recursive π) j) = some (t, 8 * (j : ℕ)) := by
  have window : Window mem root root := ⟨slot, slot⟩
  by_cases first : π = []
  · subst first
    exact window.resolve short lies j
  · obtain ⟨vaddr, same, canonical, offset, path⟩ := recursive_entry short j
    obtain ⟨k, count⟩ : ∃ k, 4 - π.length = k + 1 := ⟨3 - π.length, by omega⟩
    have back : descend next mem root (List.replicate (k + 1) 511) = some root := by
      have := window.descend k []
      rwa [List.append_nil] at this
    rw [place, if_neg first, Option.map_eq_some_iff] at lies
    obtain ⟨⟨u, flags⟩, walks, rfl⟩ := lies
    have walked : walk mem root (indices vaddr) = some (u, flags) := by
      rw [path, count, walk_append first back, walks]
    simp [Walk.resolve, same, canonical, walked, offset]

/-- Recursive addresses lie above the first page. -/
theorem recursive_high (short : π.length ≤ 3) (j : Index) : ¬ entry_addr (recursive π) j < PAGE_SIZE := by
  obtain ⟨vaddr, same, -, -, path⟩ := recursive_entry short j
  obtain ⟨k, count⟩ : ∃ k, 4 - π.length = k + 1 := ⟨3 - π.length, by omega⟩
  rw [count, List.replicate_succ, List.cons_append] at path
  have first : Fin.ofNat 512 (vaddr / 2 ^ 39) = (511 : Index) := (List.cons.inj path).1
  have value : vaddr / 2 ^ 39 % 512 = 511 := congrArg Fin.val first
  rw [same]
  unfold PAGE_SIZE
  omega

end
section
variable {A : Type} {alloc : A → ℤ × ℕ × A} {s : Machine A} {π ρ : List Index} {t : ℕ}

/-- Where all entries are present the levels are gone down without a call. -/
theorem create_found (alloc : A → ℤ × ℕ × A) (slot : next (s.mem s.root 511) = some s.root) (short : (π ++ ρ).length ≤ 3)
    (lies : place s.mem s.root π = some t) (found : Found s.mem s.root π ρ) :
    ∃ u events, place s.mem s.root (π ++ ρ) = some u ∧
      create alloc (recursive π) ρ s = .ok (recursive (π ++ ρ)) (logs s events) ∧ ∀ e ∈ events, null_access e = false := by
  induction ρ generalizing π t s with
  | nil =>
    refine ⟨t, [], by rwa [List.append_nil], ?_, by simp⟩
    rw [create, List.append_nil]
    rfl
  | cons i ρ ih =>
    rw [List.append_cons π i ρ] at short ⊢
    have less : π.length ≤ 2 := by simp at short; omega
    obtain ⟨⟨v, same, isPresent⟩, rest⟩ := found
    obtain rfl := Option.some.inj (lies.symm.trans same)
    obtain ⟨v, down⟩ := place_snoc less lies isPresent
    have ran := get_next_found alloc less (resolve_place slot (by omega) lies i) isPresent
    have high := recursive_high (π := π) (by omega) i
    obtain ⟨event, isLoad⟩ : ∃ e, e = Event.load (entry_addr (recursive π) i) t i := ⟨_, rfl⟩
    have quiet : null_access event = false := by simpa [isLoad, null_access] using high
    rw [← isLoad] at ran
    obtain ⟨u, events, leads, goes, others⟩ := ih (s := logs s [event, event]) slot short down rest
    refine ⟨u, events ++ [event, event], leads, ?_, fun e member => ?_⟩
    · rw [create, bind_ok ran, goes, logs_logs]
    · rcases List.mem_append.mp member with late | early
      · exact others e late
      · rw [show e = event by simpa using early]
        exact quiet

/-- Where one is absent and no frame is left there is an access through NULL. -/
theorem fill_lost (j : Index) (frame flags : ℕ) (slot : next (s.mem s.root 511) = some s.root)
    (short : (π ++ ρ).length ≤ 3) (lies : place s.mem s.root π = some t) (dead : (alloc s.allocator).1 ≠ 0)
    (lost : ¬ Found s.mem s.root π ρ) : ThroughNull s (fill alloc j frame flags (recursive π) ρ s) := by
  induction ρ generalizing π t s with
  | nil => exact absurd trivial lost
  | cons i ρ ih =>
    rw [List.append_cons π i ρ] at short
    have less : π.length ≤ 2 := by simp at short; omega
    have resolves := resolve_place slot (by omega : π.length ≤ 3) lies i
    rw [fill_cons]
    cases isPresent : present (s.mem t i) with
    | true =>
      have rest : ¬ Found s.mem s.root (π ++ [i]) ρ := fun rest => lost ⟨⟨t, lies, isPresent⟩, rest⟩
      obtain ⟨v, down⟩ := place_snoc less lies isPresent
      refine ThroughNull.after (get_next_found alloc less resolves isPresent) (grows_get_next alloc _ i) ?_
      exact ih slot short down dead rest
    | false =>
      have descends := descened_page_table_at less resolves
      rw [if_neg (by simp [isPresent])] at descends
      obtain ⟨events, -, ran⟩ := get_next_unsupplied descends dead
      exact ThroughNull.after ran (grows_get_next alloc _ i) (fill_null j frame flags ρ _)

end
/-! ### Entries that show in a walk -/

section
variable {mem : Tables} {root t u e : ℕ} {π ρ : List Index} {i : Index}

theorem descend_back (slot : next (mem root 511) = some root) (k : ℕ) (π : List Index) :
    descend next mem root (List.replicate k 511 ++ π) = descend next mem root π := by
  cases k with
  | zero => rfl
  | succ k => exact Window.descend ⟨slot, slot⟩ k π

theorem path_surjective {indices : List Index} (length : indices.length = 4) : ∃ q, path q = indices := by
  match indices with
  | [a, b, c, d] =>
    have := a.isLt
    have := b.isLt
    have := c.isLt
    have := d.isLt
    refine ⟨((a.val * 512 + b) * 512 + c) * 512 + d, ?_⟩
    simp only [path, upper, last, List.map, List.cons_append, List.nil_append, List.cons.injEq, and_true]
    refine ⟨Fin.ext ?_, Fin.ext ?_, Fin.ext ?_, Fin.ext ?_⟩ <;> simp only [Fin.ofNat] <;> omega

/-- Each entry of a table is the leaf of some page, which shows what is stored there. -/
theorem put_shows (slot : next (mem root 511) = some root) (short : π.length ≤ 3) (reaches : descend next mem root π = some t)
    (other : ¬ (t = root ∧ i = 511)) (isPresent : present e = true)
    (same : ∀ q, walk (put mem t i e) root (path q) = walk mem root (path q)) : mem t i = e := by
  obtain ⟨σ, shorter, first, still⟩ := descend_put_past i e reaches
  have slot' : next (put mem t i e root 511) = some root := by
    rw [put_other fun here => other ⟨here.1.symm, here.2.symm⟩]
    exact slot
  have four : (List.replicate (3 - σ.length) (511 : Index) ++ σ ++ [i]).length = 4 := by
    simp
    omega
  obtain ⟨q, spelled⟩ := path_surjective four
  have before := (descend_back slot (3 - σ.length) σ).trans first
  have after := (descend_back slot' (3 - σ.length) σ).trans still
  have shows := same q
  rw [spelled, walk_append (by simp) before, walk_append (by simp) after, walk_last, walk_last, put_same,
    if_pos isPresent] at shows
  split at shows
  · obtain ⟨frame, flags⟩ := Prod.mk.inj (Option.some.inj shows)
    exact (entry_eq frame flags).symm
  · cases shows

theorem found_of_descend (reaches : descend next mem root π = some t) (more : descend next mem t ρ = some u) :
    Found mem root π ρ := by
  induction ρ generalizing π t with
  | nil => trivial
  | cons i ρ ih =>
    obtain ⟨v, table, rest⟩ := Option.bind_eq_some_iff.mp more
    exact ⟨⟨t, place_of_descend reaches, (next_eq_some.mp table).1⟩, ih ((descend_snoc reaches).trans table) rest⟩

theorem descend_of_found (reaches : descend next mem root π = some t) (clear : Clear mem t ρ) (found : Found mem root π ρ) :
    ∃ u, descend next mem root (π ++ ρ) = some u := by
  induction ρ generalizing π t with
  | nil => exact ⟨t, by rwa [List.append_nil]⟩
  | cons i ρ ih =>
    obtain ⟨⟨v, lies, isPresent⟩, rest⟩ := found
    obtain rfl := Option.some.inj ((place_of_descend reaches).symm.trans lies)
    have table := next_of_present isPresent (clear.1 isPresent)
    obtain ⟨u, leads⟩ := ih ((descend_snoc reaches).trans table) (clear.2 _ table) rest
    exact ⟨u, by rwa [List.append_assoc] at leads⟩

end
/-! ### Mapping a page -/

section
variable {A : Type} {alloc : A → ℤ × ℕ × A} {s : Machine A} {page flags : ℕ}

/-- The entry of a page with the number that a failing call leaves behind. -/
theorem zero_entry (flags : ℕ) :
    get_frame_start_addr 0 &&& physical_addr_mask ||| (present_bit ||| flags) = present_bit ||| flags := by
  rw [start_addr_masked (by decide), Nat.zero_mul, Nat.zero_or]

/-- Without a frame, but with all its tables, the page gets frame 0. -/
theorem map_page_zero (slot : next (s.mem s.root 511) = some s.root) (persistent : Persistent alloc)
    (dead : (alloc s.allocator).1 ≠ 0) (found : Found s.mem s.root [] (upper page)) (flags : ℕ) :
    ∃ t events, place s.mem s.root (upper page) = some t ∧
      map_page alloc page flags s = .ok () (logs
        { s with mem := put s.mem t (last page) (present_bit ||| flags), allocator := (alloc s.allocator).2.2 } events) ∧
      ∀ e ∈ events, null_access e = false := by
  obtain ⟨early, allocated, quiet⟩ := allocate_frame_run alloc s
  rw [persistent.number _ dead] at allocated
  obtain ⟨s₁, isNext⟩ : ∃ s₁, s₁ = logs { s with allocator := (alloc s.allocator).2.2 } early := ⟨_, rfl⟩
  rw [← isNext] at allocated
  have mem : s₁.mem = s.mem := by rw [isNext]; rfl
  have root : s₁.root = s.root := by rw [isNext]; rfl
  have slot₁ : next (s₁.mem s₁.root 511) = some s₁.root := by rw [mem, root]; exact slot
  obtain ⟨t, middle, lies, ran, others⟩ := create_found alloc (π := []) (ρ := upper page) slot₁ (le_refl 3)
    (show place s₁.mem s₁.root [] = some s₁.root from rfl) (by rw [mem, root]; exact found)
  rw [List.nil_append] at lies ran
  have resolves := resolve_place slot₁ (le_refl 3) lies (last page)
  have stored := store_run (s := logs s₁ middle) resolves (present_bit ||| flags)
  have high := recursive_high (π := upper page) (le_refl 3) (last page)
  obtain ⟨event, isStore⟩ : ∃ e, e = Event.store (entry_addr (recursive (upper page)) (last page)) t (last page) := ⟨_, rfl⟩
  rw [← isStore] at stored
  refine ⟨t, [event] ++ middle ++ early, by rw [← mem, ← root]; exact lies, ?_, fun e member => ?_⟩
  · rw [map_page_eq, bind_ok allocated]
    change fill alloc (last page) 0 (present_bit ||| flags) (recursive []) (upper page) s₁ = _
    rw [fill, bind_ok ran, set_page_table_entry_eq, zero_entry, stored, isNext]
    simp [logs]
  · rcases List.mem_append.mp member with late | first
    · rcases List.mem_append.mp late with final | between
      · rw [List.mem_singleton.mp final, isStore]
        simpa [null_access] using high
      · exact others e between
    · exact quiet e first

/-- Otherwise a failing call leads to an access through NULL. -/
theorem map_page_through_null (slot : next (s.mem s.root 511) = some s.root) (persistent : Persistent alloc)
    (fails : Fails alloc page flags s)
    (needed : (alloc s.allocator).1 ≠ 0 → ¬ Found s.mem s.root [] (upper page)) :
    ThroughNull s (map_page alloc page flags s) := by
  by_cases first : (alloc s.allocator).1 = 0
  · -- The flag is set by a table.
    obtain ⟨events, allocated, -⟩ := allocate_frame_run (watch alloc) (flagged s false)
    obtain ⟨w, isNext⟩ : ∃ w, w = logs { flagged s false with allocator := (watch alloc (s.allocator, false)).2.2 } events :=
      ⟨_, rfl⟩
    have clear : w.allocator.2 = false := by
      rw [isNext]
      simp [watch, first]
    rw [show (flagged s false).allocator = (s.allocator, false) from rfl, ← isNext] at allocated
    have touches : ThroughNull (flagged s false) (map_page (watch alloc) page flags (flagged s false)) := by
      rw [Fails, map_page_eq, bind_ok allocated] at fails
      rw [map_page_eq]
      exact ThroughNull.after allocated (grows_allocate _) (fill_fails _ _ _ clear fails)
    have erased := (erases_map_page alloc page flags).throughNull touches
    exact erased
  · obtain ⟨events, allocated, -⟩ := allocate_frame_run alloc s
    obtain ⟨s₁, isNext⟩ : ∃ s₁, s₁ = logs { s with allocator := (alloc s.allocator).2.2 } events := ⟨_, rfl⟩
    have mem : s₁.mem = s.mem := by rw [isNext]; rfl
    have root : s₁.root = s.root := by rw [isNext]; rfl
    have dead : (alloc s₁.allocator).1 ≠ 0 := by rw [isNext]; exact persistent.again _ first
    rw [← isNext] at allocated
    have lost : ¬ Found s₁.mem s₁.root [] (upper page) := by rw [mem, root]; exact needed first
    rw [map_page_eq]
    refine ThroughNull.after allocated (grows_allocate _) ?_
    exact fill_lost _ _ _ (by rw [mem, root]; exact slot) (le_refl 3) (show place s₁.mem s₁.root [] = some s₁.root from rfl)
      dead lost

/-- In any hierarchy with a recursive slot in which a call of the allocator fails, `map_page`
    does no harm exactly if that is the call for the page itself, no table is
    needed, and no walk shows the entry of frame 0 that it stores. Where no huge page lies
    on the way, that is where the entry is already there. -/
theorem exhaustion_iff (slot : next (s.mem s.root 511) = some s.root) (persistent : Persistent alloc)
    (fails : Fails alloc page flags s) :
    (Unharmed (map_page alloc page flags) s ↔ (alloc s.allocator).1 ≠ 0 ∧ Found s.mem s.root [] (upper page) ∧
      ∃ t, place s.mem s.root (upper page) = some t ∧
        ∀ q, walk (put s.mem t (last page) (present_bit ||| flags)) s.root (path q) = walk s.mem s.root (path q)) ∧
    (Clear s.mem s.root (upper page) → ¬ (descend next s.mem s.root (upper page) = some s.root ∧ last page = 511) →
      (Unharmed (map_page alloc page flags) s ↔ (alloc s.allocator).1 ≠ 0 ∧
        ∃ t, descend next s.mem s.root (upper page) = some t ∧ s.mem t (last page) = present_bit ||| flags)) := by
  have exact : Unharmed (map_page alloc page flags) s ↔ (alloc s.allocator).1 ≠ 0 ∧ Found s.mem s.root [] (upper page) ∧
      ∃ t, place s.mem s.root (upper page) = some t ∧
        ∀ q, walk (put s.mem t (last page) (present_bit ||| flags)) s.root (path q) = walk s.mem s.root (path q) := by
    by_cases spared : (alloc s.allocator).1 ≠ 0 ∧ Found s.mem s.root [] (upper page)
    · obtain ⟨dead, found⟩ := spared
      obtain ⟨t, events, lies, ran, quiet⟩ := map_page_zero slot persistent dead found flags
      constructor
      · intro unharmed
        have walks := unharmed.walks
        rw [ran] at walks
        exact ⟨dead, found, t, lies, walks⟩
      · rintro ⟨-, -, t', lies', walks⟩
        obtain rfl := Option.some.inj (lies.symm.trans lies')
        refine ⟨by rw [ran]; exact walks, ?_⟩
        rw [ran]
        rintro (⟨events', grown, e, member, isNull⟩ | ⟨_, _, fault, _⟩)
        · obtain rfl : events = events' := List.append_cancel_right grown
          rw [quiet e member] at isNull
          cases isNull
        · cases fault
    · constructor
      · intro unharmed
        exact absurd (map_page_through_null slot persistent fails fun dead found => spared ⟨dead, found⟩) unharmed.tables
      · rintro ⟨dead, found, -⟩
        exact absurd ⟨dead, found⟩ spared
  refine ⟨exact, fun clear other => exact.trans (and_congr_right fun _ => ?_)⟩
  constructor
  · rintro ⟨found, t, lies, walks⟩
    obtain ⟨u, reaches⟩ := descend_of_found (π := []) rfl clear found
    rw [List.nil_append] at reaches
    obtain rfl := Option.some.inj ((place_of_descend reaches).symm.trans lies)
    refine ⟨u, reaches, put_shows slot (le_refl 3) reaches ?_ ?_ walks⟩
    · rintro ⟨rfl, same⟩
      exact other ⟨reaches, same⟩
    · rw [present, Nat.testBit_or]
      rfl
  · rintro ⟨t, reaches, same⟩
    refine ⟨found_of_descend (π := []) rfl reaches, t, place_of_descend reaches, fun q => ?_⟩
    rw [put_self same]

end
/-! ### The frame allocator of the kernel -/

section
open OsC.FrameAllocator OsC.FrameRuns

/-- A failing call leaves 0 in the caller's frame, and no current area. -/
theorem allocate_frame_failed {a : frame_allocator} {r : ℤ × ℕ × frame_allocator} (returns : Returns allocate_turn a r) :
    r.1 ≠ 0 → r.2.1 = 0 ∧ allocate_turn r.2.2 = .inr (-1, 0, r.2.2) := by
  refine Returns.invariant (I := fun _ => True)
    (Q := fun r => r.1 ≠ 0 → r.2.1 = 0 ∧ allocate_turn r.2.2 = .inr (-1, 0, r.2.2)) (fun _ _ _ _ => trivial) ?_ trivial returns
  intro b r _ leaves failed
  rcases turn_leaves leaves with ⟨_, rfl⟩ | ⟨_, _, _, rfl⟩
  · exact ⟨rfl, leaves⟩
  · exact absurd rfl failed

theorem next_frame_persistent (turns : ℕ) : Persistent (next_frame turns) := by
  have minusOne : (-1 : ℤ) ≠ 0 := by decide
  have both : ∀ a, (next_frame turns a).1 ≠ 0 → (next_frame turns a).2.1 = 0 ∧ (next_frame turns (next_frame turns a).2.2).1 ≠ 0 := by
    intro a failed
    cases ran : FrameAllocator.allocate_frame turns a with
    | none =>
      have same : next_frame turns a = (-1, 0, a) := by rw [next_frame, ran]; rfl
      rw [same]
      exact ⟨rfl, by rw [same]; exact minusOne⟩
    | some r =>
      have same : next_frame turns a = r := by rw [next_frame, ran]; rfl
      rw [same] at failed ⊢
      obtain ⟨zero, turn⟩ := allocate_frame_failed ⟨turns, ran⟩ failed
      refine ⟨zero, ?_⟩
      cases turns with
      | zero => cases ran
      | succ turns =>
        rw [next_frame, FrameAllocator.allocate_frame, iterate_of_inr turn]
        exact minusOne
  exact ⟨fun a failed => (both a failed).1, fun a failed => (both a failed).2⟩

/-- A machine with a table at each level for the first pages, after the last frame was given out. -/
def used_up : Machine frame_allocator :=
  { mem := fun f i =>
      if f = 0x101 then if i = 511 then link 0x101 else if i = 0 then link 0x102 else 0
      else if (f = 0x102 ∨ f = 0x103) ∧ i = 0 then link (f + 1) else 0
    cr3 := link 0x101
    allocator := { init_allocator two_areas with next_free_frame := 0x210, entry_index := 2 }
    trace := [] }

theorem used_up_slot : next (used_up.mem used_up.root 511) = some used_up.root := by decide +kernel

theorem used_up_fails : Fails (next_frame 1) 5 2 used_up := by
  unfold Fails
  decide +kernel

theorem exhaustion_iff_used_up :
    (Unharmed (map_page (next_frame 1) 5 2) used_up ↔ (next_frame 1 used_up.allocator).1 ≠ 0 ∧
      Found used_up.mem used_up.root [] (upper 5) ∧ ∃ t, place used_up.mem used_up.root (upper 5) = some t ∧
        ∀ q, walk (put used_up.mem t (last 5) (present_bit ||| 2)) used_up.root (path q) =
          walk used_up.mem used_up.root (path q)) ∧
    (Clear used_up.mem used_up.root (upper 5) →
      ¬ (descend next used_up.mem used_up.root (upper 5) = some used_up.root ∧ last 5 = 511) →
      (Unharmed (map_page (next_frame 1) 5 2) used_up ↔ (next_frame 1 used_up.allocator).1 ≠ 0 ∧
        ∃ t, descend next used_up.mem used_up.root (upper 5) = some t ∧ used_up.mem t (last 5) = present_bit ||| 2)) :=
  exhaustion_iff used_up_slot (next_frame_persistent 1) used_up_fails

/-- Without a frame left, an unmapped page is mapped to frame 0. -/
theorem frame_zero_mapped : next (used_up.mem used_up.root 511) = some used_up.root ∧ Ordinary (upper 5) ∧
    Fails (next_frame 1) 5 2 used_up ∧ walk used_up.mem used_up.root (path 5) = none ∧
      walk (final (map_page (next_frame 1) 5 2 used_up)).mem (final (map_page (next_frame 1) 5 2 used_up)).root (path 5) = some (0, 3) ∧
        ¬ Unharmed (map_page (next_frame 1) 5 2) used_up := by
  have before : walk used_up.mem used_up.root (path 5) = none := by decide +kernel
  have after : walk (final (map_page (next_frame 1) 5 2 used_up)).mem (final (map_page (next_frame 1) 5 2 used_up)).root (path 5) =
      some (0, 3) := by decide +kernel
  refine ⟨used_up_slot, ⟨le_refl 3, by decide⟩, used_up_fails, before, after, fun unharmed => ?_⟩
  have same := unharmed.walks 5
  rw [before, after] at same
  cases same

end
end OsC.Exhaustion
