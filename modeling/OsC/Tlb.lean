import OsC.Caching
import OsC.PageMap

/-!
Paging on a processor with a translation lookaside buffer. The functions that
change tables are programs of memory accesses here, so that the buffer can fill
between any two of them and every access can be translated by it. A call leaves
the buffer coherent if its last store is flushed, or if nothing can have been
kept of the entry that it changes; `map_page_to_frame` stores its entry last and
does not flush (`coherent_after_calls`).
-/
namespace OsC.Tlb
open OsC.Word OsC.Frames OsC.Loop OsC.Entry OsC.Radix OsC.Walk OsC.Caching OsC.Paging OsC.Recursive OsC.Tables OsC.PageMap

/-! ### Programs -/

inductive Program (α : Type)
  | done (a : α)
  | fail (fault : Fault)
  | load (vaddr : ℕ) (k : ℕ → Program α)
  | store (vaddr value : ℕ) (k : Program α)
  | read_tlb (k : ℕ → Program α)
  | write_tlb (val : ℕ) (k : Program α)
  | allocate_frame (k : ℤ × ℕ → Program α)
  | deallocate_frame (frame : ℕ) (k : Program α)

section
variable {α β : Type}

def Program.bind : Program α → (α → Program β) → Program β
  | .done a, f => f a
  | .fail fault, _ => .fail fault
  | .load vaddr k, f => .load vaddr fun value => (k value).bind f
  | .store vaddr value k, f => .store vaddr value (k.bind f)
  | .read_tlb k, f => .read_tlb fun val => (k val).bind f
  | .write_tlb val k, f => .write_tlb val (k.bind f)
  | .allocate_frame k, f => .allocate_frame fun result => (k result).bind f
  | .deallocate_frame frame k, f => .deallocate_frame frame (k.bind f)

instance : Monad Program where
  pure := .done
  bind := .bind

def load (vaddr : ℕ) : Program ℕ := .load vaddr .done
def store (vaddr value : ℕ) : Program Unit := .store vaddr value (.done ())
def read_tlb : Program ℕ := .read_tlb .done
def write_tlb (val : ℕ) : Program Unit := .write_tlb val (.done ())
def allocate_frame : Program (ℤ × ℕ) := .allocate_frame .done
def deallocate_frame (frame : ℕ) : Program Unit := .deallocate_frame frame (.done ())

def assert (holds : Bool) (text : String) : Program Unit := if holds then pure () else .fail (.assertion text)

def flush_tlb : Program Unit := do write_tlb (← read_tlb)

def set_unused (entry : ℕ) : Program Unit := store entry 0x0

def descened_page_table (table index : ℕ) : Program ℕ :=
  if index ≥ 512 then pure NULL
  else do
    let entry ← load (entry_addr table index)
    if entry &&& (present_bit ||| lnot huge_bit) ≠ 0 then pure (wrap (table <<< 9) ||| index <<< 12) else pure NULL

def set_page_table_entry (entry frame flags : ℕ) : Program Unit := do
  assert (lnot physical_addr_mask &&& get_frame_start_addr frame == 0)
    "((!physical_addr_mask) & get_frame_start_addr(frame)) == 0"
  store entry (get_frame_start_addr frame &&& physical_addr_mask ||| flags)

def get_physical_frame (entry f : ℕ) : Program (ℤ × ℕ) := do
  let value ← load entry
  if value &&& present_bit ≠ 0 then pure (0, get_frame_for_addr (value &&& physical_addr_mask)) else pure (-1, f)

def get_next_page_table_or_create (table index : ℕ) : Program ℕ := do
  let tbl ← descened_page_table table index
  if tbl = NULL then
    let (success, frame) ← allocate_frame
    if success = 0 then
      set_page_table_entry (entry_addr table index) frame (present_bit ||| writeable_bit)
      flush_tlb
  descened_page_table table index

def map_page_to_frame (page frame flags : ℕ) : Program Unit := do
  let p3_table ← get_next_page_table_or_create p4_table (get_p4_index page)
  let p2_table ← get_next_page_table_or_create p3_table (get_p3_index page)
  let p1_table ← get_next_page_table_or_create p2_table (get_p2_index page)
  set_page_table_entry (entry_addr p1_table (get_p1_index page)) frame (present_bit ||| flags)

def unmap_page (f page : ℕ) : Program Unit := do
  let table ← descened_page_table p4_table (get_p4_index page)
  let table ← descened_page_table table (get_p3_index page)
  let table ← descened_page_table table (get_p2_index page)
  set_unused (entry_addr table (get_p1_index page))
  let (_, frame) ← get_physical_frame (entry_addr table (get_p1_index page)) f
  deallocate_frame frame
  flush_tlb

def program : Operation → Program Unit
  | .map page frame flags => map_page_to_frame page frame flags
  | .unmap uninit page => unmap_page uninit page

/-! ### Programs on a machine whose accesses walk the tables -/

variable {A : Type} {alloc : A → ℤ × ℕ × A}

def Program.run (alloc : A → ℤ × ℕ × A) : Program α → Kernel A α
  | .done a => pure a
  | .fail fault => throw fault
  | .load vaddr k => do (k (← Paging.load vaddr)).run alloc
  | .store vaddr value k => do Paging.store vaddr value; k.run alloc
  | .read_tlb k => do (k (← Paging.read_tlb)).run alloc
  | .write_tlb val k => do Paging.write_tlb val; k.run alloc
  | .allocate_frame k => do (k (← Paging.allocate_frame alloc)).run alloc
  | .deallocate_frame frame k => do Paging.deallocate_frame frame; k.run alloc

theorem run_bind (p : Program α) (f : α → Program β) :
    (p >>= f).run alloc = p.run alloc >>= fun a => (f a).run alloc := by
  change (p.bind f).run alloc = _
  induction p with
  | done a => exact (pure_bind a fun a => (f a).run alloc).symm
  | fail fault => rfl
  | load vaddr k ih => simp only [Program.bind, Program.run, ih, bind_assoc]
  | store vaddr value k ih => simp only [Program.bind, Program.run, ih, bind_assoc]
  | read_tlb k ih => simp only [Program.bind, Program.run, ih, bind_assoc]
  | write_tlb val k ih => simp only [Program.bind, Program.run, ih, bind_assoc]
  | allocate_frame k ih => simp only [Program.bind, Program.run, ih, bind_assoc]
  | deallocate_frame frame k ih => simp only [Program.bind, Program.run, ih, bind_assoc]

@[simp] theorem run_pure (a : α) : (pure a : Program α).run alloc = pure a := rfl
@[simp] theorem run_load (vaddr : ℕ) : (load vaddr).run alloc = Paging.load vaddr := bind_pure _
@[simp] theorem run_store (vaddr value : ℕ) : (store vaddr value).run alloc = Paging.store vaddr value := bind_pure _
@[simp] theorem run_allocate_frame : allocate_frame.run alloc = Paging.allocate_frame alloc := bind_pure _
@[simp] theorem run_deallocate_frame (frame : ℕ) :
    (deallocate_frame frame).run alloc = Paging.deallocate_frame frame := bind_pure _
@[simp] theorem run_flush_tlb : flush_tlb.run alloc = Paging.flush_tlb := rfl

@[simp] theorem run_ite {c : Prop} [Decidable c] (p q : Program α) :
    (if c then p else q).run alloc = if c then p.run alloc else q.run alloc := apply_ite _ c p q

@[simp] theorem run_assert (holds : Bool) (text : String) :
    (assert holds text).run alloc = Paging.assert holds text := by
  cases holds with
  | true => rfl
  | false => rfl

@[simp] theorem run_set_unused (entry : ℕ) : (set_unused entry).run alloc = Paging.set_unused entry := run_store entry 0x0

@[simp] theorem run_set_page_table_entry (entry frame flags : ℕ) :
    (set_page_table_entry entry frame flags).run alloc = Paging.set_page_table_entry entry frame flags := by
  simp only [set_page_table_entry, Paging.set_page_table_entry, run_bind, run_assert, run_store]

@[simp] theorem run_descened_page_table (table index : ℕ) :
    (descened_page_table table index).run alloc = Paging.descened_page_table table index := by
  simp only [descened_page_table, Paging.descened_page_table, run_bind, run_ite, run_load, run_pure]

@[simp] theorem run_get_physical_frame (entry f : ℕ) :
    (get_physical_frame entry f).run alloc = Paging.get_physical_frame entry f := by
  simp only [get_physical_frame, Paging.get_physical_frame, run_bind, run_ite, run_load, run_pure]

@[simp] theorem run_get_next_page_table_or_create (table index : ℕ) :
    (get_next_page_table_or_create table index).run alloc = Paging.get_next_page_table_or_create alloc table index := by
  simp only [get_next_page_table_or_create, Paging.get_next_page_table_or_create, run_bind, run_ite,
    run_descened_page_table, run_allocate_frame, run_set_page_table_entry, run_flush_tlb]

/-- Where accesses walk the tables, the programs are the operations of the machine. -/
theorem run_program (op : Operation) : (program op).run alloc = op.perform alloc := by
  cases op with
  | map page frame flags =>
    simp only [program, Operation.perform, map_page_to_frame, Paging.map_page_to_frame, run_bind,
      run_get_next_page_table_or_create, run_set_page_table_entry]
  | unmap uninit page =>
    simp only [program, Operation.perform, unmap_page, Paging.unmap_page, run_bind, run_descened_page_table,
      run_set_unused, run_get_physical_frame, run_deallocate_frame, run_flush_tlb]

/-! ### Programs on a processor with a translation lookaside buffer -/

structure Cpu (A : Type) where
  machine : Machine A
  cache : Set Cached

def Cpu.Coherent (s : Cpu A) : Prop := Caching.Coherent s.machine.mem s.machine.root s.cache

/-- The frame that an access may use. -/
def Cpu.Translates (s : Cpu A) (vaddr frame : ℕ) : Prop :=
  Canonical vaddr ∧ Caching.Translates s.machine.mem s.machine.root s.cache (indices vaddr) frame

/-- The place of an address in its frame. -/
def slot (vaddr : ℕ) : Index := word (vaddr % 4096)

/-- A step: the cache changes, or the next action of the program is done. An access
    without a translation faults, and there is no step. -/
inductive Step (alloc : A → ℤ × ℕ × A) : Program α × Cpu A → Program α × Cpu A → Prop
  | refill (p : Program α) {s : Cpu A} {cache : Set Cached}
      (refills : ∀ c ∈ cache, c ∈ s.cache ∨ Fills s.machine.mem s.machine.root s.cache c) :
      Step alloc (p, s) (p, { s with cache })
  | load {s : Cpu A} {vaddr frame : ℕ} (k : ℕ → Program α) (translates : s.Translates vaddr frame) :
      Step alloc (.load vaddr k, s)
        (k (s.machine.mem frame (slot vaddr)), { s with machine := s.machine.log (.load vaddr frame (slot vaddr)) })
  | store {s : Cpu A} {vaddr frame : ℕ} (value : ℕ) (k : Program α) (translates : s.Translates vaddr frame) :
      Step alloc (.store vaddr value k, s)
        (k, { s with machine := { s.machine.log (.store vaddr frame (slot vaddr)) with
          mem := put s.machine.mem frame (slot vaddr) value } })
  | read_tlb (s : Cpu A) (k : ℕ → Program α) : Step alloc (.read_tlb k, s) (k s.machine.cr3, s)
  | write_tlb (s : Cpu A) (val : ℕ) (k : Program α) :
      Step alloc (.write_tlb val k, s) (k, ⟨{ s.machine.log (.wrote_cr3 val) with cr3 := val }, ∅⟩)
  | allocate_frame {s : Cpu A} {m : Machine A} {result : ℤ × ℕ} (k : ℤ × ℕ → Program α)
      (ran : Paging.allocate_frame alloc s.machine = .ok result m) :
      Step alloc (.allocate_frame k, s) (k result, { s with machine := m })
  | deallocate_frame (s : Cpu A) (frame : ℕ) (k : Program α) :
      Step alloc (.deallocate_frame frame k, s) (k, { s with machine := s.machine.log (.deallocated frame) })

abbrev Steps (alloc : A → ℤ × ℕ × A) := Relation.ReflTransGen (Step (α := α) alloc)

/-- A store after which the call returns changes no entry that is used. -/
def Vacant : Program α × Cpu A → Prop
  | (.store vaddr value (.done _), s) => ∀ frame, s.Translates vaddr frame →
      Used s.machine.mem s.machine.root frame (slot vaddr) → s.machine.mem frame (slot vaddr) = value
  | _ => True

/-- The steps of runs in which every such store is one. -/
def Careful (alloc : A → ℤ × ℕ × A) (x y : Program α × Cpu A) : Prop := Vacant x ∧ Step alloc x y

/-- The calls are made and return, one after the other, by the steps of `R`. -/
inductive Calls (R : Program Unit × Cpu A → Program Unit × Cpu A → Prop) : List Operation → Cpu A → Cpu A → Prop
  | nil (s : Cpu A) : Calls R [] s s
  | cons {op : Operation} {ops : List Operation} {s s' s'' : Cpu A}
      (returns : Relation.ReflTransGen R (program op, s) (.done (), s')) (rest : Calls R ops s' s'') : Calls R (op :: ops) s s''

variable {s s' : Cpu A}

theorem Cpu.Coherent.resolve {vaddr frame : ℕ} (coherent : s.Coherent) (translates : s.Translates vaddr frame) :
    resolve s.machine.mem s.machine.root vaddr = some (frame, vaddr % 4096) := by
  obtain ⟨canonical, translates⟩ := translates
  obtain ⟨flags, walks⟩ := Caching.Coherent.translates coherent translates
  rw [Walk.resolve, if_pos canonical, walks]
  rfl

/-! ### Programs that flush -/

def Program.Returns : Program α → Prop
  | .done _ => True
  | _ => False

/-- The program flushes after it has stored: `dirty` says that it has not yet. With
    `lax`, it may access memory before it flushes; with `ends`, it may end with a store. -/
def Program.Flushes (lax ends : Prop) : Bool → Program α → Prop
  | dirty, .done _ => dirty = false
  | _, .fail _ => True
  | dirty, .load _ k => (dirty = true → lax) ∧ ∀ value, (k value).Flushes lax ends dirty
  | dirty, .store _ _ k => (dirty = true → lax) ∧ (k.Flushes lax ends true ∨ dirty = false ∧ ends ∧ k.Returns)
  | dirty, .read_tlb k => ∀ val, (k val).Flushes lax ends dirty
  | _, .write_tlb _ k => k.Flushes lax ends false
  | dirty, .allocate_frame k => ∀ result, (k result).Flushes lax ends dirty
  | dirty, .deallocate_frame _ k => k.Flushes lax ends dirty

variable {lax ends : Prop} {p : Program α} {f : α → Program β}

theorem Program.Flushes.bind {dirty : Bool} (first : p.Flushes lax False dirty) (rest : ∀ a, (f a).Flushes lax ends false) :
    (p >>= f).Flushes lax ends dirty := by
  change (p.bind f).Flushes lax ends dirty
  induction p generalizing dirty with
  | done a =>
    obtain rfl : dirty = false := first
    exact rest a
  | fail fault => trivial
  | load vaddr k ih => exact ⟨first.1, fun value => ih value (first.2 value)⟩
  | store vaddr value k ih =>
    rcases first.2 with more | ⟨_, never, _⟩
    · exact ⟨first.1, .inl (ih more)⟩
    · exact never.elim
  | read_tlb k ih => exact fun val => ih val (first val)
  | write_tlb val k ih => exact ih first
  | allocate_frame k ih => exact fun result => ih result (first result)
  | deallocate_frame frame k ih => exact ih first

/-- A program that is held to more is held to less. -/
theorem Program.Flushes.mono {lax' ends' : Prop} {dirty : Bool} (flushes : p.Flushes lax ends dirty) (laxer : lax → lax')
    (later : ends → ends') : p.Flushes lax' ends' dirty := by
  induction p generalizing dirty with
  | done a => exact flushes
  | fail fault => trivial
  | load vaddr k ih => exact ⟨fun isDirty => laxer (flushes.1 isDirty), fun value => ih value (flushes.2 value)⟩
  | store vaddr value k ih =>
    refine ⟨fun isDirty => laxer (flushes.1 isDirty), ?_⟩
    rcases flushes.2 with more | ⟨clean, isLast, returns⟩
    · exact .inl (ih more)
    · exact .inr ⟨clean, later isLast, returns⟩
  | read_tlb k ih => exact fun val => ih val (flushes val)
  | write_tlb val k ih => exact ih flushes
  | allocate_frame k ih => exact fun result => ih result (flushes result)
  | deallocate_frame frame k ih => exact ih flushes

theorem set_page_table_entry_eq (entry f flags : ℕ) : set_page_table_entry entry f flags =
    store entry (get_frame_start_addr f &&& physical_addr_mask ||| flags) := by
  rw [set_page_table_entry, assert, if_pos (frame_assertion f)]
  rfl

theorem descened_page_table_flushes (table index : ℕ) : (descened_page_table table index).Flushes lax ends false := by
  rw [descened_page_table]
  split
  · rfl
  · refine ⟨fun dirty => absurd dirty (by decide), fun value => ?_⟩
    change (if _ then _ else _ : Program ℕ).Flushes lax ends false
    split
    · rfl
    · rfl

theorem get_next_flushes (table index : ℕ) : (get_next_page_table_or_create table index).Flushes False ends false := by
  have again : (descened_page_table table index).Flushes False ends false := descened_page_table_flushes table index
  refine (descened_page_table_flushes table index).bind fun tbl => ?_
  split
  · rintro ⟨success, frame⟩
    change (if success = 0 then _ else _ : Program ℕ).Flushes False ends false
    split
    · rw [set_page_table_entry_eq]
      exact ⟨fun dirty => absurd dirty (by decide), .inl fun val => again⟩
    · exact again
  · exact again

theorem map_page_to_frame_flushes (page frame flags : ℕ) : (map_page_to_frame page frame flags).Flushes False True false := by
  refine (get_next_flushes _ _).bind fun p3 => (get_next_flushes _ _).bind fun p2 => (get_next_flushes _ _).bind fun p1 => ?_
  rw [set_page_table_entry_eq]
  exact ⟨fun dirty => absurd dirty (by decide), .inr ⟨rfl, trivial, trivial⟩⟩

theorem unmap_page_flushes (f page : ℕ) : (unmap_page f page).Flushes True ends false := by
  refine (descened_page_table_flushes _ _).bind fun p3 => (descened_page_table_flushes _ _).bind fun p2 =>
    (descened_page_table_flushes _ _).bind fun p1 => ?_
  refine ⟨fun _ => trivial, .inl ⟨fun _ => trivial, fun value => ?_⟩⟩
  change Program.Flushes True ends true (Program.bind (if _ then _ else _) _)
  split
  · exact fun val => rfl
  · exact fun val => rfl

theorem program_flushes (op : Operation) : (program op).Flushes True True false := by
  cases op with
  | map page frame flags => exact (map_page_to_frame_flushes page frame flags).mono False.elim id
  | unmap uninit page => exact unmap_page_flushes uninit page

/-! ### Coherence -/

/-- The cache is coherent, or a flush is still to come. -/
def Settling (lax ends : Prop) (x : Program α × Cpu A) : Prop :=
  ∃ dirty, x.1.Flushes lax ends dirty ∧ (dirty = false → x.2.Coherent)

theorem allocate_frame_keeps {m m' : Machine A} {result : ℤ × ℕ} (ran : Paging.allocate_frame alloc m = .ok result m') :
    m'.mem = m.mem ∧ m'.root = m.root := by
  rcases given : alloc m.allocator with ⟨success, frame, a⟩
  simp only [Paging.allocate_frame, given, EStateM.Result.ok.injEq] at ran
  obtain ⟨_, rfl⟩ := ran
  split
  · exact ⟨rfl, rfl⟩
  · exact ⟨rfl, rfl⟩

variable {x y : Program α × Cpu A}

theorem Settling.step (settling : Settling lax ends x) (step : Step alloc x y) (vacant : ends → Vacant x) :
    Settling lax ends y := by
  obtain ⟨dirty, flushes, coherent⟩ := settling
  cases step with
  | refill p refills => exact ⟨dirty, flushes, fun clean => (coherent clean).refill refills⟩
  | load k translates => exact ⟨dirty, flushes.2 _, coherent⟩
  | @store s vaddr frame value k translates =>
    rcases flushes.2 with more | ⟨clean, isLast, returns⟩
    · exact ⟨true, more, fun isClean => by cases isClean⟩
    · cases k with
      | done a => exact ⟨false, rfl, fun _ => coherent_put_iff.mpr (vacant isLast frame translates) _ (coherent clean)⟩
      | _ => exact returns.elim
  | read_tlb s k => exact ⟨dirty, flushes _, coherent⟩
  | write_tlb s val k => exact ⟨false, flushes, fun _ c member => member.elim⟩
  | @allocate_frame s m result k ran =>
    obtain ⟨mem, root⟩ := allocate_frame_keeps ran
    refine ⟨dirty, flushes result, fun clean => ?_⟩
    rw [Cpu.Coherent, mem, root]
    exact coherent clean
  | deallocate_frame s frame k => exact ⟨dirty, flushes, coherent⟩

theorem Settling.steps (settling : Settling lax False x) (steps : Steps alloc x y) : Settling lax False y := by
  induction steps with
  | refl => exact settling
  | tail _ step ih => exact ih.step step False.elim

theorem Settling.careful (settling : Settling lax ends x) (steps : Relation.ReflTransGen (Careful alloc) x y) :
    Settling lax ends y := by
  induction steps with
  | refl => exact settling
  | tail _ step ih => exact ih.step step.2 fun _ => step.1

/-- It stays so until the program has returned. -/
theorem Settling.reaches (settling : Settling lax ends x) (steps : Steps alloc x y) : Settling lax ends y ∨ y.1.Returns := by
  induction steps with
  | refl => exact .inl settling
  | @tail y z _ step ih =>
    rcases ih with settling | returns
    · by_cases vacant : Vacant y
      · exact .inl (settling.step step fun _ => vacant)
      · obtain ⟨dirty, flushes, coherent⟩ := settling
        cases step with
        | refill p refills => exact .inl ⟨dirty, flushes, fun clean => (coherent clean).refill refills⟩
        | store value k translates =>
          cases k with
          | done a => exact .inr trivial
          | _ => exact absurd trivial vacant
        | _ => exact absurd trivial vacant
    · cases step with
      | refill p refills => exact .inr returns
      | _ => exact returns.elim

theorem Settling.coherent {a : α} (settling : Settling lax ends (Program.done a, s)) : s.Coherent := by
  obtain ⟨dirty, clean, coherent⟩ := settling
  exact coherent clean

/-! ### The walk machine -/

theorem load_resolved {m : Machine A} {vaddr frame : ℕ} (resolves : resolve m.mem m.root vaddr = some (frame, vaddr % 4096)) :
    Paging.load vaddr m = .ok (m.mem frame (slot vaddr)) (m.log (.load vaddr frame (slot vaddr))) := by
  rw [Paging.load, resolves]
  rfl

theorem store_resolved {m : Machine A} {vaddr frame : ℕ} (resolves : resolve m.mem m.root vaddr = some (frame, vaddr % 4096))
    (value : ℕ) : Paging.store vaddr value m = .ok () { m.log (.store vaddr frame (slot vaddr)) with
      mem := put m.mem frame (slot vaddr) value } := by
  rw [Paging.store, resolves]
  rfl

/-- While the cache is coherent at every access, a step is one of the machine whose
    accesses walk the tables. -/
theorem Settling.run_step (settling : Settling False ends x) (step : Step alloc x y) :
    x.1.run alloc x.2.machine = y.1.run alloc y.2.machine := by
  obtain ⟨dirty, flushes, coherent⟩ := settling
  cases step with
  | refill p refills => rfl
  | @load s vaddr frame k translates =>
    have clean : dirty = false := by simpa using flushes.1
    exact bind_ok (load_resolved ((coherent clean).resolve translates)) fun value => (k value).run alloc
  | @store s vaddr frame value k translates =>
    have clean : dirty = false := by simpa using flushes.1
    exact bind_ok (store_resolved ((coherent clean).resolve translates) value) fun _ => k.run alloc
  | read_tlb s k => rfl
  | write_tlb s val k => rfl
  | @allocate_frame s m result k ran => exact bind_ok ran fun result => (k result).run alloc
  | deallocate_frame s frame k => rfl

/-- A program that flushes before it accesses memory again ends as on the walk machine. -/
theorem run_of_steps {p : Program α} {a : α} (flushes : p.Flushes False False false) (coherent : s.Coherent)
    (steps : Steps alloc (p, s) (.done a, s')) : p.run alloc s.machine = .ok a s'.machine := by
  have start : Settling False False (p, s) := ⟨false, flushes, fun _ => coherent⟩
  have all : ∀ y, Steps alloc (p, s) y → p.run alloc s.machine = y.1.run alloc y.2.machine := by
    intro y path
    induction path with
    | refl => rfl
    | tail before step ih => exact ih.trans ((start.steps before).run_step step)
  exact all _ steps

/-! ### Programs in sequence -/

section
variable {f : α → Program β} {p p' : Program α}

theorem Step.bind (step : Step alloc (p, s) (p', s')) : Step alloc (p >>= f, s) (p' >>= f, s') := by
  cases step with
  | refill _ refills => exact .refill _ refills
  | load k translates => exact .load (fun value => (k value).bind f) translates
  | store value _ translates => exact .store value (p'.bind f) translates
  | read_tlb _ k => exact .read_tlb s fun val => (k val).bind f
  | write_tlb _ val _ => exact .write_tlb s val (p'.bind f)
  | allocate_frame k ran => exact .allocate_frame (fun result => (k result).bind f) ran
  | deallocate_frame _ frame _ => exact .deallocate_frame s frame (p'.bind f)

theorem steps_bind {a : α} (steps : Steps alloc (p, s) (.done a, s')) : Steps alloc (p >>= f, s) (f a, s') := by
  have all : ∀ y, Steps alloc (p, s) y → Steps alloc (p >>= f, s) (y.1 >>= f, y.2) := by
    intro y path
    induction path with
    | refl => exact .refl
    | tail _ step ih => exact ih.tail step.bind
  exact all _ steps

/-- The first step of a sequence is one of its first program, unless that has ended. -/
theorem step_of_bind {y : Program β × Cpu A} (step : Step alloc (p >>= f, s) y) :
    (∃ a, p = .done a) ∨ ∃ p' s', y = (p' >>= f, s') ∧ Step alloc (p, s) (p', s') := by
  cases p with
  | done a => exact .inl ⟨a, rfl⟩
  | fail fault =>
    change Step alloc (.fail fault, s) y at step
    cases step with
    | refill _ refills => exact .inr ⟨_, _, rfl, .refill (.fail fault) refills⟩
  | load vaddr k =>
    change Step alloc (.load vaddr fun value => (k value).bind f, s) y at step
    cases step with
    | refill _ refills => exact .inr ⟨_, _, rfl, .refill (.load vaddr k) refills⟩
    | load _ translates => exact .inr ⟨_, _, rfl, .load k translates⟩
  | store vaddr value k =>
    change Step alloc (.store vaddr value (k.bind f), s) y at step
    cases step with
    | refill _ refills => exact .inr ⟨_, _, rfl, .refill (.store vaddr value k) refills⟩
    | store _ _ translates => exact .inr ⟨_, _, rfl, .store value k translates⟩
  | read_tlb k =>
    change Step alloc (.read_tlb fun val => (k val).bind f, s) y at step
    cases step with
    | refill _ refills => exact .inr ⟨_, _, rfl, .refill (.read_tlb k) refills⟩
    | read_tlb _ _ => exact .inr ⟨_, _, rfl, .read_tlb s k⟩
  | write_tlb val k =>
    change Step alloc (.write_tlb val (k.bind f), s) y at step
    cases step with
    | refill _ refills => exact .inr ⟨_, _, rfl, .refill (.write_tlb val k) refills⟩
    | write_tlb _ _ _ => exact .inr ⟨_, _, rfl, .write_tlb s val k⟩
  | allocate_frame k =>
    change Step alloc (.allocate_frame fun result => (k result).bind f, s) y at step
    cases step with
    | refill _ refills => exact .inr ⟨_, _, rfl, .refill (.allocate_frame k) refills⟩
    | allocate_frame _ ran => exact .inr ⟨_, _, rfl, .allocate_frame k ran⟩
  | deallocate_frame frame k =>
    change Step alloc (.deallocate_frame frame (k.bind f), s) y at step
    cases step with
    | refill _ refills => exact .inr ⟨_, _, rfl, .refill (.deallocate_frame frame k) refills⟩
    | deallocate_frame _ _ _ => exact .inr ⟨_, _, rfl, .deallocate_frame s frame k⟩

/-- A sequence is in its first program, or goes on from where that has ended. -/
theorem steps_of_bind {y : Program β × Cpu A} (steps : Steps alloc (p >>= f, s) y) :
    (∃ p' s', y = (p' >>= f, s') ∧ Steps alloc (p, s) (p', s')) ∨
      ∃ a s₁, Steps alloc (p, s) (.done a, s₁) ∧ Steps alloc (f a, s₁) y := by
  induction steps with
  | refl => exact .inl ⟨p, s, rfl, .refl⟩
  | tail _ step ih =>
    rcases ih with ⟨p', s', rfl, before⟩ | ⟨a, s₁, before, after⟩
    · rcases step_of_bind step with ⟨a, rfl⟩ | ⟨p'', s'', rfl, next⟩
      · exact .inr ⟨a, s', before, .single step⟩
      · exact .inl ⟨p'', s'', rfl, before.tail next⟩
    · exact .inr ⟨a, s₁, before, after.tail step⟩

end

theorem translates_of_resolve {vaddr frame offset : ℕ} (resolves : resolve s.machine.mem s.machine.root vaddr = some (frame, offset)) :
    s.Translates vaddr frame ∧ offset = vaddr % 4096 := by
  by_cases canonical : Canonical vaddr
  · rw [Walk.resolve, if_pos canonical, Option.map_eq_some_iff] at resolves
    obtain ⟨⟨found, flags⟩, walks, same⟩ := resolves
    obtain ⟨rfl, rfl⟩ := Prod.mk.inj same
    exact ⟨⟨canonical, translates_of_walk rfl walks⟩, rfl⟩
  · rw [Walk.resolve, if_neg canonical] at resolves
    cases resolves

/-- A run of the walk machine is one of the processor, whatever the cache holds first. -/
theorem steps_of_run {p : Program α} {a : α} {m' : Machine A} (ran : p.run alloc s.machine = .ok a m') :
    ∃ cache, Steps alloc (p, s) (.done a, ⟨m', cache⟩) := by
  induction p generalizing s with
  | done b =>
    cases ran
    exact ⟨s.cache, .refl⟩
  | fail fault => cases ran
  | load vaddr k ih =>
    rcases resolves : resolve s.machine.mem s.machine.root vaddr with _ | ⟨frame, offset⟩
    · have faults : Paging.load vaddr s.machine = .error (.page_fault vaddr) s.machine := by rw [Paging.load, resolves]
      rw [Program.run, bind_error faults] at ran
      cases ran
    · obtain ⟨translates, rfl⟩ := translates_of_resolve resolves
      rw [Program.run, bind_ok (load_resolved resolves)] at ran
      obtain ⟨cache, steps⟩ := ih _ (s := { s with machine := s.machine.log (.load vaddr frame (slot vaddr)) }) ran
      exact ⟨cache, .head (.load k translates) steps⟩
  | store vaddr value k ih =>
    rcases resolves : resolve s.machine.mem s.machine.root vaddr with _ | ⟨frame, offset⟩
    · have faults : Paging.store vaddr value s.machine = .error (.page_fault vaddr) s.machine := by rw [Paging.store, resolves]
      rw [Program.run, bind_error faults] at ran
      cases ran
    · obtain ⟨translates, rfl⟩ := translates_of_resolve resolves
      rw [Program.run, bind_ok (store_resolved resolves value)] at ran
      obtain ⟨cache, steps⟩ := ih (s := { s with machine := { s.machine.log (.store vaddr frame (slot vaddr)) with
        mem := put s.machine.mem frame (slot vaddr) value } }) ran
      exact ⟨cache, .head (.store value k translates) steps⟩
  | read_tlb k ih =>
    obtain ⟨cache, steps⟩ := ih s.machine.cr3 ran
    exact ⟨cache, .head (.read_tlb s k) steps⟩
  | write_tlb val k ih =>
    obtain ⟨cache, steps⟩ := ih (s := ⟨{ s.machine.log (.wrote_cr3 val) with cr3 := val }, ∅⟩) ran
    exact ⟨cache, .head (.write_tlb s val k) steps⟩
  | allocate_frame k ih =>
    obtain ⟨result, m, given⟩ : ∃ result m, Paging.allocate_frame alloc s.machine = .ok result m := ⟨_, _, rfl⟩
    rw [Program.run, bind_ok given] at ran
    obtain ⟨cache, steps⟩ := ih result (s := { s with machine := m }) ran
    exact ⟨cache, .head (.allocate_frame k given) steps⟩
  | deallocate_frame frame k ih =>
    obtain ⟨cache, steps⟩ := ih (s := { s with machine := s.machine.log (.deallocated frame) }) ran
    exact ⟨cache, .head (.deallocate_frame s frame k) steps⟩

/-! ### The last store of a call -/

/-- While a program of one store runs, it has not stored and the machine is as it was, or it has returned. -/
theorem store_steps {vaddr value : ℕ} {y : Program Unit × Cpu A} (coherent : s.Coherent)
    (steps : Steps alloc (store vaddr value, s) y) :
    (y.1 = store vaddr value ∧ y.2.machine = s.machine ∧ y.2.Coherent) ∨ y.1 = .done () := by
  induction steps with
  | refl => exact .inl ⟨rfl, rfl, coherent⟩
  | @tail y z _ step ih =>
    rcases y with ⟨p, u⟩
    rcases ih with ⟨rfl, same, coherent⟩ | returned
    · cases step with
      | refill _ refills => exact .inl ⟨rfl, same, coherent.refill refills⟩
      | store _ _ translates => exact .inr rfl
    · obtain rfl : p = .done () := returned
      cases step with
      | refill _ refills => exact .inr rfl

theorem store_vacant {vaddr value frame offset : ℕ} {y : Program Unit × Cpu A} (coherent : s.Coherent)
    (resolves : resolve s.machine.mem s.machine.root vaddr = some (frame, offset))
    (vacant : Used s.machine.mem s.machine.root frame (slot vaddr) → s.machine.mem frame (slot vaddr) = value)
    (steps : Steps alloc (store vaddr value, s) y) : Vacant y := by
  rcases y with ⟨p, u⟩
  rcases store_steps coherent steps with ⟨rfl, same, coherent'⟩ | returned
  · intro frame' translates
    have found := coherent'.resolve translates
    rw [same, resolves] at found
    obtain ⟨rfl, _⟩ := Prod.mk.inj (Option.some.inj found)
    rw [same]
    exact vacant
  · obtain rfl : p = .done () := returned
    trivial

/-- A store that changes a used entry can leave what the cache holds behind. -/
theorem store_stale {vaddr value frame offset : ℕ} (resolves : resolve s.machine.mem s.machine.root vaddr = some (frame, offset))
    (used : Used s.machine.mem s.machine.root frame (slot vaddr)) (changed : s.machine.mem frame (slot vaddr) ≠ value) :
    ∃ s', Steps alloc (store vaddr value, s) (.done (), s') ∧ ¬ s'.Coherent := by
  obtain ⟨c, current, stale⟩ := used.found
  have filled : Step alloc (store vaddr value, s) (store vaddr value, { s with cache := {c} }) := by
    refine .refill _ fun d member => .inr ?_
    obtain rfl := Set.mem_singleton_iff.mp member
    exact ⟨[], [], _, .root, current⟩
  obtain ⟨translates, _⟩ := translates_of_resolve (s := { s with cache := {c} }) resolves
  refine ⟨_, .head filled (.single (.store value (.done ()) translates)), fun coherent => ?_⟩
  exact stale value changed (coherent c rfl)

theorem careful_of_steps (vacant : ∀ y, Steps alloc x y → Vacant y) (steps : Steps alloc x y) :
    Relation.ReflTransGen (Careful alloc) x y := by
  induction steps with
  | refl => exact .refl
  | tail before step ih => exact ih.tail ⟨vacant _ before, step⟩

/-- A call leaves the cache coherent, whatever it takes up and when, if and only if
    it never comes to end with a store to a used entry that changes it. -/
theorem call_coherent_iff (op : Operation) (coherent : s.Coherent) :
    (∀ s', Steps alloc (program op, s) (.done (), s') → s'.Coherent) ↔ ∀ y, Steps alloc (program op, s) y → Vacant y := by
  have start : Settling True True (program op, s) := ⟨false, program_flushes op, fun _ => coherent⟩
  constructor
  · rintro all ⟨p, u⟩ steps
    rcases start.reaches steps with ⟨dirty, flushes, coherent'⟩ | returns
    · cases p with
      | store vaddr value k =>
        cases k with
        | done a =>
          have clean : dirty = false := by
            rcases flushes.2 with more | ⟨clean, _⟩
            · cases more
            · exact clean
          intro frame translates used
          by_contra changed
          obtain ⟨s', after, stale⟩ : ∃ s', Steps alloc (store vaddr value, u) (.done (), s') ∧ ¬ s'.Coherent :=
            store_stale ((coherent' clean).resolve translates) used changed
          exact stale (all s' (steps.trans after))
        | _ => trivial
      | _ => trivial
    · cases p with
      | done a => trivial
      | _ => exact returns.elim
  · intro vacant s' steps
    exact (start.careful (careful_of_steps vacant steps)).coherent

/-- In every run in which no call ends with a store to a used entry that changes it,
    the cache is coherent after each call, and these are the calls that leave it so. -/
theorem coherent_after_calls {ops : List Operation} (coherent : s.Coherent) (calls : Calls (Careful alloc) ops s s') :
    s'.Coherent ∧ ∀ op, (∀ s'', Steps alloc (program op, s') (.done (), s'') → s''.Coherent) ↔
      ∀ y, Steps alloc (program op, s') y → Vacant y := by
  have after : s'.Coherent := by
    induction calls with
    | nil s => exact coherent
    | @cons op ops s s₁ s' returns rest ih =>
      have settling : Settling True True (program op, s) := ⟨false, program_flushes op, fun _ => coherent⟩
      exact ih (settling.careful returns).coherent
  exact ⟨after, fun op => call_coherent_iff op after⟩

/-- A program that ends with a flush does not end with a store. -/
theorem vacant_of_flushes {dirty : Bool} {p : Program α} (flushes : p.Flushes lax False dirty) (goes : ¬ p.Returns)
    (f : α → Program β) : Vacant (p >>= f, s) := by
  cases p with
  | done a => exact absurd trivial goes
  | store vaddr value k =>
    cases k with
    | done a =>
      rcases flushes.2 with more | ⟨_, never, _⟩
      · cases more
      · exact never.elim
    | _ => trivial
  | _ => trivial

/-! ### Mapping a page -/

theorem Program.bind_done (p : Program α) : p.bind .done = p := by
  induction p with
  | done a => rfl
  | fail fault => rfl
  | load vaddr k ih => simp only [Program.bind, ih]
  | store vaddr value k ih => simp only [Program.bind, ih]
  | read_tlb k ih => simp only [Program.bind, ih]
  | write_tlb val k ih => simp only [Program.bind, ih]
  | allocate_frame k ih => simp only [Program.bind, ih]
  | deallocate_frame frame k ih => simp only [Program.bind, ih]

theorem Program.bind_bind {γ : Type} (p : Program α) (f : α → Program β) (g : β → Program γ) :
    (p.bind f).bind g = p.bind fun a => (f a).bind g := by
  induction p with
  | done a => rfl
  | fail fault => rfl
  | load vaddr k ih => simp only [Program.bind, ih]
  | store vaddr value k ih => simp only [Program.bind, ih]
  | read_tlb k ih => simp only [Program.bind, ih]
  | write_tlb val k ih => simp only [Program.bind, ih]
  | allocate_frame k ih => simp only [Program.bind, ih]
  | deallocate_frame frame k ih => simp only [Program.bind, ih]

instance : LawfulMonad Program := .mk' Program Program.bind_done (fun _ _ => rfl) Program.bind_bind

/-- The table of the last level of a page, made where it is missing. -/
def last_table (page : ℕ) : Program ℕ := do
  let p3_table ← get_next_page_table_or_create p4_table (get_p4_index page)
  let p2_table ← get_next_page_table_or_create p3_table (get_p3_index page)
  get_next_page_table_or_create p2_table (get_p2_index page)

theorem map_page_to_frame_eq (page frame flags : ℕ) : map_page_to_frame page frame flags =
    last_table page >>= fun table => store (entry_addr table (last page))
      (get_frame_start_addr frame &&& physical_addr_mask ||| (present_bit ||| flags)) := by
  obtain ⟨_, _, _, p1⟩ := page_indices page
  simp only [map_page_to_frame, last_table, bind_assoc, set_page_table_entry_eq, p1]

theorem last_table_flushes (page : ℕ) : (last_table page).Flushes False False false :=
  (get_next_flushes _ _).bind fun _ => (get_next_flushes _ _).bind fun _ => get_next_flushes _ _

theorem run_last_table (page : ℕ) : (last_table page).run alloc = create alloc (recursive []) (upper page) := by
  obtain ⟨p4, p3, p2, _⟩ := page_indices page
  simp only [last_table, run_bind, run_get_next_page_table_or_create, upper, List.map, create, p4, p3, p2, bind_pure]
  rfl

/-- A word is its address and its attributes. -/
theorem entry_ext {e e' : ℕ} (sameAddress : address e = address e') (sameAttributes : attributes e = attributes e') : e = e' := by
  unfold attributes at sameAttributes
  unfold address at sameAddress sameAttributes
  omega

/-- The word that maps a page. -/
theorem stored_word {e f flags : ℕ} (fits : f < 2 ^ 40) (noAddress : flags &&& physical_addr_mask = 0) :
    e = (get_frame_start_addr f &&& physical_addr_mask ||| (present_bit ||| flags)) ↔
      (address e, attributes e) = (f, present_bit ||| flags) := by
  have clean := present_clear noAddress
  rw [start_addr_masked fits]
  constructor
  · rintro rfl
    rw [address_or fits clean, attributes_or fits clean]
  · intro same
    obtain ⟨sameAddress, sameAttributes⟩ := Prod.mk.inj same
    exact entry_ext (sameAddress.trans (address_or fits clean).symm) (sameAttributes.trans (attributes_or fits clean).symm)

section
variable {fs : List ℕ} {page f flags : ℕ} (good : Good alloc s.machine.root fs s.machine) (outside : Ordinary (upper page))
  (clear : Clear s.machine.mem s.machine.root (upper page)) (enough : missing s.machine.mem s.machine.root (upper page) ≤ fs.length)
  (fits : f < 2 ^ 40) (noAddress : flags &&& physical_addr_mask = 0)
include good outside clear enough

/-- What the walk machine has done when the tables of a page are there. -/
theorem last_table_run : ∃ m t, (last_table page).run alloc s.machine = .ok (recursive (upper page)) m ∧
    m.root = s.machine.root ∧
    resolve m.mem m.root (entry_addr (recursive (upper page)) (last page)) = some (t, 8 * (last page : ℕ)) ∧
    slot (entry_addr (recursive (upper page)) (last page)) = last page ∧
    descend next m.mem m.root (upper page) = some t ∧
    walk s.machine.mem s.machine.root (path page) =
      if present (m.mem t (last page)) then some (address (m.mem t (last page)), attributes (m.mem t (last page))) else none := by
  obtain ⟨m, t, ran, linked, reaches⟩ := create_run (π := []) (ρ := upper page) good.toReady outside rfl clear enough
  rw [List.nil_append] at ran reaches
  obtain ⟨good', same, _⟩ := good.linked linked
  obtain ⟨events, grown, _⟩ := grown_of_linked linked
  have root : m.root = s.machine.root := congrArg address grown.cr3
  have window := good'.window
  rw [← root] at reaches window
  have resolves := window.resolve (le_refl 3) reaches (last page)
  obtain ⟨_, offset⟩ := translates_of_resolve (s := ⟨m, ∅⟩) resolves
  refine ⟨m, t, ?_, root, resolves, ?_, reaches, ?_⟩
  · rw [run_last_table]
    exact ran
  · rw [slot, ← offset, word_eight]
  · rw [← same page outside, ← root, path, walk_append (by simp) reaches, walk_last]

include fits noAddress

/-- Where a page is unmapped, or mapped to the same frame with the same flags, the
    last store of the call changes nothing that is used. -/
theorem map_vacant (coherent : s.Coherent)
    (same : ∀ x, walk s.machine.mem s.machine.root (path page) = some x → x = (f, present_bit ||| flags))
    {y : Program Unit × Cpu A} (steps : Steps alloc (map_page_to_frame page f flags, s) y) : Vacant y := by
  obtain ⟨m, t, ran, _, resolves, here, reaches, walks⟩ := last_table_run good outside clear enough
  have start : Settling False False (last_table page, s) := ⟨false, last_table_flushes page, fun _ => coherent⟩
  have ended : ∀ {table s₁ y}, Steps alloc (last_table page, s) (.done table, s₁) →
      Steps alloc (store (entry_addr table (last page)) (get_frame_start_addr f &&& physical_addr_mask ||| (present_bit ||| flags)), s₁) y →
      Vacant y := by
    intro table s₁ y before after
    have ran' := run_of_steps (last_table_flushes page) coherent before
    rw [ran, EStateM.Result.ok.injEq] at ran'
    obtain ⟨rfl, rfl⟩ := ran'
    refine store_vacant (start.steps before).coherent resolves ?_ after
    rw [here]
    rintro ⟨_, _, _, isPresent, _⟩
    rw [if_pos isPresent] at walks
    exact (stored_word fits noAddress).mpr (same _ walks)
  rw [map_page_to_frame_eq] at steps
  rcases steps_of_bind steps with ⟨p, s₁, rfl, before⟩ | ⟨table, s₁, before, after⟩
  · obtain ⟨dirty, flushes, _⟩ := start.steps before
    cases p with
    | done table => exact ended before .refl
    | _ => exact vacant_of_flushes flushes id _
  · exact ended before after

/-- Mapping a page leaves the cache coherent, whatever it takes up and when, if and only
    if the page was not mapped, or mapped to the same frame with the same flags. -/
theorem map_coherent_iff (coherent : s.Coherent) :
    (∀ s', Steps alloc (map_page_to_frame page f flags, s) (.done (), s') → s'.Coherent) ↔
      ∀ x, walk s.machine.mem s.machine.root (path page) = some x → x = (f, present_bit ||| flags) := by
  constructor
  · intro all x mapped
    by_contra other
    obtain ⟨m, t, ran, root, resolves, here, reaches, walks⟩ := last_table_run good outside clear enough
    obtain ⟨cache, before⟩ := steps_of_run ran
    rw [mapped] at walks
    have isPresent : present (m.mem t (last page)) = true := by
      by_contra absent
      rw [if_neg absent] at walks
      cases walks
    rw [if_pos isPresent] at walks
    have used : Used m.mem m.root t (last page) := ⟨upper page, le_refl 3, reaches, isPresent, fun empty => by cases empty⟩
    have changed : m.mem t (last page) ≠ (get_frame_start_addr f &&& physical_addr_mask ||| (present_bit ||| flags)) := by
      intro stored
      exact other ((Option.some.inj walks).trans ((stored_word fits noAddress).mp stored))
    obtain ⟨s', after, stale⟩ : ∃ s', Steps alloc (store _ _, ⟨m, cache⟩) (.done (), s') ∧ ¬ s'.Coherent :=
      store_stale resolves (by rwa [here]) (by rwa [here])
    refine stale (all s' ?_)
    rw [map_page_to_frame_eq]
    exact (steps_bind before).trans after
  · intro same s' steps
    have start : Settling True True (map_page_to_frame page f flags, s) :=
      ⟨false, program_flushes (.map page f flags), fun _ => coherent⟩
    have careful := careful_of_steps (fun y steps => map_vacant good outside clear enough fits noAddress coherent same steps) steps
    exact (start.careful careful).coherent

end

/-- No call of `unmap_page` ends with a store. -/
theorem unmap_vacant {uninit page : ℕ} {y : Program Unit × Cpu A} (coherent : s.Coherent)
    (steps : Steps alloc (unmap_page uninit page, s) y) : Vacant y := by
  have start : Settling True False (unmap_page uninit page, s) := ⟨false, unmap_page_flushes uninit page, fun _ => coherent⟩
  obtain ⟨dirty, flushes, _⟩ := start.steps steps
  rcases y with ⟨p, u⟩
  cases p with
  | done a => trivial
  | _ =>
    have vacant := vacant_of_flushes (s := u) flushes id pure
    rwa [bind_pure] at vacant

end

/-! ### A page of a hierarchy of one table -/

theorem empty_coherent {A : Type} (m : Machine A) : Cpu.Coherent ⟨m, ∅⟩ := fun _ member => member.elim

theorem one_table_plain : Plain one_table.mem one_table.root Ordinary :=
  bare_plain fun _ other => if_neg fun here => other here.2

theorem one_table_mapped : ∃ (s : Cpu (List ℕ)) (fs : List ℕ),
    Relation.ReflTransGen (Careful from_list) (program (.map 5 1000 0), ⟨one_table, ∅⟩) (.done (), s) ∧ s.Coherent ∧
      Good from_list s.machine.root fs s.machine ∧ Plain s.machine.mem s.machine.root Ordinary ∧ 3 ≤ fs.length ∧
      walk s.machine.mem s.machine.root (path 5) = some (1000, present_bit ||| 0) := by
  have usable : Usable 5 := ⟨.inl (by decide), by decide⟩
  have clear := one_table_plain.clear (π := []) (ρ := upper 5) ordinary_closed usable.ordinary rfl
  obtain ⟨m, fs, ran, changed, count⟩ := map_plain_run one_table_good ordinary_closed (fun _ inside => inside) one_table_plain
    usable.ordinary (by decide) (show 1000 < 2 ^ 40 by decide) (show 0 &&& physical_addr_mask = 0 by decide)
  obtain ⟨events, grown, _⟩ := changed.grown
  have root : m.root = one_table.root := congrArg address grown.cr3
  have unmapped : walk one_table.mem one_table.root (path 5) = none := by decide
  rw [show Paging.map_page_to_frame from_list 5 1000 0 = Operation.perform from_list (.map 5 1000 0) from rfl, ← run_program] at ran
  obtain ⟨cache, steps⟩ := steps_of_run (s := ⟨one_table, ∅⟩) ran
  have vacant : ∀ y, Steps from_list (program (.map 5 1000 0), ⟨one_table, ∅⟩) y → Vacant y := by
    intro y steps
    refine map_vacant one_table_good usable.ordinary clear (by decide) (by decide) (by decide) (empty_coherent one_table) ?_ steps
    intro x mapped
    rw [unmapped] at mapped
    cases mapped
  have careful := careful_of_steps vacant steps
  have start : Settling True True (program (.map 5 1000 0), (⟨one_table, ∅⟩ : Cpu (List ℕ))) :=
    ⟨false, program_flushes (.map 5 1000 0), fun _ => empty_coherent one_table⟩
  refine ⟨⟨m, cache⟩, fs, careful, (start.careful careful).coherent, ?_, ?_, ?_, ?_⟩
  · rw [root]
    exact changed.good
  · rw [root]
    exact changed.plain Ordinary (fun _ inside => inside) one_table_plain
  · simpa using count
  · rw [root, changed.walks 5 usable.ordinary, if_pos rfl]

theorem coherent_after_calls_one_table : ∃ s', Calls (Careful from_list) [.map 5 1000 0, .unmap 0 5] ⟨one_table, ∅⟩ s' ∧ s'.Coherent := by
  have usable : Usable 5 := ⟨.inl (by decide), by decide⟩
  obtain ⟨s, fs, first, coherent, good, plain, _, walks⟩ := one_table_mapped
  have clear := plain.clear (π := []) (ρ := upper 5) ordinary_closed usable.ordinary rfl
  obtain ⟨t, reaches⟩ := descend_of_walk clear (walks.trans_ne (Option.some_ne_none _))
  obtain ⟨m, ran, _⟩ := unmap_page_run (f := 0) good usable.ordinary reaches
  rw [show Paging.unmap_page 0 5 = Operation.perform from_list (.unmap 0 5) from rfl, ← run_program] at ran
  obtain ⟨cache, steps⟩ := steps_of_run ran
  have second := careful_of_steps (fun y steps => unmap_vacant coherent steps) steps
  have calls : Calls (Careful from_list) [.map 5 1000 0, .unmap 0 5] ⟨one_table, ∅⟩ ⟨m, cache⟩ :=
    .cons first (.cons second (.nil _))
  exact ⟨⟨m, cache⟩, calls, (coherent_after_calls (empty_coherent one_table) calls).1⟩

/-- Mapping a mapped page to another frame leaves the old translation in the cache. -/
theorem remap_unflushed : ¬ ∀ s', Calls (Step from_list) [.map 5 1000 0, .map 5 7 0] ⟨one_table, ∅⟩ s' → s'.Coherent := by
  intro all
  have usable : Usable 5 := ⟨.inl (by decide), by decide⟩
  obtain ⟨s, fs, first, coherent, good, plain, enough, walks⟩ := one_table_mapped
  have clear := plain.clear (π := []) (ρ := upper 5) ordinary_closed usable.ordinary rfl
  have keeps := map_coherent_iff good usable.ordinary clear ((missing_le s.machine.mem s.machine.root (upper 5)).trans enough)
    (show 7 < 2 ^ 40 by decide) (show 0 &&& physical_addr_mask = 0 by decide) coherent
  have first' : Steps from_list (program (.map 5 1000 0), ⟨one_table, ∅⟩) (.done (), s) := 
    Relation.ReflTransGen.mono (fun _ _ careful => careful.2) _ _ first
  have same := keeps.mp (fun s' second => all s' (.cons first' (.cons second (.nil s')))) _ walks
  exact absurd (congrArg Prod.fst same) (by decide)

end OsC.Tlb
