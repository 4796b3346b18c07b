import OsC.Paging

/-!
Tables at their recursive addresses. The table that a path of at most three
indices reaches from the level 4 table has a virtual address of its own, which
`descened_page_table` computes (`recursive`). A walk to that address passes
slot 511 for each index that the path is short of three and then the path
(`Window.resolve`). The active level 4 table may differ from the one that its slot 511 points to.
-/
namespace OsC.Recursive
open OsC.Word OsC.Frames OsC.Loop OsC.Entry OsC.Radix OsC.Walk OsC.Paging

/-- The virtual address of the table at a path. -/
def recursive (π : List Index) : ℕ := π.foldl (fun (table : ℕ) (i : Index) => table * 512 % 2 ^ 64 + i.val * 4096) p4_table

theorem recursive_nil : recursive [] = 2 ^ 64 - 2 ^ 12 := rfl

theorem recursive_snoc (π : List Index) (i : Index) :
    recursive (π ++ [i]) = recursive π * 512 % 2 ^ 64 + i * 4096 := by
  simp [recursive]

theorem recursive_one (a : Index) : recursive [a] = 2 ^ 64 - 2 ^ 21 + a * 2 ^ 12 := by
  have step := recursive_snoc [] a
  rw [recursive_nil] at step
  rw [show [a] = [] ++ [a] from rfl, step]
  omega

theorem recursive_two (a b : Index) : recursive [a, b] = 2 ^ 64 - 2 ^ 30 + a * 2 ^ 21 + b * 2 ^ 12 := by
  have step := recursive_snoc [a] b
  rw [recursive_one] at step
  rw [show [a, b] = [a] ++ [b] from rfl, step]
  have := a.isLt
  omega

theorem recursive_three (a b c : Index) :
    recursive [a, b, c] = 2 ^ 64 - 2 ^ 39 + a * 2 ^ 30 + b * 2 ^ 21 + c * 2 ^ 12 := by
  have step := recursive_snoc [a, b] c
  rw [recursive_two] at step
  rw [show [a, b, c] = [a, b] ++ [c] from rfl, step]
  have := a.isLt
  have := b.isLt
  omega

theorem indices_eq {vaddr : ℕ} {a b c d : Index} (first : vaddr / 2 ^ 39 % 512 = a) (second : vaddr / 2 ^ 30 % 512 = b)
    (third : vaddr / 2 ^ 21 % 512 = c) (fourth : vaddr / 2 ^ 12 % 512 = d) : indices vaddr = [a, b, c, d] := by
  simp only [indices, List.map, List.cons.injEq, and_true]
  exact ⟨Fin.ext first, Fin.ext second, Fin.ext third, Fin.ext fourth⟩

/-- The indices of the entries of a table at its recursive address. -/
theorem recursive_entry {π : List Index} (short : π.length ≤ 3) (j : Index) :
    ∃ vaddr, entry_addr (recursive π) j = vaddr ∧ Canonical vaddr ∧ vaddr % 4096 = 8 * j ∧
      indices vaddr = List.replicate (4 - π.length) 511 ++ π := by
  have jLess := j.isLt
  match π with
  | [] =>
    refine ⟨2 ^ 64 - 2 ^ 12 + 8 * j, ?_, .inr ⟨by omega, by omega⟩, by omega, ?_⟩
    · exact wrap_eq (by rw [recursive_nil]; omega) (by omega)
    · apply indices_eq <;> change _ = 511 <;> omega
  | [a] =>
    have aLess := a.isLt
    refine ⟨2 ^ 64 - 2 ^ 21 + a * 2 ^ 12 + 8 * j, ?_, .inr ⟨by omega, by omega⟩, by omega, ?_⟩
    · exact wrap_eq (by rw [recursive_one]; omega) (by omega)
    · apply indices_eq <;> (try change _ = 511) <;> omega
  | [a, b] =>
    have aLess := a.isLt
    have bLess := b.isLt
    refine ⟨2 ^ 64 - 2 ^ 30 + a * 2 ^ 21 + b * 2 ^ 12 + 8 * j, ?_, .inr ⟨by omega, by omega⟩, by omega, ?_⟩
    · exact wrap_eq (by rw [recursive_two]; omega) (by omega)
    · apply indices_eq <;> (try change _ = 511) <;> omega
  | [a, b, c] =>
    have aLess := a.isLt
    have bLess := b.isLt
    have cLess := c.isLt
    refine ⟨2 ^ 64 - 2 ^ 39 + a * 2 ^ 30 + b * 2 ^ 21 + c * 2 ^ 12 + 8 * j, ?_, .inr ⟨by omega, by omega⟩, by omega, ?_⟩
    · exact wrap_eq (by rw [recursive_three]; omega) (by omega)
    · apply indices_eq <;> (try change _ = 511) <;> omega
  | _ :: _ :: _ :: _ :: _ =>
    simp only [List.length_cons] at short
    omega

theorem recursive_range {π : List Index} (short : π.length ≤ 3) :
    2 ^ 64 - 2 ^ 39 ≤ recursive π ∧ recursive π % 4096 = 0 := by
  match π with
  | [] => rw [recursive_nil]; omega
  | [a] => rw [recursive_one]; omega
  | [a, b] => rw [recursive_two]; omega
  | [a, b, c] => rw [recursive_three]; omega
  | _ :: _ :: _ :: _ :: _ =>
    simp only [List.length_cons] at short
    omega

/-- The address that `descened_page_table` computes from a table and an index. -/
theorem recursive_descend {π : List Index} (short : π.length ≤ 2) (i : Index) :
    wrap (recursive π <<< 9) ||| (i : ℕ) <<< 12 = recursive (π ++ [i]) := by
  have aligned := (recursive_range (π := π) (by omega)).2
  have shifted : wrap (recursive π <<< 9) = 2 ^ 21 * (recursive π * 512 % 2 ^ 64 / 2 ^ 21) := by
    unfold wrap
    rw [Nat.shiftLeft_eq]
    omega
  have low : (i : ℕ) <<< 12 < 2 ^ 21 := by
    rw [Nat.shiftLeft_eq]
    have := i.isLt
    omega
  rw [shifted, ← Nat.two_pow_add_eq_or_of_lt low, recursive_snoc, Nat.shiftLeft_eq]
  omega

theorem recursive_ne_null {π : List Index} (short : π.length ≤ 3) : recursive π ≠ NULL := by
  have := (recursive_range short).1
  unfold NULL
  omega

/-! ### Walks to recursive addresses -/

/-- Slot 511 of the active table `root` points to the table `top`, and so does its own. -/
structure Window (mem : Tables) (root top : ℕ) : Prop where
  outer : next (mem root 511) = some top
  inner : next (mem top 511) = some top

section
variable {mem : Tables} {root top t : ℕ} {π : List Index}

theorem Window.descend (window : Window mem root top) (k : ℕ) (π : List Index) :
    descend next mem root (List.replicate (k + 1) 511 ++ π) = descend next mem top π := by
  have inner : ∀ k, Radix.descend next mem top (List.replicate k 511 ++ π) = Radix.descend next mem top π := by
    intro k
    induction k with
    | zero => rfl
    | succ k ih => simpa [List.replicate_succ, Radix.descend, window.inner] using ih
  simpa [List.replicate_succ, Radix.descend, window.outer] using inner k

/-- An entry of a table at its recursive address is that entry of its frame. -/
theorem Window.resolve (window : Window mem root top) (short : π.length ≤ 3) (reaches : Radix.descend next mem top π = some t)
    (j : Index) : resolve mem root (entry_addr (recursive π) j) = some (t, 8 * (j : ℕ)) := by
  obtain ⟨vaddr, same, canonical, offset, path⟩ := recursive_entry short j
  obtain ⟨k, count⟩ : ∃ k, 4 - π.length = k + 1 := ⟨3 - π.length, by omega⟩
  have through : Radix.descend next mem root (indices vaddr) = some t := by
    rw [path, count, window.descend]
    exact reaches
  obtain ⟨flags, walked⟩ := walk_of_descend (by rw [path, count]; simp [List.replicate_succ]) through
  simp [Walk.resolve, same, canonical, walked, offset]

/-- Filling an entry that names no table keeps the window. -/
theorem Window.keep {i : Index} {e : ℕ} (window : Window mem root top) (absent : next (mem t i) = none) :
    Window (put mem t i e) root top := by
  have other : ∀ u, next (mem u 511) = some top → ¬ (u = t ∧ (511 : Index) = i) := by
    rintro u points ⟨rfl, rfl⟩
    simp [absent] at points
  exact ⟨by rw [put_other (other root window.outer)]; exact window.outer,
    by rw [put_other (other top window.inner)]; exact window.inner⟩

end

@[simp] theorem word_eight (j : Index) : word (8 * (j : ℕ)) = j := by
  refine Fin.ext ?_
  have := j.isLt
  change 8 * j.val / 8 % 512 = j.val
  omega

/-! ### Loads and stores -/

section
variable {A : Type}

/-- The entries that events store to. -/
def stores (events : List Event) : List (ℕ × Index) :=
  events.filterMap fun
    | .store _ frame index => some (frame, index)
    | _ => none

/-- The frames that events allocate. -/
def allocs (events : List Event) : List ℕ :=
  events.filterMap fun
    | .allocated frame => some frame
    | _ => none

@[simp] theorem stores_append (new old : List Event) : stores (new ++ old) = stores new ++ stores old :=
  List.filterMap_append
@[simp] theorem allocs_append (new old : List Event) : allocs (new ++ old) = allocs new ++ allocs old :=
  List.filterMap_append

/-- A machine whose trace has more events. -/
def logs (s : Machine A) (events : List Event) : Machine A := { s with trace := events ++ s.trace }

@[simp] theorem logs_mem (s : Machine A) (events : List Event) : (logs s events).mem = s.mem := rfl
@[simp] theorem logs_root (s : Machine A) (events : List Event) : (logs s events).root = s.root := rfl
@[simp] theorem logs_allocator (s : Machine A) (events : List Event) : (logs s events).allocator = s.allocator := rfl
@[simp] theorem logs_logs (s : Machine A) (old new : List Event) : logs (logs s old) new = logs s (new ++ old) := by
  simp [logs]

/-- Events that store nothing and allocate nothing. -/
def Quiet (events : List Event) : Prop := stores events = [] ∧ allocs events = []

theorem Quiet.append {new old : List Event} (late : Quiet new) (early : Quiet old) : Quiet (new ++ old) := by
  simp [Quiet, late.1, late.2, early.1, early.2]

variable {s : Machine A} {top t : ℕ} {π : List Index}

theorem load_run {vaddr : ℕ} {j : Index} (resolves : resolve s.mem s.root vaddr = some (t, 8 * (j : ℕ))) :
    load vaddr s = .ok (s.mem t j) (logs s [.load vaddr t j]) := by
  simp [load, resolves, Machine.log, logs]

theorem store_run {vaddr : ℕ} {j : Index} (resolves : resolve s.mem s.root vaddr = some (t, 8 * (j : ℕ))) (value : ℕ) :
    store vaddr value s = .ok () (logs { s with mem := put s.mem t j value } [.store vaddr t j]) := by
  simp [store, resolves, Machine.log, logs]

theorem load_entry (window : Window s.mem s.root top) (short : π.length ≤ 3) (reaches : descend next s.mem top π = some t)
    (j : Index) : ∃ events, Quiet events ∧ load (entry_addr (recursive π) j) s = .ok (s.mem t j) (logs s events) :=
  ⟨_, ⟨rfl, rfl⟩, load_run (window.resolve short reaches j)⟩

theorem store_entry (window : Window s.mem s.root top) (short : π.length ≤ 3)
    (reaches : descend next s.mem top π = some t) (j : Index) (value : ℕ) :
    store (entry_addr (recursive π) j) value s =
      .ok () (logs { s with mem := put s.mem t j value } [.store (entry_addr (recursive π) j) t j]) :=
  store_run (window.resolve short reaches j) value

theorem get_page_for_vaddr_run {σ : Type} {vaddr : ℕ} (canonical : Canonical vaddr) (s : σ) :
    get_page_for_vaddr vaddr s = .ok (vaddr / PAGE_SIZE) s := by
  have holds : (decide (vaddr < 0x0000800000000000) || decide (vaddr ≥ 0xffff800000000000)) = true := by
    simp only [Bool.or_eq_true, decide_eq_true_eq]
    rcases canonical with low | high <;> omega
  rw [get_page_for_vaddr, assert, if_pos holds]
  rfl

theorem and_present (e : ℕ) : e &&& (present_bit ||| lnot huge_bit) ≠ 0 ↔ present e = true := and_bit e 0

/-- `descened_page_table` reads one entry and tests its present bit, and nothing else. -/
theorem descened_page_table_eq (table : ℕ) (i : Index) (s : Machine A) :
    descened_page_table table i s =
      match resolve s.mem s.root (entry_addr table i) with
      | none => .error (.page_fault (entry_addr table i)) s
      | some (t, offset) =>
        .ok (if present (s.mem t (word offset)) then wrap (table <<< 9) ||| (i : ℕ) <<< 12 else NULL)
          (logs s [.load (entry_addr table i) t (word offset)]) := by
  rw [descened_page_table, if_neg (Nat.not_le.mpr i.isLt)]
  rcases resolves : resolve s.mem s.root (entry_addr table i) with _ | ⟨t, offset⟩
  · have failed : load (entry_addr table i) s = .error (.page_fault (entry_addr table i)) s := by simp [load, resolves]
    rw [bind_error failed]
  · have loaded : load (entry_addr table i) s =
        .ok (s.mem t (word offset)) (logs s [.load (entry_addr table i) t (word offset)]) := by
      simp [load, resolves, Machine.log, logs]
    rw [bind_ok loaded]
    by_cases isPresent : present (s.mem t (word offset)) = true
    · rw [if_pos ((and_present _).mpr isPresent)]
      simp only [isPresent, if_true]
      rfl
    · rw [if_neg fun test => isPresent ((and_present _).mp test)]
      simp only [isPresent]
      rfl

/-- From a table at its recursive address it gives that of the next. -/
theorem descened_page_table_at (short : π.length ≤ 2) {i : Index}
    (resolves : resolve s.mem s.root (entry_addr (recursive π) i) = some (t, 8 * (i : ℕ))) :
    descened_page_table (recursive π) i s = .ok (if present (s.mem t i) then recursive (π ++ [i]) else NULL)
      (logs s [.load (entry_addr (recursive π) i) t i]) := by
  rw [descened_page_table_eq, resolves]
  simp only [word_eight, recursive_descend short]

theorem descened_page_table_run (window : Window s.mem s.root top) (short : π.length ≤ 2)
    (reaches : descend next s.mem top π = some t) (i : Index) :
    ∃ events, Quiet events ∧ descened_page_table (recursive π) i s =
      .ok (if present (s.mem t i) then recursive (π ++ [i]) else NULL) (logs s events) :=
  ⟨_, ⟨rfl, rfl⟩, descened_page_table_at short (window.resolve (by omega) reaches i)⟩

/-- The assertion of `set_page_table_entry` is about 0. -/
theorem frame_assertion (f : ℕ) : (lnot physical_addr_mask &&& get_frame_start_addr f == 0) = true := by
  rw [show lnot physical_addr_mask = 0 from rfl, Nat.zero_and]
  rfl

theorem set_page_table_entry_eq (entry f flags : ℕ) (s : Machine A) :
    set_page_table_entry entry f flags s =
      store entry (get_frame_start_addr f &&& physical_addr_mask ||| flags) s := by
  have holds := frame_assertion f
  have checked : assert (σ := Machine A) (lnot physical_addr_mask &&& get_frame_start_addr f == 0)
      "((!physical_addr_mask) & get_frame_start_addr(frame)) == 0" s = .ok () s := by
    rw [assert, if_pos holds]
    rfl
  rw [set_page_table_entry, bind_ok checked]

/-- The address bits of an entry hold the low 40 bits of a frame's number. -/
theorem start_addr_low (f : ℕ) : get_frame_start_addr f &&& physical_addr_mask = f % 2 ^ 40 * 4096 := by
  have low : address (get_frame_start_addr f) = f % 2 ^ 40 := by
    simp only [get_frame_start_addr, wrap, PAGE_SIZE, address]
    omega
  rw [show physical_addr_mask = addressMask from rfl, and_addressMask, low]

theorem start_addr_masked {f : ℕ} (fits : f < 2 ^ 40) : get_frame_start_addr f &&& physical_addr_mask = f * 4096 := by
  rw [start_addr_low, Nat.mod_eq_of_lt fits]

theorem set_entry_run {vaddr f : ℕ} {j : Index} (resolves : resolve s.mem s.root vaddr = some (t, 8 * (j : ℕ)))
    (fits : f < 2 ^ 40) (flags : ℕ) : set_page_table_entry vaddr f flags s =
      .ok () (logs { s with mem := put s.mem t j (f * 4096 ||| flags) } [.store vaddr t j]) := by
  rw [set_page_table_entry_eq, start_addr_masked fits, store_run resolves]

theorem set_page_table_entry_run (window : Window s.mem s.root top) (short : π.length ≤ 3)
    (reaches : descend next s.mem top π = some t) (j : Index) {f : ℕ} (fits : f < 2 ^ 40) (flags : ℕ) :
    set_page_table_entry (entry_addr (recursive π) j) f flags s =
      .ok () (logs { s with mem := put s.mem t j (f * 4096 ||| flags) } [.store (entry_addr (recursive π) j) t j]) :=
  set_entry_run (window.resolve short reaches j) fits flags

end
end OsC.Recursive
