import OsC.PageMap

/-!
The kernel's own translation of addresses. `translate_page` reads the tables at
their recursive addresses, and so by the walks that it is to agree with; it does
agree with them on the addresses that end in a 4 KiB page or an aligned 2 MiB
page, wherever they lie, also inside the recursive slot (`translate_eq_walk`).
A frame that is stored in an entry is read back if its number has at most 40
bits (`round_trip_iff`).
-/
namespace OsC.Translate
open OsC.Word OsC.Frames OsC.Loop OsC.Entry OsC.Radix OsC.Walk OsC.Paging OsC.Recursive OsC.Tables OsC.PageMap

/-- The walk of a page ends in an entry of level 1. -/
def Small (mem : Tables) (root page : ℕ) : Prop :=
  ∃ t, descend next mem root (upper page) = some t ∧ present (mem t (last page)) = true

/-- The indices of a page at levels 4 and 3. -/
def upperTwo (page : ℕ) : List Index := [27, 18].map fun bit => Fin.ofNat 512 (page / 2 ^ bit)

/-- The index of a page at level 2. -/
def second (page : ℕ) : Index := Fin.ofNat 512 (page / 2 ^ 9)

/-- The walk of a page ends in an entry of level 2 whose address has its bits 12 to 20 clear. -/
def Large (mem : Tables) (root page : ℕ) : Prop :=
  ∃ t, descend next mem root (upperTwo page) = some t ∧ present (mem t (second page)) = true ∧
    huge (mem t (second page)) = true ∧ address (mem t (second page)) % 512 = 0

theorem upper_eq (page : ℕ) : upper page = upperTwo page ++ [second page] := rfl

theorem walk_small {mem : Tables} {root page t : ℕ} (reaches : descend next mem root (upper page) = some t)
    (isPresent : present (mem t (last page)) = true) :
    walk mem root (path page) = some (address (mem t (last page)), attributes (mem t (last page))) := by
  rw [path, walk_append (by simp) reaches, walk_last, if_pos isPresent]

theorem walk_large {mem : Tables} {root page t : ℕ} (reaches : descend next mem root (upperTwo page) = some t)
    (isPresent : present (mem t (second page)) = true) (isHuge : huge (mem t (second page)) = true)
    (aligned : address (mem t (second page)) % 512 = 0) :
    walk mem root (path page) = some (address (mem t (second page)) + last page, attributes (mem t (second page))) := by
  have split : path page = upperTwo page ++ [second page, last page] := rfl
  rw [split, walk_append (by simp) reaches]
  simp only [walk, isPresent, isHuge, leaf, number]
  simp
  omega

section
variable {A : Type} {s : Machine A} {top t : ℕ} {π : List Index} {j : Index}

theorem and_present_bit (e : ℕ) : e &&& present_bit ≠ 0 ↔ present e = true := and_bit e 0

theorem and_huge_bit (e : ℕ) : e &&& huge_bit ≠ 0 ↔ huge e = true := and_bit e 7

/-- `get_physical_frame` where its entry is present. -/
theorem get_physical_frame_present {entry : ℕ} (resolves : resolve s.mem s.root entry = some (t, 8 * (j : ℕ)))
    (isPresent : present (s.mem t j) = true) (f : ℕ) :
    get_physical_frame entry f s = .ok (0, address (s.mem t j)) (logs s [.load entry t j]) := by
  have frame : get_frame_for_addr (s.mem t j &&& physical_addr_mask) = address (s.mem t j) := by
    rw [show physical_addr_mask = addressMask from rfl, and_addressMask, get_frame_for_addr]
    exact Nat.mul_div_cancel _ (by decide)
  rw [get_physical_frame, bind_ok (load_run resolves), frame, if_pos ((and_present_bit _).mpr isPresent)]
  rfl

theorem get_physical_frame_run (window : Window s.mem s.root top) (short : π.length ≤ 3)
    (reaches : descend next s.mem top π = some t) (isPresent : present (s.mem t j) = true) (f : ℕ) :
    ∃ events, Quiet events ∧
      get_physical_frame (entry_addr (recursive π) j) f s = .ok (0, address (s.mem t j)) (logs s events) :=
  ⟨_, ⟨rfl, rfl⟩, get_physical_frame_present (window.resolve short reaches j) isPresent f⟩

/-- `translate_page` after its two descents and its look at the entry of level 2. -/
theorem translate_page_start {page : ℕ} (window : Window s.mem s.root top)
    (reaches : descend next s.mem top (upperTwo page) = some t) (f : ℕ) :
    ∃ events, Quiet events ∧ translate_page page f s = (if s.mem t (second page) &&& huge_bit ≠ 0 then do
      let (result, frame) ← get_physical_frame (entry_addr (recursive (upperTwo page)) (second page)) f
      if result ≠ 0 then pure (-1, frame) else pure (0, wrap (frame + (last page).val))
    else do
      let table ← descened_page_table (recursive (upperTwo page)) (second page)
      get_physical_frame (entry_addr table (last page)) f) (logs s events) := by
  obtain ⟨p4, p3, p2, p1⟩ := page_indices page
  change get_p2_index page = (second page).val at p2
  obtain ⟨t₃, first, more⟩ := Option.bind_eq_some_iff.mp reaches
  obtain ⟨t', next₃, here⟩ := Option.bind_eq_some_iff.mp more
  obtain rfl : t' = t := Option.some.inj here
  obtain ⟨e₁, q₁, ran₁, down₁⟩ := descened_page_table_next window (π := []) (by simp) rfl first
  obtain ⟨e₂, q₂, ran₂⟩ := load_entry (s := logs s e₁) window (by simp) down₁ (Fin.ofNat 512 (page / 2 ^ 18))
  obtain ⟨e₃, q₃, ran₃, down₂⟩ := descened_page_table_next (s := logs (logs s e₁) e₂) window (by simp) down₁ next₃
  obtain ⟨e₄, q₄, ran₄⟩ := load_entry (s := logs (logs (logs s e₁) e₂) e₃) window (by simp) down₂ (second page)
  refine ⟨e₄ ++ (e₃ ++ (e₂ ++ e₁)), q₄.append (q₃.append (q₂.append q₁)), ?_⟩
  rw [translate_page, p4, p3, p2, p1, show p4_table = recursive [] from rfl, bind_ok ran₁, bind_ok ran₂,
    bind_ok ran₃, bind_ok ran₄]
  simp only [logs_logs, logs_mem]
  rfl

/-- What `translate_page` gives for a page of either size: the frame of its walk. -/
theorem translate_page_run {page : ℕ} (window : Window s.mem s.root s.root)
    (mapped : Small s.mem s.root page ∨ Large s.mem s.root page) (f : ℕ) :
    ∃ frame flags events, walk s.mem s.root (path page) = some (frame, flags) ∧ frame < 2 ^ 40 ∧ Quiet events ∧
      translate_page page f s = .ok (0, frame) (logs s events) := by
  rcases mapped with ⟨t, through, isPresent⟩ | ⟨t, reaches, isPresent, isHuge, aligned⟩
  · obtain ⟨t₂, reaches, table⟩ := descend_snoc_some (upper_eq page ▸ through)
    obtain ⟨early, quiet, start⟩ := translate_page_start window reaches f
    have notHuge : ¬ s.mem t₂ (second page) &&& huge_bit ≠ 0 := by
      rw [and_huge_bit, (next_eq_some.mp table).2.1]
      simp
    obtain ⟨e₁, q₁, ran₁, _⟩ := descened_page_table_next (s := logs s early) window (π := upperTwo page)
      (le_refl 2) reaches table
    obtain ⟨e₂, q₂, ran₂⟩ := get_physical_frame_run (s := logs (logs s early) e₁) window (π := upper page)
      (le_refl 3) through isPresent f
    refine ⟨_, _, e₂ ++ (e₁ ++ early), walk_small through isPresent, Nat.mod_lt _ (by decide),
      q₂.append (q₁.append quiet), ?_⟩
    rw [start, if_neg notHuge, bind_ok ran₁, ← upper_eq, ran₂, logs_logs, logs_logs]
    rfl
  · obtain ⟨early, quiet, start⟩ := translate_page_start window reaches f
    obtain ⟨e₁, q₁, ran₁⟩ := get_physical_frame_run (s := logs s early) window (π := upperTwo page)
      (Nat.le_succ 2) reaches isPresent f
    have bound : address (s.mem t (second page)) < 2 ^ 40 := Nat.mod_lt _ (by decide)
    have index := (last page).isLt
    have sum : wrap ((address (s.mem t (second page)) : ℤ) + (last page).val) =
        address (s.mem t (second page)) + last page := wrap_eq (by push_cast; rfl) (by omega)
    refine ⟨_, _, e₁ ++ early, walk_large reaches isPresent isHuge aligned, by omega, q₁.append quiet, ?_⟩
    rw [start, if_pos ((and_huge_bit _).mpr isHuge), bind_ok ran₁, logs_logs, ← sum]
    rfl

/-- The kernel's translation of an address is the hardware's. Its tables are
    read at addresses that the same walk resolves. -/
theorem translate_eq_walk {vaddr : ℕ} (slot : next (s.mem s.root 511) = some s.root) (canonical : Canonical vaddr)
    (mapped : Small s.mem s.root (vaddr / PAGE_SIZE) ∨ Large s.mem s.root (vaddr / PAGE_SIZE)) (f : ℕ) :
    ∃ frame offset events, resolve s.mem s.root vaddr = some (frame, offset) ∧ Quiet events ∧
      Paging.translate f vaddr s = .ok (frame * PAGE_SIZE + offset) (logs s events) := by
  obtain ⟨frame, flags, events, walked, fits, quiet, ran⟩ := translate_page_run ⟨slot, slot⟩ mapped f
  have offset : vaddr % 4096 < 4096 := Nat.mod_lt _ (by decide)
  refine ⟨frame, vaddr % 4096, events, ?_, quiet, ?_⟩
  · rw [resolve, if_pos canonical, indices_eq_path, walked]
    rfl
  · have value : wrap ((frame : ℤ) * PAGE_SIZE + (vaddr : ℤ) % PAGE_SIZE) = frame * PAGE_SIZE + vaddr % 4096 := by
      unfold PAGE_SIZE
      exact wrap_eq (by push_cast; rfl) (by omega)
    rw [Paging.translate, bind_ok (get_page_for_vaddr_run canonical s), bind_ok ran, ← value]
    rfl

/-- A boot hierarchy: frame 1 points to itself in slot 511 and over frame 2 to frame 3
    in slot 0, which maps a 2 MiB page and, over frame 4, a 4 KiB page. -/
def two_sizes : Machine Unit :=
  { mem := fun f j =>
      if f = 1 then if j = 511 then 0x1003 else if j = 0 then 0x2003 else 0
      else if f = 2 then if j = 0 then 0x3003 else 0
      else if f = 3 then if j = 0 then 0x4003 else if j = 1 then 0x600083 else 0
      else if f = 4 then if j = 5 then 0x777003 else 0 else 0
    cr3 := 0x1003
    allocator := ()
    trace := [] }

theorem translate_eq_walk_two_sizes :
    (∃ frame offset events, resolve two_sizes.mem two_sizes.root 0x5123 = some (frame, offset) ∧ Quiet events ∧
      Paging.translate 0 0x5123 two_sizes = .ok (frame * PAGE_SIZE + offset) (logs two_sizes events)) ∧
    (∃ frame offset events, resolve two_sizes.mem two_sizes.root 0x3ff456 = some (frame, offset) ∧ Quiet events ∧
      Paging.translate 0 0x3ff456 two_sizes = .ok (frame * PAGE_SIZE + offset) (logs two_sizes events)) ∧
    ∃ frame offset events, resolve two_sizes.mem two_sizes.root 0xffffff8000000028 = some (frame, offset) ∧
      Quiet events ∧ Paging.translate 0 0xffffff8000000028 two_sizes = .ok (frame * PAGE_SIZE + offset) (logs two_sizes events) := by
  have slot : next (two_sizes.mem two_sizes.root 511) = some two_sizes.root := rfl
  exact ⟨translate_eq_walk slot (by decide) (.inl ⟨4, rfl, rfl⟩) 0,
    translate_eq_walk slot (by decide) (.inr ⟨3, rfl, rfl, rfl, rfl⟩) 0,
    translate_eq_walk slot (by decide) (.inl ⟨3, rfl, rfl⟩) 0⟩

/-! ### Storing and reading a frame -/

/-- The start of the frame does not wrap and has no bits outside the address bits of an entry. -/
def StartFits (frame : ℕ) : Prop :=
  frame * PAGE_SIZE < 2 ^ 64 ∧ get_frame_start_addr frame &&& physical_addr_mask = get_frame_start_addr frame

/-- Either the assertion fails on a frame whose start does not fit, or the frame and
    the flags are found in the entry. -/
def RoundTrip (entry frame flags : ℕ) (s : Machine A) : Prop :=
  (¬ StartFits frame ∧ ∃ text s₁, set_page_table_entry entry frame flags s = .error (.assertion text) s₁) ∨
    ∃ s₁, set_page_table_entry entry frame flags s = .ok () s₁ ∧
      (∀ g, ∃ s₂, get_physical_frame entry g s₁ = .ok (0, frame) s₂) ∧
      ∃ value s₂, load entry s₁ = .ok value s₂ ∧ attributes value = flags

/-- The entry is the word `j` of the frame `t`, also when it has been set. -/
structure Settled (entry frame flags : ℕ) (s : Machine A) (t : ℕ) (j : Index) : Prop where
  before : resolve s.mem s.root entry = some (t, 8 * (j : ℕ))
  after : ∀ s₁, set_page_table_entry entry frame flags s = .ok () s₁ →
    resolve s₁.mem s₁.root entry = some (t, 8 * (j : ℕ))

/-- The address bits keep a frame modulo 2^40. -/
theorem start_addr_mod (frame : ℕ) : get_frame_start_addr frame &&& physical_addr_mask = frame % 2 ^ 40 * 4096 := by
  rw [show physical_addr_mask = addressMask from rfl, and_addressMask, get_frame_start_addr, address]
  unfold wrap PAGE_SIZE
  omega

section
variable {entry frame flags : ℕ}

/-- The assertion always holds, and the frame that is read back has lost the bits from 40 on. -/
theorem Settled.run (settled : Settled entry frame flags s t j) (isPresent : flags &&& present_bit ≠ 0)
    (clear : flags &&& physical_addr_mask = 0) :
    ∃ s₁, set_page_table_entry entry frame flags s = .ok () s₁ ∧
      (∀ g, ∃ s₂, get_physical_frame entry g s₁ = .ok (0, frame % 2 ^ 40) s₂) ∧
      ∃ value s₂, load entry s₁ = .ok value s₂ ∧ attributes value = flags := by
  have fits : frame % 2 ^ 40 < 2 ^ 40 := Nat.mod_lt _ (by decide)
  obtain ⟨value, isValue⟩ : ∃ value, value = frame % 2 ^ 40 * 4096 ||| flags := ⟨_, rfl⟩
  have stored := store_run settled.before value
  rw [isValue, ← start_addr_mod, ← set_page_table_entry_eq, start_addr_mod, ← isValue] at stored
  have resolves := settled.after _ stored
  have here : (logs { s with mem := put s.mem t j value } [.store entry t j]).mem t j = value := put_same
  have loaded := load_run resolves
  rw [here] at loaded
  refine ⟨_, stored, fun g => ?_, value, _, loaded, ?_⟩
  · have readable : present ((logs { s with mem := put s.mem t j value } [.store entry t j]).mem t j) = true := by
      rw [here, isValue, present_or]
      exact (and_present_bit flags).mp isPresent
    have ran := get_physical_frame_present resolves readable g
    have named : address value = frame % 2 ^ 40 := by rw [isValue]; exact address_or fits clear
    rw [here, named] at ran
    exact ⟨_, ran⟩
  · rw [isValue]
    exact attributes_or fits clear

theorem Settled.small (settled : Settled entry frame flags s t j) (isPresent : flags &&& present_bit ≠ 0)
    (clear : flags &&& physical_addr_mask = 0) (trip : RoundTrip entry frame flags s) : frame < 2 ^ 40 := by
  obtain ⟨s₁, ran, found, -⟩ := settled.run isPresent clear
  rcases trip with ⟨-, text, s₂, failed⟩ | ⟨s₂, again, same, -⟩
  · rw [ran] at failed
    cases failed
  · rw [ran] at again
    cases again
    obtain ⟨_, left⟩ := same 0
    obtain ⟨_, right⟩ := found 0
    rw [left] at right
    injection right with pair
    injection pair with _ number
    omega

/-- Flags with the present bit and no address bits are stored with a frame so that both
    are found again exactly if the frame is below 2^40: the assertion never fails. -/
theorem round_trip_iff (settled : Settled entry frame flags s t j) (isPresent : flags &&& present_bit ≠ 0)
    (clear : flags &&& physical_addr_mask = 0) : RoundTrip entry frame flags s ↔ frame < 2 ^ 40 := by
  refine ⟨settled.small isPresent clear, fun small => ?_⟩
  obtain ⟨s₁, ran, found, kept⟩ := settled.run isPresent clear
  rw [Nat.mod_eq_of_lt small] at found
  exact .inr ⟨s₁, ran, found, kept⟩

end

theorem settled_two_sizes (frame : ℕ) : Settled (entry_addr (recursive [0, 0, 0]) 7) frame 3 two_sizes 4 7 := by
  have window : Window two_sizes.mem two_sizes.root two_sizes.root := ⟨rfl, rfl⟩
  have resolves : resolve two_sizes.mem two_sizes.root (entry_addr (recursive [0, 0, 0]) 7) = some (4, 8 * 7) :=
    window.resolve (le_refl 3) rfl 7
  refine ⟨resolves, fun s₁ ran => ?_⟩
  rw [set_page_table_entry_eq, store_run (j := 7) resolves] at ran
  cases ran
  have kept : Window (put two_sizes.mem 4 7 (get_frame_start_addr frame &&& physical_addr_mask ||| 3)) two_sizes.root
      two_sizes.root := window.keep rfl
  refine kept.resolve (π := [0, 0, 0]) (le_refl 3) ?_ 7
  refine (descend_congr fun ρ i u inside _ => put_other ?_).trans (show _ = some 4 from rfl)
  rintro ⟨-, rfl⟩
  exact absurd (inside.subset (List.mem_append_right ρ (List.mem_singleton_self 7))) (by decide)

theorem round_trip_two_sizes : RoundTrip (entry_addr (recursive [0, 0, 0]) 7) 0x777 3 two_sizes ↔ 0x777 < 2 ^ 40 :=
  round_trip_iff (settled_two_sizes 0x777) (by decide) (by decide)

/-- Frame 2^40 is stored without an assertion, and read back as frame 0. -/
theorem round_trip_truncates : 3 &&& present_bit ≠ 0 ∧ 3 &&& physical_addr_mask = 0 ∧
    Settled (entry_addr (recursive [0, 0, 0]) 7) (2 ^ 40) 3 two_sizes 4 7 ∧
    ¬ RoundTrip (entry_addr (recursive [0, 0, 0]) 7) (2 ^ 40) 3 two_sizes := by
  have settled := settled_two_sizes (2 ^ 40)
  exact ⟨by decide, by decide, settled, fun trip => absurd (settled.small (by decide) (by decide) trip) (by decide)⟩

end
end OsC.Translate
