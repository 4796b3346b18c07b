import OsC.Boot
import OsC.Bytes

/-!
The boot code that sets up the page tables, as a 32-bit register machine over
the bytes of physical memory. From cleared tables it builds the hierarchy of
`BootTables`, whose walks map the first GiB to itself and, outside slot 511,
nothing else (`boot_maps_first_gib`).
-/
namespace OsC.BootCode
open OsC.Bytes OsC.Loop OsC.Entry OsC.Radix OsC.Walk OsC.Paging OsC.Recursive OsC.PageMap OsC.Tables OsC.Boot

/-- The addresses of the tables in `.bss`. -/
structure Image where
  p4_table : ℕ
  p3_table : ℕ
  p2_table : ℕ
  aligned : p4_table % 4096 = 0 ∧ p3_table % 4096 = 0 ∧ p2_table % 4096 = 0
  distinct : p4_table ≠ p3_table ∧ p4_table ≠ p2_table ∧ p3_table ≠ p2_table
  low : p4_table < 2 ^ 32 ∧ p3_table < 2 ^ 32 ∧ p2_table < 2 ^ 32

/-- The registers that the code uses, and physical memory. -/
structure Cpu where
  eax : ℕ
  ecx : ℕ
  edx : ℕ
  cr0 : ℕ
  cr3 : ℕ
  cr4 : ℕ
  msr : ℕ → ℕ
  mem : Memory

def mov_eax (value : ℕ) (c : Cpu) : Cpu := { c with eax := value }

def or_eax (value : ℕ) (c : Cpu) : Cpu := { c with eax := c.eax ||| value }

/-- `mov [address], eax` -/
def store_eax (address : ℕ) (c : Cpu) : Cpu := { c with mem := write c.mem (address % 2 ^ 32) 4 c.eax }

/-- The product goes to `edx:eax`. -/
def mul_ecx (c : Cpu) : Cpu := { c with eax := c.eax * c.ecx % 2 ^ 32, edx := c.eax * c.ecx / 2 ^ 32 }

def rdmsr (c : Cpu) : Cpu := { c with eax := c.msr c.ecx % 2 ^ 32, edx := c.msr c.ecx / 2 ^ 32 }

def wrmsr (c : Cpu) : Cpu := { c with msr := Function.update c.msr c.ecx (c.edx * 2 ^ 32 + c.eax) }

/-- A turn of `.map_p2_table`. -/
def map_p2_turn (i : Image) (c : Cpu) : Cpu ⊕ Cpu :=
  let c := mov_eax 0x200000 c
  let c := mul_ecx c
  let c := or_eax 0b10000011 c
  let c := store_eax (i.p2_table + c.ecx * 8) c
  let c := { c with ecx := (c.ecx + 1) % 2 ^ 32 }
  if c.ecx ≠ 512 then .inl c else .inr c

def set_up_page_tables (i : Image) (fuel : ℕ) (c : Cpu) : Option Cpu :=
  let c := mov_eax i.p3_table c
  let c := or_eax 0b11 c
  let c := store_eax i.p4_table c
  let c := mov_eax i.p2_table c
  let c := or_eax 0b11 c
  let c := store_eax i.p3_table c
  iterate (map_p2_turn i) fuel { c with ecx := 0 }

def enable_paging (i : Image) (c : Cpu) : Cpu :=
  let c := mov_eax i.p4_table c
  let c := or_eax 0b11 c
  let c := store_eax (i.p4_table + 511 * 8) c
  let c := { c with cr3 := c.eax }
  let c := mov_eax c.cr4 c
  let c := or_eax (1 <<< 5) c
  let c := { c with cr4 := c.eax }
  let c := { c with ecx := 0xC0000080 }
  let c := rdmsr c
  let c := or_eax (1 <<< 8) c
  let c := wrmsr c
  let c := mov_eax c.cr0 c
  let c := or_eax (1 <<< 31) c
  { c with cr0 := c.eax }

/-- The entries in the bytes of physical memory. -/
def tables (m : Memory) : Tables := fun frame j => read m (frame * 4096 + 8 * j) 8

/-- The tables are zero-initialised. -/
def Cleared (i : Image) (m : Memory) : Prop :=
  ∀ table ∈ [i.p4_table, i.p3_table, i.p2_table], ∀ b, table ≤ b → b < table + 4096 → m b = 0

/-- All entries that a walk passes allow writes. -/
def writeable (mem : Tables) : ℕ → List Index → Bool
  | _, [] => true
  | t, i :: rest => mem t i &&& writeable_bit != 0 && (huge (mem t i) || writeable mem (address (mem t i)) rest)

/-! ### The loop over the level 2 table -/

section
variable {i : Image} {m : Memory} {j n : ℕ}

/-- The entry of a 2 MiB page. -/
def large_entry (j : ℕ) : ℕ := 0x200000 * j ||| 0x83

theorem large_entry_lt (small : j < 512) : large_entry j < 256 ^ 4 :=
  Nat.or_lt_two_pow (n := 32) (by omega) (by decide)

/-- Memory after some turns of the loop. -/
def filled (table : ℕ) (m : Memory) : ℕ → Memory
  | 0 => m
  | n + 1 => write (filled table m n) (table + 8 * n) 4 (large_entry n)

theorem filled_outside (table n : ℕ) {b : ℕ} (outside : b < table ∨ table + 8 * n ≤ b) : filled table m n b = m b := by
  induction n with
  | zero => rfl
  | succ n ih =>
    rw [filled, write_outside _ _ _ _ (by omega)]
    exact ih (by omega)

/-- Each entry has been stored once; the bytes behind its 4 low bytes stay. -/
theorem filled_entry {table : ℕ} (zero : ∀ b, table ≤ b → b < table + 4096 → m b = 0) (count : n ≤ 512) (inside : j < n) :
    read (filled table m n) (table + 8 * j) 8 = large_entry j := by
  induction n with
  | zero => exact absurd inside (Nat.not_lt_zero j)
  | succ n ih =>
    by_cases last : j = n
    · have low : read (filled table m (n + 1)) (table + 8 * j) 4 = large_entry j := by
        rw [filled, last]
        exact read_write _ _ _ _ (large_entry_lt (by omega))
      have high : read (filled table m (n + 1)) (table + 8 * j + 4) 4 = 0 := by
        refine read_zero _ _ fun b above below => ?_
        rw [filled, write_outside _ _ _ _ (by omega), filled_outside _ _ (by omega)]
        exact zero b (by omega) (by omega)
      rw [read_add _ 4 4, low, high]
      rfl
    · rw [filled, read_write_apart _ _ (by omega)]
      exact ih (by omega) (by omega)

/-- What a turn does. -/
theorem map_p2_turn_run {c : Cpu} (small : c.ecx < 512) : ∃ c',
    map_p2_turn i c = (if c.ecx + 1 ≠ 512 then .inl c' else .inr c') ∧ c'.ecx = c.ecx + 1 ∧
      c'.mem = write c.mem (i.p2_table + 8 * c.ecx) 4 (large_entry c.ecx) := by
  have low := i.low
  have aligned := i.aligned
  have slot : (i.p2_table + c.ecx * 8) % 2 ^ 32 = i.p2_table + 8 * c.ecx := by omega
  have product : 0x200000 * c.ecx % 2 ^ 32 = 0x200000 * c.ecx := by omega
  have next : (c.ecx + 1) % 2 ^ 32 = c.ecx + 1 := by omega
  refine ⟨{ c with
    eax := large_entry c.ecx, edx := 0x200000 * c.ecx / 2 ^ 32, ecx := c.ecx + 1,
    mem := write c.mem (i.p2_table + 8 * c.ecx) 4 (large_entry c.ecx) }, ?_, rfl, rfl⟩
  simp only [map_p2_turn, mov_eax, mul_ecx, or_eax, store_eax, slot, product, next]
  rfl

/-- The turns that are left fill the rest of the table. -/
theorem map_p2_loop {c : Cpu} (left : ℕ) (count : n + (left + 1) = 512) (counter : c.ecx = n)
    (mem : c.mem = filled i.p2_table m n) :
    ∃ c', iterate (map_p2_turn i) (left + 1) c = some c' ∧ c'.mem = filled i.p2_table m 512 := by
  induction left generalizing n c with
  | zero =>
    obtain ⟨c', ran, -, stored⟩ := map_p2_turn_run (i := i) (c := c) (by omega)
    rw [if_neg (by omega)] at ran
    refine ⟨c', iterate_of_inr ran 0, ?_⟩
    rw [stored, counter, mem, ← count]
    rfl
  | succ left ih =>
    obtain ⟨c', ran, next, stored⟩ := map_p2_turn_run (i := i) (c := c) (by omega)
    rw [if_pos (by omega)] at ran
    rw [counter, mem] at stored
    rw [counter] at next
    obtain ⟨last, rest, ends⟩ := ih (n := n + 1) (c := c') (by omega) next stored
    exact ⟨last, (iterate_of_inl ran _).trans rest, ends⟩

/-! ### The tables -/

/-- Memory with the entries of the upper two tables. -/
def linked (i : Image) (m : Memory) : Memory :=
  write (write m i.p4_table 4 (i.p3_table ||| 0b11)) i.p3_table 4 (i.p2_table ||| 0b11)

/-- Memory after both parts of the code. -/
def booted (i : Image) (m : Memory) : Memory :=
  write (filled i.p2_table (linked i m) 512) (i.p4_table + 511 * 8) 4 (i.p4_table ||| 0b11)

theorem boot_run (i : Image) (c : Cpu) : ∃ c', set_up_page_tables i 512 c = some c' ∧
    (enable_paging i c').mem = booted i c.mem ∧ (enable_paging i c').cr3 = i.p4_table ||| 0b11 := by
  obtain ⟨p4, p3, p2⟩ := i.low
  have aligned := i.aligned.1
  obtain ⟨c₀, isStart⟩ : ∃ c₀ : Cpu, c₀ = { c with eax := i.p2_table ||| 0b11, ecx := 0, mem := linked i c.mem } := ⟨_, rfl⟩
  obtain ⟨c', ran, filled⟩ := map_p2_loop (i := i) (m := linked i c.mem) (c := c₀) 511 (n := 0) rfl (by rw [isStart])
    (by rw [isStart]; rfl)
  refine ⟨c', ?_, ?_, rfl⟩
  · rw [isStart] at ran
    rw [← ran]
    simp only [set_up_page_tables, mov_eax, or_eax, store_eax, Nat.mod_eq_of_lt p4, Nat.mod_eq_of_lt p3]
    rfl
  · have slot : (i.p4_table + 511 * 8) % 2 ^ 32 = i.p4_table + 511 * 8 := Nat.mod_eq_of_lt (by omega)
    rw [booted, ← filled]
    simp only [enable_paging, mov_eax, or_eax, store_eax, wrmsr, rdmsr, slot]

/-- Pages do not overlap. -/
theorem Image.apart (i : Image) : (i.p4_table + 4096 ≤ i.p3_table ∨ i.p3_table + 4096 ≤ i.p4_table) ∧
    (i.p4_table + 4096 ≤ i.p2_table ∨ i.p2_table + 4096 ≤ i.p4_table) ∧
    (i.p3_table + 4096 ≤ i.p2_table ∨ i.p2_table + 4096 ≤ i.p3_table) := by
  have aligned := i.aligned
  have distinct := i.distinct
  omega

/-- A 32-bit store to a cleared entry. -/
theorem read_stored {a v : ℕ} (fits : v < 2 ^ 32) (zero : ∀ b, a ≤ b → b < a + 8 → m b = 0) :
    read (write m a 4 v) a 8 = v := by
  have high : read (write m a 4 v) (a + 4) 4 = 0 := by
    rw [read_write_apart _ _ (by omega)]
    exact read_zero _ _ fun b above below => zero b (by omega) (by omega)
  rw [read_add _ 4 4, read_write _ _ _ _ fits, high]
  rfl

/-- One to the first entry of a cleared table. -/
theorem read_first {table v : ℕ} (fits : v < 2 ^ 32) (zero : ∀ b, table ≤ b → b < table + 4096 → m b = 0) (j : Index) :
    read (write m table 4 v) (table + 8 * (j : ℕ)) 8 = if j = 0 then v else 0 := by
  have inside := j.isLt
  by_cases first : j = 0
  · rw [if_pos first, first]
    exact read_stored fits fun b above below => zero b above (by omega)
  · have notFirst : (j : ℕ) ≠ 0 := fun same => first (Fin.ext same)
    rw [if_neg first, read_write_apart _ _ (by omega)]
    exact read_zero _ _ fun b above below => zero b (by omega) (by omega)

theorem table_entry (p : ℕ) (aligned : p % 4096 = 0) (j : Index) : tables m (p / 4096) j = read m (p + 8 * (j : ℕ)) 8 := by
  rw [tables, Nat.div_mul_cancel (Nat.dvd_of_mod_eq_zero aligned)]

theorem link_table (p : ℕ) (aligned : p % 4096 = 0) : link (p / 4096) = p ||| 0b11 := by
  rw [link, Nat.div_mul_cancel (Nat.dvd_of_mod_eq_zero aligned)]
  rfl

theorem or_lt {p : ℕ} (low : p < 2 ^ 32) : p ||| 0b11 < 2 ^ 32 := Nat.or_lt_two_pow low (by decide)

section
variable (cleared : Cleared i m)
include cleared

theorem booted_p4 (j : Index) : tables (booted i m) (i.p4_table / 4096) j =
    if j = 511 then link (i.p4_table / 4096) else if j = 0 then link (i.p3_table / 4096) else 0 := by
  obtain ⟨apart₃, apart₂, -⟩ := i.apart
  obtain ⟨low₄, low₃, -⟩ := i.low
  have inside := j.isLt
  have zero : ∀ b, i.p4_table ≤ b → b < i.p4_table + 4096 → m b = 0 := cleared _ (by simp)
  have upper : ∀ b, i.p4_table ≤ b → b < i.p4_table + 4096 →
      filled i.p2_table (linked i m) 512 b = write m i.p4_table 4 (i.p3_table ||| 0b11) b := by
    intro b above below
    rw [filled_outside _ _ (by omega), linked, write_outside _ _ _ _ (by omega)]
  rw [table_entry _ i.aligned.1]
  by_cases last : j = 511
  · rw [if_pos last, link_table _ i.aligned.1, booted, last]
    refine read_stored (or_lt low₄) fun b above below => ?_
    change i.p4_table + 8 * 511 ≤ b at above
    change b < i.p4_table + 8 * 511 + 8 at below
    rw [upper b (by omega) (by omega), write_outside _ _ _ _ (by omega)]
    exact zero b (by omega) (by omega)
  · have notLast : (j : ℕ) ≠ 511 := fun same => last (Fin.ext same)
    rw [if_neg last, booted, read_write_apart _ _ (by omega), read_congr 8 _ fun b above below => upper b (by omega) (by omega),
      link_table _ i.aligned.2.1]
    exact read_first (or_lt low₃) zero j

theorem booted_p3 (j : Index) :
    tables (booted i m) (i.p3_table / 4096) j = if j = 0 then link (i.p2_table / 4096) else 0 := by
  obtain ⟨apart₄, -, apart₂⟩ := i.apart
  obtain ⟨-, -, low₂⟩ := i.low
  have inside := j.isLt
  have zero : ∀ b, i.p3_table ≤ b → b < i.p3_table + 4096 → write m i.p4_table 4 (i.p3_table ||| 0b11) b = 0 := by
    intro b above below
    rw [write_outside _ _ _ _ (by omega)]
    exact cleared i.p3_table (by simp) b above below
  rw [table_entry _ i.aligned.2.1, booted, read_write_apart _ _ (by omega),
    read_congr 8 _ fun b above below => filled_outside _ _ (by omega), linked, link_table _ i.aligned.2.2]
  exact read_first (or_lt low₂) zero j

theorem booted_p2 (j : Index) : tables (booted i m) (i.p2_table / 4096) j = large_entry j := by
  obtain ⟨-, apart₄, apart₃⟩ := i.apart
  have inside := j.isLt
  have zero : ∀ b, i.p2_table ≤ b → b < i.p2_table + 4096 → linked i m b = 0 := by
    intro b above below
    rw [linked, write_outside _ _ _ _ (by omega), write_outside _ _ _ _ (by omega)]
    exact cleared i.p2_table (by simp) b above below
  rw [table_entry _ i.aligned.2.2, booted, read_write_apart _ _ (by omega)]
  exact filled_entry zero (le_refl 512) inside

theorem booted_tables : BootTables (tables (booted i m)) (i.p4_table / 4096) (i.p3_table / 4096) (i.p2_table / 4096) := by
  have aligned := i.aligned
  have distinct := i.distinct
  have low := i.low
  exact ⟨booted_p4 cleared, booted_p3 cleared, booted_p2 cleared, by omega, by omega⟩

end
end
/-! ### Walks -/

theorem large_entry_eq (j : ℕ) : large_entry j = 512 * j * 4096 ||| 0x83 := by
  rw [large_entry, show 0x200000 * j = 512 * j * 4096 by omega]

theorem writeable_next {mem : Tables} {t u : ℕ} {i : Index} {ρ : List Index} (bit : mem t i &&& writeable_bit ≠ 0)
    (table : next (mem t i) = some u) : writeable mem t (i :: ρ) = writeable mem u ρ := by
  obtain ⟨-, notHuge, rfl⟩ := next_eq_some.mp table
  simp [writeable, bit, notHuge]

theorem link_writeable (f : ℕ) : link f &&& writeable_bit ≠ 0 :=
  (and_bit _ 1).mpr (testBit_or_low f _ (by decide))

section
variable {mem : Tables} {p4 p3 p2 vaddr : ℕ} (boot : BootTables mem p4 p3 p2)
include boot

/-- An address below 1 GiB ends in the entry of its 2 MiB page. -/
theorem boot_low (low : vaddr < 2 ^ 30) : ∃ flags, walk mem p4 (indices vaddr) = some (vaddr / 4096, flags) ∧
    writeable mem p4 (indices vaddr) = true := by
  obtain ⟨k, isK⟩ : ∃ k : Index, k.val = vaddr / 2 ^ 21 := ⟨⟨vaddr / 2 ^ 21, by omega⟩, rfl⟩
  obtain ⟨l, isL⟩ : ∃ l : Index, l.val = vaddr / 2 ^ 12 % 512 := ⟨⟨vaddr / 2 ^ 12 % 512, Nat.mod_lt _ (by decide)⟩, rfl⟩
  have path : indices vaddr = [0, 0, k, l] :=
    indices_eq (show _ = 0 by omega) (show _ = 0 by omega) (by omega) (by omega)
  have upper : next (mem p4 0) = some p3 := by rw [boot.next_p4 (by decide), if_pos rfl]
  have middle : next (mem p3 0) = some p2 := by rw [boot.next_p3, if_pos rfl]
  have entry : mem p2 k = 512 * k * 4096 ||| 0x83 := (boot.p2_entry k).trans (large_entry_eq k)
  have isPresent : present (mem p2 k) = true := by rw [entry, present_or]; decide
  have isHuge : huge (mem p2 k) = true := boot.huge_p2 k
  have frame : address (mem p2 k) = 512 * k := by
    rw [entry]
    exact address_or (by omega) (by decide)
  refine ⟨attributes (mem p2 k), ?_, ?_⟩
  · rw [path, walk_next (by simp) upper, walk_next (by simp) middle]
    have same : k.val * 512 + l.val = vaddr / 4096 := by omega
    simp [walk, isPresent, isHuge, leaf, number, frame, same]
  · have linked₄ : mem p4 0 &&& writeable_bit ≠ 0 := by
      rw [boot.p4_entry, if_neg (by decide), if_pos rfl]
      exact link_writeable p3
    have linked₃ : mem p3 0 &&& writeable_bit ≠ 0 := by
      rw [boot.p3_entry, if_pos rfl]
      exact link_writeable p2
    have bit : mem p2 k &&& writeable_bit ≠ 0 := by
      rw [entry]
      exact (and_bit _ 1).mpr (testBit_or_low _ _ (by decide))
    rw [path, writeable_next linked₄ upper, writeable_next linked₃ middle]
    simp [writeable, bit, isHuge]

/-- The other addresses outside slot 511 end in an absent entry of level 4 or 3. -/
theorem boot_high (high : 2 ^ 30 ≤ vaddr) (outside : vaddr / 2 ^ 39 % 512 ≠ 511) : resolve mem p4 vaddr = none := by
  by_cases canonical : Canonical vaddr
  · obtain ⟨a, isA⟩ : ∃ a : Index, a.val = vaddr / 2 ^ 39 % 512 := ⟨⟨vaddr / 2 ^ 39 % 512, Nat.mod_lt _ (by decide)⟩, rfl⟩
    obtain ⟨b, isB⟩ : ∃ b : Index, b.val = vaddr / 2 ^ 30 % 512 := ⟨⟨vaddr / 2 ^ 30 % 512, Nat.mod_lt _ (by decide)⟩, rfl⟩
    have path : indices vaddr = [a, b, Fin.ofNat 512 (vaddr / 2 ^ 21), Fin.ofNat 512 (vaddr / 2 ^ 12)] :=
      indices_eq isA.symm isB.symm rfl rfl
    have notLast : a ≠ 511 := fun same => outside (isA.symm.trans (congrArg Fin.val same))
    have none : walk mem p4 (indices vaddr) = none := by
      rw [path]
      by_cases first : a = 0
      · have notFirst : b ≠ 0 := by
          intro same
          have left : vaddr / 2 ^ 39 % 512 = 0 := isA.symm.trans (congrArg Fin.val first)
          have right : vaddr / 2 ^ 30 % 512 = 0 := isB.symm.trans (congrArg Fin.val same)
          unfold Canonical at canonical
          omega
        have upper : next (mem p4 0) = some p3 := by rw [boot.next_p4 (by decide), if_pos rfl]
        rw [first, walk_next (by simp) upper]
        refine walk_absent ?_
        rw [boot.p3_entry, if_neg notFirst]
        rfl
      · refine walk_absent ?_
        rw [boot.p4_entry, if_neg notLast, if_neg first]
        rfl
    rw [resolve, if_pos canonical, none]
    rfl
  · rw [resolve, if_neg canonical]

end

/-- From cleared tables the boot code sets up a hierarchy whose root is the level 4 table, in `cr3` and in slot
    511: below 1 GiB every walk is present, allows writes and gives the same address, and elsewhere outside the slot
    there is none. -/
theorem boot_maps_first_gib (i : Image) (c : Cpu) (cleared : Cleared i c.mem) :
    ∃ c₁ c₂ : Cpu, set_up_page_tables i 512 c = some c₁ ∧ enable_paging i c₁ = c₂ ∧ address c₂.cr3 = i.p4_table / 4096 ∧
      (∀ vaddr < 2 ^ 30, resolve (tables c₂.mem) (address c₂.cr3) vaddr = some (vaddr / 4096, vaddr % 4096) ∧
        writeable (tables c₂.mem) (address c₂.cr3) (indices vaddr) = true) ∧
      (∀ vaddr, 2 ^ 30 ≤ vaddr → vaddr / 2 ^ 39 % 512 ≠ 511 → resolve (tables c₂.mem) (address c₂.cr3) vaddr = none) ∧
      next (tables c₂.mem (address c₂.cr3) 511) = some (address c₂.cr3) := by
  obtain ⟨c₁, ran, mem, cr3⟩ := boot_run i c
  have boot := booted_tables cleared
  have root : address (i.p4_table ||| 0b11) = i.p4_table / 4096 := by
    rw [← link_table _ i.aligned.1, link]
    have low := i.low.1
    exact address_or (by omega) (by decide)
  refine ⟨c₁, _, ran, rfl, ?_⟩
  rw [mem, cr3, root]
  refine ⟨rfl, fun vaddr low => ?_, fun vaddr high outside => boot_high boot high outside, boot.slot⟩
  obtain ⟨flags, walked, writes⟩ := boot_low boot low
  have canonical : Canonical vaddr := .inl (by omega)
  rw [resolve, if_pos canonical, walked]
  exact ⟨rfl, writes⟩

/-- Tables behind each other from 0x101000 on, in memory of zeros. -/
def small_image : Image where
  p4_table := 0x101000
  p3_table := 0x102000
  p2_table := 0x103000
  aligned := by decide
  distinct := by decide
  low := by decide

def zeroed : Cpu := ⟨0, 0, 0, 0, 0, 0, fun _ => 0, fun _ => 0⟩

theorem boot_maps_first_gib_zeroed :
    ∃ c₁ c₂ : Cpu, set_up_page_tables small_image 512 zeroed = some c₁ ∧ enable_paging small_image c₁ = c₂ ∧
      address c₂.cr3 = small_image.p4_table / 4096 ∧
      (∀ vaddr < 2 ^ 30, resolve (tables c₂.mem) (address c₂.cr3) vaddr = some (vaddr / 4096, vaddr % 4096) ∧
        writeable (tables c₂.mem) (address c₂.cr3) (indices vaddr) = true) ∧
      (∀ vaddr, 2 ^ 30 ≤ vaddr → vaddr / 2 ^ 39 % 512 ≠ 511 → resolve (tables c₂.mem) (address c₂.cr3) vaddr = none) ∧
      next (tables c₂.mem (address c₂.cr3) 511) = some (address c₂.cr3) :=
  boot_maps_first_gib small_image zeroed fun _ _ _ _ _ => rfl

end OsC.BootCode
