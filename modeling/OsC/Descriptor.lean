import OsC.Idt

/-!
The C view of the interrupt descriptor table. Its structure has 20 bytes, four
more than a gate, and the address that it decodes has the 32 bits of its high
part's type. An address that C stores comes back if it is below 2^32
(`handler_address_iff`); one that the boot code stores comes back only where
other bytes happen to spell it (`gate_decodes_iff`).
-/
namespace OsC.Descriptor
open OsC.Bytes OsC.Idt

/-- The fields of the packed structure. -/
structure interrupt_description_table_entry where
  low_offset : UInt16
  segement_selector : UInt32
  flags : UInt32
  mid_offset : UInt16
  high_offset : UInt32
  reserved : UInt32
  deriving DecidableEq, Repr

def entry_at (m : Memory) (table : ℕ) : interrupt_description_table_entry where
  low_offset := UInt16.ofNat (read m table 2)
  segement_selector := UInt32.ofNat (read m (table + 2) 4)
  flags := UInt32.ofNat (read m (table + 6) 4)
  mid_offset := UInt16.ofNat (read m (table + 10) 2)
  high_offset := UInt32.ofNat (read m (table + 12) 4)
  reserved := UInt32.ofNat (read m (table + 16) 4)

/-- What `x << 32` gives for 32 bits, which C leaves open. The instruction takes the count modulo 32, and a compiler that
    folds the shift gives 0; both give 0 for 0. -/
structure Compiler where
  shl_32 : UInt32 → UInt32
  shl_32_zero : shl_32 0 = 0

def masked : Compiler := ⟨id, rfl⟩

def folded : Compiler := ⟨fun _ => 0, rfl⟩

/-- A `uint16_t` becomes an `int` before it is shifted, whose bits then move into the sign. -/
def promoted (x : UInt16) : Int32 := x.toUInt32.toInt32

/-- The `int` of the first two fields becomes unsigned with the third, whose type has 32 bits. -/
def get_handler_address (compiler : Compiler) (table : interrupt_description_table_entry) : UInt64 :=
  ((promoted table.low_offset ||| promoted table.mid_offset <<< 16).toUInt32 ||| compiler.shl_32 table.high_offset).toUInt64

def set_handler_address (table : ℕ) (addr : UInt64) (m : Memory) : Memory :=
  let low_addr := (addr &&& 0xffff).toUInt16
  let mid_addr := ((addr >>> 16) &&& 0xffff).toUInt16
  let high_addr := (addr >>> 32).toUInt32
  let m := write m table 2 low_addr.toNat
  let m := write m (table + 10) 2 mid_addr.toNat
  write m (table + 12) 4 high_addr.toNat

/-- `idt`, and memory. -/
structure State where
  idt : ℕ
  mem : Memory

def set_idt (addr : ℕ) (s : State) : State := { s with idt := addr }

/-- `idt->entries[v]`. -/
def State.entries (s : State) (v : ℕ) : interrupt_description_table_entry := entry_at s.mem (s.idt + v * 20)

/-- The address that is stored comes back, and no byte but those of the three offsets changes. -/
structure Stores (compiler : Compiler) (m : Memory) (table : ℕ) (addr : UInt64) : Prop where
  address : get_handler_address compiler (entry_at (set_handler_address table addr m) table) = addr
  others : ∃ low mid high, entry_at (set_handler_address table addr m) table =
    { entry_at m table with low_offset := low, mid_offset := mid, high_offset := high }
  outside : ∀ b, b < table ∨ table + 20 ≤ b → set_handler_address table addr m b = m b

/-- The entry of a vector is a gate to the address, with the selector of the kernel's code. -/
structure Decodes (compiler : Compiler) (s : State) (v addr : ℕ) : Prop where
  address : (get_handler_address compiler (s.entries v)).toNat = addr
  selector : (s.entries v).segement_selector = 8

/-- The bytes from `a` on, read as an entry, give the address and the selector of the kernel's code. -/
def Spells (compiler : Compiler) (m : Memory) (a addr : ℕ) : Prop :=
  (2 ^ 16 * read m (a + 10) 2 + read m a 2) ||| (compiler.shl_32 (UInt32.ofNat (read m (a + 12) 4))).toNat = addr ∧
    read m (a + 2) 4 = 8

/-- What else makes an entry decode: the second gate's own attributes and reserved bytes with the beginning of the third
    gate, or 20 bytes of which none belongs to the gate. -/
def ByChance (compiler : Compiler) (m : Memory) (table v addr : ℕ) : Prop :=
  v = 1 ∧ addr / 2 ^ 16 = 8 ∧ 0x8e00 ||| (compiler.shl_32 (UInt32.ofNat (read m (table + 32) 4))).toNat = addr ∨
    4 ≤ v ∧ Spells compiler m (table + v * 20) addr

/-! ### The fields -/

section
variable {compiler : Compiler} {m m' : Memory} {table v : ℕ} {e : interrupt_description_table_entry}

theorem promoted_or (low mid : UInt16) : (promoted low ||| promoted mid <<< 16).toUInt32 = low.toUInt32 ||| mid.toUInt32 <<< 16 :=
  rfl

theorem halves_toNat (low mid : UInt16) : (low.toUInt32 ||| mid.toUInt32 <<< 16).toNat = 2 ^ 16 * mid.toNat + low.toNat := by
  have small := low.toNat_lt
  have narrow := mid.toNat_lt
  have count : (16 : UInt32).toNat % 32 = 16 := rfl
  have shifted : mid.toNat <<< 16 % 2 ^ 32 = 2 ^ 16 * mid.toNat := by
    rw [Nat.shiftLeft_eq]
    omega
  rw [UInt32.toNat_or, UInt32.toNat_shiftLeft, UInt16.toNat_toUInt32, UInt16.toNat_toUInt32, count, shifted, Nat.or_comm]
  exact (Nat.two_pow_add_eq_or_of_lt small _).symm

theorem get_handler_address_toNat (compiler : Compiler) (e : interrupt_description_table_entry) :
    (get_handler_address compiler e).toNat =
      (2 ^ 16 * e.mid_offset.toNat + e.low_offset.toNat) ||| (compiler.shl_32 e.high_offset).toNat := by
  rw [get_handler_address, promoted_or, UInt32.toNat_toUInt64, UInt32.toNat_or, halves_toNat]

/-- The decoded address has 32 bits. -/
theorem get_handler_address_lt (compiler : Compiler) (e : interrupt_description_table_entry) :
    (get_handler_address compiler e).toNat < 2 ^ 32 := by
  rw [get_handler_address, UInt32.toNat_toUInt64]
  exact UInt32.toNat_lt _

theorem entry_at_low (m : Memory) (table : ℕ) : (entry_at m table).low_offset.toNat = read m table 2 :=
  UInt16.toNat_ofNat_of_lt (read_lt m 2 table)

theorem entry_at_mid (m : Memory) (table : ℕ) : (entry_at m table).mid_offset.toNat = read m (table + 10) 2 :=
  UInt16.toNat_ofNat_of_lt (read_lt m 2 _)

theorem entry_at_selector (m : Memory) (table : ℕ) : (entry_at m table).segement_selector.toNat = read m (table + 2) 4 :=
  UInt32.toNat_ofNat_of_lt (read_lt m 4 _)

theorem entry_at_congr (same : ∀ b, table ≤ b → b < table + 20 → m' b = m b) : entry_at m' table = entry_at m table := by
  have reads : ∀ k n, k + n ≤ 20 → read m' (table + k) n = read m (table + k) n := fun k n le =>
    read_congr n (table + k) fun b low high => same b (by omega) (by omega)
  have first : read m' table 2 = read m table 2 := reads 0 2 (by decide)
  simp only [entry_at, first, reads 2 4 (by decide), reads 6 4 (by decide), reads 10 2 (by decide), reads 12 4 (by decide),
    reads 16 4 (by decide)]

/-! ### Addresses that C stores -/

theorem entry_at_stored (m : Memory) (table : ℕ) (low mid : UInt16) (high : UInt32) :
    entry_at (write (write (write m table 2 low.toNat) (table + 10) 2 mid.toNat) (table + 12) 4 high.toNat) table =
      { entry_at m table with low_offset := low, mid_offset := mid, high_offset := high } := by
  have small : low.toNat < 256 ^ 2 := low.toNat_lt
  have narrow : mid.toNat < 256 ^ 2 := mid.toNat_lt
  have wide : high.toNat < 256 ^ 4 := high.toNat_lt
  obtain ⟨m₁, isFirst⟩ : ∃ m₁, m₁ = write m table 2 low.toNat := ⟨_, rfl⟩
  obtain ⟨m₂, isSecond⟩ : ∃ m₂, m₂ = write m₁ (table + 10) 2 mid.toNat := ⟨_, rfl⟩
  obtain ⟨m₃, isThird⟩ : ∃ m₃, m₃ = write m₂ (table + 12) 4 high.toNat := ⟨_, rfl⟩
  have kept : ∀ k n, 2 ≤ k → (k + n ≤ 10 ∨ 16 ≤ k) → read m₃ (table + k) n = read m (table + k) n := by
    intro k n behind apart
    rw [isThird, read_write_apart _ _ (by omega), isSecond, read_write_apart _ _ (by omega), isFirst,
      read_write_apart _ _ (by omega)]
  have isLow : read m₃ table 2 = low.toNat := by
    rw [isThird, read_write_apart _ _ (by omega), isSecond, read_write_apart _ _ (by omega), isFirst, read_write _ _ _ _ small]
  have isMid : read m₃ (table + 10) 2 = mid.toNat := by
    rw [isThird, read_write_apart _ _ (by omega), isSecond, read_write _ _ _ _ narrow]
  have isHigh : read m₃ (table + 12) 4 = high.toNat := by
    rw [isThird, read_write _ _ _ _ wide]
  rw [← isFirst, ← isSecond, ← isThird]
  simp only [entry_at, isLow, isMid, isHigh, kept 2 4 (by decide) (by decide), kept 6 4 (by decide) (by decide),
    kept 16 4 (by decide) (by decide), UInt16.ofNat_toNat, UInt32.ofNat_toNat]

theorem low_half (x : UInt64) : (x &&& 0xffff).toUInt16.toNat = x.toNat % 2 ^ 16 := by
  have mask : (0xffff : UInt64).toNat = 2 ^ 16 - 1 := rfl
  rw [UInt64.toNat_toUInt16, UInt64.toNat_and, mask, Nat.and_two_pow_sub_one_eq_mod, Nat.mod_mod]

theorem shift_half (x : UInt64) : (x >>> 16).toNat = x.toNat / 2 ^ 16 := by
  have count : (16 : UInt64).toNat % 64 = 16 := rfl
  rw [UInt64.toNat_shiftRight, count, Nat.shiftRight_eq_div_pow]

theorem high_half {addr : UInt64} (small : addr.toNat < 2 ^ 32) : (addr >>> 32).toUInt32 = 0 := by
  have count : (32 : UInt64).toNat % 64 = 32 := rfl
  refine UInt32.toNat_inj.mp ?_
  rw [UInt64.toNat_toUInt32, UInt64.toNat_shiftRight, count, Nat.shiftRight_eq_div_pow, Nat.div_eq_of_lt small]
  rfl

theorem set_handler_outside (m : Memory) (table : ℕ) (addr : UInt64) {b : ℕ} (apart : b < table ∨ table + 20 ≤ b) :
    set_handler_address table addr m b = m b := by
  simp only [set_handler_address]
  rw [write_outside _ _ _ _ (by omega), write_outside _ _ _ _ (by omega), write_outside _ _ _ _ (by omega)]

/-- An address comes back exactly if it has 32 bits, whatever the shift of its high part gives. -/
theorem handler_address_iff (compiler : Compiler) (m : Memory) (table : ℕ) (addr : UInt64) :
    Stores compiler m table addr ↔ addr.toNat < 2 ^ 32 := by
  have stored := entry_at_stored m table (addr &&& 0xffff).toUInt16 ((addr >>> 16) &&& 0xffff).toUInt16 (addr >>> 32).toUInt32
  constructor
  · intro stores
    rw [← stores.address]
    exact get_handler_address_lt compiler _
  · intro small
    refine ⟨UInt64.toNat_inj.mp ?_, ⟨_, _, _, stored⟩, fun b apart => set_handler_outside m table addr apart⟩
    rw [set_handler_address, stored, get_handler_address_toNat]
    simp only [low_half, shift_half, high_half small, compiler.shl_32_zero, UInt32.toNat_zero, Nat.or_zero]
    omega

/-! ### Gates that the boot code stores -/

variable {addr : ℕ}

theorem decodes_iff {s : State} : Decodes compiler s v addr ↔ Spells compiler s.mem (s.idt + v * 20) addr := by
  have address := get_handler_address_toNat compiler (s.entries v)
  have selector : (s.entries v).segement_selector.toNat = read s.mem (s.idt + v * 20 + 2) 4 := entry_at_selector _ _
  rw [State.entries, entry_at_mid, entry_at_low] at address
  constructor
  · intro decodes
    refine ⟨address.symm.trans decodes.address, ?_⟩
    rw [← selector, decodes.selector]
    rfl
  · rintro ⟨same, eight⟩
    exact ⟨address.trans same, UInt32.toNat_inj.mp (selector.trans eight)⟩

/-- A selector of 32 bits takes in the attributes of the first gate. -/
theorem first_gate : ¬ Decodes compiler ⟨table, with_gate m table addr⟩ 0 addr := by
  obtain ⟨-, selector, attributes, -⟩ := with_gate_reads m table addr
  intro decodes
  have eight := (decodes_iff.mp decodes).2
  dsimp only at eight
  rw [Nat.zero_mul, Nat.add_zero, read_add _ 2 2, selector, attributes] at eight
  omega

/-- The high part of a gate's address and its reserved bytes, by halves. -/
theorem with_gate_halves (m : Memory) (a offset : ℕ) : read (with_gate m a offset) (a + 8) 2 = offset / 2 ^ 32 % 2 ^ 16 ∧
    read (with_gate m a offset) (a + 10) 2 = offset / 2 ^ 48 % 2 ^ 16 ∧ read (with_gate m a offset) (a + 12) 2 = 0 ∧
    read (with_gate m a offset) (a + 14) 2 = 0 := by
  obtain ⟨-, -, -, -, high, reserved⟩ := with_gate_reads m a offset
  rw [read_add _ 2 2] at high reserved
  have low := read_lt (with_gate m a offset) 2 (a + 8)
  change read (with_gate m a offset) (a + 8) 2 + 256 ^ 2 * read (with_gate m a offset) (a + 10) 2 = _ at high
  change read (with_gate m a offset) (a + 12) 2 + 256 ^ 2 * read (with_gate m a offset) (a + 14) 2 = 0 at reserved
  have bound := read_lt (with_gate m a offset) 2 (a + 10)
  omega

/-- The second entry begins at the attributes of its gate, and ends in the third gate. -/
theorem second_gate : Decodes compiler ⟨table, with_gate m (table + 16) addr⟩ 1 addr ↔
    addr / 2 ^ 16 = 8 ∧ 0x8e00 ||| (compiler.shl_32 (UInt32.ofNat (read m (table + 32) 4))).toNat = addr := by
  obtain ⟨m', isM'⟩ : ∃ m', m' = with_gate m (table + 16) addr := ⟨_, rfl⟩
  obtain ⟨-, -, attributes, middle, -, -⟩ := with_gate_reads m (table + 16) addr
  obtain ⟨high, -, -, reserved⟩ := with_gate_halves m (table + 16) addr
  have behind : read (with_gate m (table + 16) addr) (table + 32) 4 = read m (table + 32) 4 :=
    read_congr 4 _ fun b above _ => with_gate_outside _ _ _ (.inr above)
  rw [← isM'] at attributes middle high reserved behind ⊢
  have lowField : read m' (table + 20) 2 = 0x8e00 := attributes
  have midField : read m' (table + 30) 2 = 0 := reserved
  have selector : read m' (table + 22) 4 = addr / 2 ^ 16 % 2 ^ 16 + 2 ^ 16 * (addr / 2 ^ 32 % 2 ^ 16) := by
    rw [read_add _ 2 2]
    exact congrArg₂ (fun x y => x + 2 ^ 16 * y) middle high
  have small := get_handler_address_lt compiler ((State.mk table m').entries 1)
  have spelled : Decodes compiler ⟨table, m'⟩ 1 addr ↔ (2 ^ 16 * read m' (table + 30) 2 + read m' (table + 20) 2) |||
      (compiler.shl_32 (UInt32.ofNat (read m' (table + 32) 4))).toNat = addr ∧ read m' (table + 22) 4 = 8 := decodes_iff
  rw [midField, lowField, behind, selector, Nat.mul_zero, Nat.zero_add] at spelled
  constructor
  · intro decodes
    obtain ⟨same, eight⟩ := spelled.mp decodes
    rw [decodes.address] at small
    exact ⟨by omega, same⟩
  · rintro ⟨eight, same⟩
    exact spelled.mpr ⟨same, by omega⟩

/-- The selector of the third entry is the top of its gate's address. -/
theorem third_gate : ¬ Decodes compiler ⟨table, with_gate m (table + 32) addr⟩ 2 addr := by
  obtain ⟨-, top, reserved, -⟩ := with_gate_halves m (table + 32) addr
  intro decodes
  have small := get_handler_address_lt compiler ((State.mk table (with_gate m (table + 32) addr)).entries 2)
  rw [decodes.address] at small
  have eight : read (with_gate m (table + 32) addr) (table + 42) 4 = 8 := (decodes_iff.mp decodes).2
  rw [read_add _ 2 2] at eight
  change read _ (table + 32 + 10) 2 + 256 ^ 2 * read _ (table + 32 + 12) 2 = 8 at eight
  omega

/-- The selector of the fourth entry begins with the end of its gate, which is zero. -/
theorem fourth_gate : ¬ Decodes compiler ⟨table, with_gate m (table + 48) addr⟩ 3 addr := by
  obtain ⟨-, -, -, reserved⟩ := with_gate_halves m (table + 48) addr
  intro decodes
  have eight : read (with_gate m (table + 48) addr) (table + 62) 4 = 8 := (decodes_iff.mp decodes).2
  rw [read_add _ 2 2] at eight
  change read _ (table + 48 + 14) 2 + 256 ^ 2 * read _ (table + 64) 2 = 8 at eight
  omega

/-- The other entries lie behind their gates. -/
theorem later_gate (late : 4 ≤ v) : Decodes compiler ⟨table, with_gate m (table + 16 * v) addr⟩ v addr ↔
    Spells compiler m (table + v * 20) addr := by
  have same : (State.mk table (with_gate m (table + 16 * v) addr)).entries v = (State.mk table m).entries v :=
    entry_at_congr fun b above _ => with_gate_outside _ _ _ (.inr (by dsimp only at above; omega))
  have before : Decodes compiler ⟨table, m⟩ v addr ↔ Spells compiler m (table + v * 20) addr := decodes_iff
  rw [← before]
  constructor
  · rintro ⟨address, selector⟩
    rw [same] at address selector
    exact ⟨address, selector⟩
  · rintro ⟨address, selector⟩
    rw [← same] at address selector
    exact ⟨address, selector⟩

theorem gate_decodes : Decodes compiler ⟨table, with_gate m (table + 16 * v) addr⟩ v addr ↔ ByChance compiler m table v addr := by
  obtain rfl | rfl | rfl | rfl | late : v = 0 ∨ v = 1 ∨ v = 2 ∨ v = 3 ∨ 4 ≤ v := by omega
  · exact iff_of_false first_gate (by simp [ByChance])
  · refine second_gate.trans ?_
    simp [ByChance]
  · exact iff_of_false third_gate (by simp [ByChance])
  · exact iff_of_false fourth_gate (by simp [ByChance])
  · refine (later_gate late).trans ?_
    have other : v ≠ 1 := by omega
    simp [ByChance, other, late]

/-- Zeros spell nothing. -/
theorem not_by_chance (compiler : Compiler) (table v addr : ℕ) : ¬ ByChance compiler (fun _ => 0) table v addr := by
  have zero : ∀ a n, read (fun _ => 0) a n = 0 := fun a n => read_zero n a fun _ _ _ => rfl
  have none : UInt32.ofNat 0 = 0 := rfl
  rintro (⟨-, high, same⟩ | ⟨-, -, eight⟩)
  · rw [zero, none, compiler.shl_32_zero, UInt32.toNat_zero, Nat.or_zero] at same
    omega
  · rw [zero] at eight
    cases eight

/-- For no vector and address does the entry decode for every content of the other gates; in a given memory it does so
    exactly where other bytes spell it. -/
theorem gate_decodes_iff (compiler : Compiler) (i : Image) {v : ℕ} (small : v < 256) (addr : ℕ) :
    (∀ (c : Cpu) (idt : ℕ), c.rbx = v → c.rax = addr →
      (Decodes compiler (set_idt i.interrupt_vectors ⟨idt, (create_interrupt i c).mem⟩) v addr ↔
        ByChance compiler c.mem i.interrupt_vectors v addr)) ∧
    ¬ ∀ (c : Cpu) (idt : ℕ), c.rbx = v → c.rax = addr →
      Decodes compiler (set_idt i.interrupt_vectors ⟨idt, (create_interrupt i c).mem⟩) v addr := by
  have each : ∀ (c : Cpu) (idt : ℕ), c.rbx = v → c.rax = addr →
      (Decodes compiler (set_idt i.interrupt_vectors ⟨idt, (create_interrupt i c).mem⟩) v addr ↔
        ByChance compiler c.mem i.interrupt_vectors v addr) := by
    intro c idt vector address
    have mem := (create_interrupt_mem (i := i) vector small).1
    rw [address] at mem
    rw [mem]
    exact gate_decodes
  refine ⟨each, fun all => ?_⟩
  exact not_by_chance compiler i.interrupt_vectors v addr
    ((each ⟨addr, v, 0, (0, 0), fun _ => 0⟩ 0 rfl rfl).mp (all ⟨addr, v, 0, (0, 0), fun _ => 0⟩ 0 rfl rfl))

end

/-- The high part of the address is joined to the low part, or lost. -/
theorem wide_address_lost :
    get_handler_address masked (entry_at (set_handler_address 0x9100 0x120000340056 fun _ => 0) 0x9100) = 0x341256 ∧
    get_handler_address folded (entry_at (set_handler_address 0x9100 0x120000340056 fun _ => 0) 0x9100) = 0x340056 ∧
    ∀ compiler, ¬ Stores compiler (fun _ => 0) 0x9100 0x120000340056 := by
  refine ⟨by decide +kernel, by decide +kernel, fun compiler stores => ?_⟩
  have small := get_handler_address_lt compiler (entry_at (set_handler_address 0x9100 0x120000340056 fun _ => 0) 0x9100)
  rw [stores.address] at small
  exact absurd small (by decide)

theorem gate_decodes_iff_timer : (∀ (c : Cpu) (idt : ℕ), c.rbx = 0x20 → c.rax = 0x102840 →
      (Decodes masked (set_idt linked.interrupt_vectors ⟨idt, (create_interrupt linked c).mem⟩) 0x20 0x102840 ↔
        ByChance masked c.mem linked.interrupt_vectors 0x20 0x102840)) ∧
    ¬ ∀ (c : Cpu) (idt : ℕ), c.rbx = 0x20 → c.rax = 0x102840 →
      Decodes masked (set_idt linked.interrupt_vectors ⟨idt, (create_interrupt linked c).mem⟩) 0x20 0x102840 :=
  gate_decodes_iff masked linked (by decide) 0x102840

/-- The processor before the gate of vector 0 is stored, with memory of zeros. -/
def before_gate : Cpu := ⟨0x102040, 0, 0, (0, 0), fun _ => 0⟩

/-- The selector of the first entry is 0x8e000008. -/
theorem first_selector_wide :
    ((set_idt linked.interrupt_vectors ⟨0, (create_interrupt linked before_gate).mem⟩).entries 0).segement_selector = 0x8e000008 ∧
    ∀ compiler, ¬ Decodes compiler (set_idt linked.interrupt_vectors ⟨0, (create_interrupt linked before_gate).mem⟩) 0 0x102040 := by
  have selector : ((set_idt linked.interrupt_vectors ⟨0, (create_interrupt linked before_gate).mem⟩).entries
      0).segement_selector = 0x8e000008 := by decide +kernel
  refine ⟨selector, fun compiler decodes => ?_⟩
  exact absurd (selector.symm.trans decodes.selector) (by decide)

end OsC.Descriptor
