import OsC.Bytes
import OsC.Word
import OsC.Loop
import Mathlib.Data.List.Induction

/-!
The interrupt descriptor table and the table of interrupt functions, which the
boot code fills in one loop. The processor reads from the gate of each vector
the address of its shim, and the shim calls the function registered last
(`gates_and_functions`).
-/
namespace OsC.Idt
open OsC.Bytes OsC.Word OsC.Loop

/-- The addresses that the linker chose. The tables lie below 2^31, where 32-bit
    relocations reach them, and `.rodata` apart from them. -/
structure Image where
  interrupt_functions : ℕ
  interrupt_shim_addr_base : ℕ
  interrupt_descriptor_table : ℕ
  i_ok : ℕ
  i_ok_timer : ℕ
  low : interrupt_functions + 256 * 8 + 256 * 16 ≤ 2 ^ 31
  shims_apart : interrupt_shim_addr_base + 256 * 8 ≤ interrupt_functions ∨
    interrupt_functions + 256 * 8 + 256 * 16 ≤ interrupt_shim_addr_base
  shims_low : interrupt_shim_addr_base + 256 * 8 ≤ 2 ^ 31
  descriptor_apart : interrupt_descriptor_table + 10 ≤ interrupt_functions ∨
    interrupt_functions + 256 * 8 + 256 * 16 ≤ interrupt_descriptor_table
  i_ok_lt : i_ok < 2 ^ 64
  i_ok_timer_lt : i_ok_timer < 2 ^ 64

/-- The gates follow the functions. -/
def Image.interrupt_vectors (i : Image) : ℕ := i.interrupt_functions + 256 * 8

/-- The registers that the code uses, the base and limit of the IDT, and memory. -/
structure Cpu where
  rax : ℕ
  rbx : ℕ
  rcx : ℕ
  idtr : ℕ × ℕ
  mem : Memory

def Cpu.ax (c : Cpu) : ℕ := c.rax % 2 ^ 16
def Cpu.eax (c : Cpu) : ℕ := c.rax % 2 ^ 32

/-- `mov` of `n` bytes to memory. -/
def store (n a w : ℕ) (c : Cpu) : Cpu := { c with mem := write c.mem a n w }

def shr_rax (k : ℕ) (c : Cpu) : Cpu := { c with rax := c.rax / 2 ^ k }

/-- The interrupt's address is in `rax`, its vector in `rbx`. -/
def create_interrupt (i : Image) (c : Cpu) : Cpu :=
  let c := { c with rbx := wrap (c.rbx * 16) }
  let c := { c with rbx := wrap (c.rbx + i.interrupt_vectors) }
  let c := store 2 c.rbx c.ax c
  let c := store 2 (wrap (c.rbx + 2)) 8 c
  let c := store 2 (wrap (c.rbx + 4)) 0x8e00 c
  let c := shr_rax 16 c
  let c := store 2 (wrap (c.rbx + 6)) c.ax c
  let c := shr_rax 16 c
  let c := store 4 (wrap (c.rbx + 8)) c.eax c
  store 4 (wrap (c.rbx + 12)) 0 c

/-- A turn of `.setup_idt_loop`. -/
def setup_turn (i : Image) (c : Cpu) : Cpu ⊕ Cpu :=
  let c := { c with rax := i.i_ok }
  let c := if c.rcx = 0x20 then { c with rax := i.i_ok_timer } else c
  let c := store 8 (wrap (c.rcx * 8 + i.interrupt_functions)) c.rax c
  let c := { c with rax := read c.mem (wrap (i.interrupt_shim_addr_base + c.rcx * 8)) 8 }
  let c := { c with rbx := c.rcx }
  let c := create_interrupt i c
  let c := { c with rcx := wrap (c.rcx + 1) }
  if c.rcx ≠ 256 then .inl c else .inr c

/-- The limit, then the base. -/
def lidt (a : ℕ) (c : Cpu) : Cpu := { c with idtr := (read c.mem (a + 2) 8, read c.mem a 2) }

def setup_interrupt_handlers (i : Image) (fuel : ℕ) (c : Cpu) : Option Cpu :=
  (iterate (setup_turn i) fuel { c with rcx := 0 }).map (lidt i.interrupt_descriptor_table)

/-- The address of the store has 32 bits. -/
def asm_add_interrupt_handler (i : Image) (edi rsi : ℕ) (m : Memory) : Memory :=
  write m ((i.interrupt_functions + edi * 8) % 2 ^ 32) 8 rsi

/-- `interrupt` is a `uint16_t`. -/
def add_interrupt_handler (i : Image) (interrupt handler : ℕ) (m : Memory) : Memory :=
  asm_add_interrupt_handler i (interrupt % 2 ^ 16) handler m

/-- The function that the shim of a vector calls. -/
def called (i : Image) (m : Memory) (v : ℕ) : ℕ := read m (i.interrupt_functions + v * 8) 8

/-! ### What the processor reads -/

structure Gate where
  offset : ℕ
  selector : ℕ
  /-- Bytes 4 and 5: the stack index, type, privilege and presence. -/
  attributes : ℕ
  deriving DecidableEq, Repr

/-- The gate of a vector, if it lies within the limit. -/
def gate (idtr : ℕ × ℕ) (m : Memory) (v : ℕ) : Option Gate :=
  let a := idtr.1 + 16 * v
  if 16 * v + 15 ≤ idtr.2 then
    some ⟨read m a 2 + 2 ^ 16 * read m (a + 6) 2 + 2 ^ 32 * read m (a + 8) 4, read m (a + 2) 2, read m (a + 4) 2⟩
  else none

/-- A present interrupt gate of privilege 0, on the current stack, in segment 8. -/
def interrupt_gate (offset : ℕ) : Gate := ⟨offset, 8, 0x8e00⟩

/-- `.rodata` as it was linked, with the addresses of the shims. -/
structure Loaded (i : Image) (shims : ℕ → ℕ) (m : Memory) : Prop where
  shim : ∀ v < 256, read m (i.interrupt_shim_addr_base + v * 8) 8 = shims v
  limit : read m i.interrupt_descriptor_table 2 = 16 * 256 - 1
  base : read m (i.interrupt_descriptor_table + 2) 8 = i.interrupt_vectors

/-- The function of a vector before any registration. -/
def boot_default (i : Image) (v : ℕ) : ℕ := if v = 0x20 then i.i_ok_timer else i.i_ok

/-- The registrations in order. -/
def register (i : Image) (calls : List (ℕ × ℕ)) (m : Memory) : Memory :=
  calls.foldl (fun m c => add_interrupt_handler i c.1 c.2 m) m

/-- The handler registered last for a vector. -/
def last_registered (v : ℕ) (calls : List (ℕ × ℕ)) : Option ℕ := ((calls.filter (·.1 = v)).getLast?).map (·.2)

/-! ### One gate -/

section
variable {i : Image} {c : Cpu} {m : Memory} {v : ℕ}

/-- The memory after the stores of `create_interrupt`. -/
def with_gate (m : Memory) (a offset : ℕ) : Memory :=
  let m := write m a 2 (offset % 2 ^ 16)
  let m := write m (a + 2) 2 8
  let m := write m (a + 4) 2 0x8e00
  let m := write m (a + 6) 2 (offset / 2 ^ 16 % 2 ^ 16)
  let m := write m (a + 8) 4 (offset / 2 ^ 16 / 2 ^ 16 % 2 ^ 32)
  write m (a + 12) 4 0

theorem create_interrupt_mem (vector : c.rbx = v) (small : v < 256) :
    (create_interrupt i c).mem = with_gate c.mem (i.interrupt_vectors + 16 * v) c.rax ∧
      (create_interrupt i c).rcx = c.rcx ∧ (create_interrupt i c).idtr = c.idtr := by
  have low := i.low
  have base : wrap (wrap (c.rbx * 16) + i.interrupt_vectors) = i.interrupt_vectors + 16 * v := by
    unfold Image.interrupt_vectors wrap
    omega
  have at_ : ∀ k : ℕ, k < 16 → wrap ((i.interrupt_vectors + 16 * v : ℕ) + (k : ℕ)) = i.interrupt_vectors + 16 * v + k := by
    intro k less
    unfold Image.interrupt_vectors wrap
    omega
  have at2 := at_ 2 (by omega)
  have at4 := at_ 4 (by omega)
  have at6 := at_ 6 (by omega)
  have at8 := at_ 8 (by omega)
  have at12 := at_ 12 (by omega)
  constructor
  · simp only [create_interrupt, store, shr_rax, Cpu.ax, Cpu.eax, base, with_gate]
    push_cast at at2 at4 at6 at8 at12 ⊢
    rw [at2, at4, at6, at8, at12]
  · simp only [create_interrupt, store, shr_rax, and_self]

theorem with_gate_outside (m : Memory) (a offset : ℕ) {b : ℕ} (outside : b < a ∨ a + 16 ≤ b) : with_gate m a offset b = m b := by
  simp only [with_gate]
  rw [write_outside _ _ _ _ (by omega), write_outside _ _ _ _ (by omega), write_outside _ _ _ _ (by omega),
    write_outside _ _ _ _ (by omega), write_outside _ _ _ _ (by omega), write_outside _ _ _ _ (by omega)]

/-- The stores as they are read. -/
theorem with_gate_reads (m : Memory) (a offset : ℕ) : read (with_gate m a offset) a 2 = offset % 2 ^ 16 ∧
    read (with_gate m a offset) (a + 2) 2 = 8 ∧ read (with_gate m a offset) (a + 4) 2 = 0x8e00 ∧
    read (with_gate m a offset) (a + 6) 2 = offset / 2 ^ 16 % 2 ^ 16 ∧
    read (with_gate m a offset) (a + 8) 4 = offset / 2 ^ 16 / 2 ^ 16 % 2 ^ 32 ∧
    read (with_gate m a offset) (a + 12) 4 = 0 := by
  simp only [with_gate]
  refine ⟨?_, ?_, ?_, ?_, ?_, read_write _ _ _ _ (by decide)⟩
  · rw [read_write_apart _ _ (by omega), read_write_apart _ _ (by omega), read_write_apart _ _ (by omega),
      read_write_apart _ _ (by omega), read_write_apart _ _ (by omega), read_write _ _ _ _ (by omega)]
  · rw [read_write_apart _ _ (by omega), read_write_apart _ _ (by omega), read_write_apart _ _ (by omega),
      read_write_apart _ _ (by omega), read_write _ _ _ _ (by omega)]
  · rw [read_write_apart _ _ (by omega), read_write_apart _ _ (by omega), read_write_apart _ _ (by omega),
      read_write _ _ _ _ (by omega)]
  · rw [read_write_apart _ _ (by omega), read_write_apart _ _ (by omega), read_write _ _ _ _ (by omega)]
  · rw [read_write_apart _ _ (by omega), read_write _ _ _ _ (by omega)]

/-- The bytes of a gate hold an interrupt gate to the address. -/
structure GateAt (m : Memory) (a offset : ℕ) : Prop where
  offset : read m a 2 + 2 ^ 16 * read m (a + 6) 2 + 2 ^ 32 * read m (a + 8) 4 = offset
  selector : read m (a + 2) 2 = 8
  attributes : read m (a + 4) 2 = 0x8e00

theorem with_gate_at (m : Memory) (a : ℕ) {offset : ℕ} (fits : offset < 2 ^ 64) : GateAt (with_gate m a offset) a offset := by
  obtain ⟨low, selector, attributes, middle, high, -⟩ := with_gate_reads m a offset
  refine ⟨?_, selector, attributes⟩
  rw [low, middle, high]
  omega

theorem GateAt.congr {m' : Memory} {a offset : ℕ} (at_ : GateAt m a offset) (same : ∀ b, a ≤ b → b < a + 16 → m' b = m b) :
    GateAt m' a offset := by
  have reads : ∀ k n, k + n ≤ 16 → read m' (a + k) n = read m (a + k) n := fun k n le =>
    read_congr n (a + k) fun b low high => same b (by omega) (by omega)
  have first : read m' a 2 = read m a 2 := reads 0 2 (by omega)
  refine ⟨?_, ?_, ?_⟩
  · rw [first, reads 6 2 (by omega), reads 8 4 (by omega)]
    exact at_.offset
  · rw [reads 2 2 (by omega)]
    exact at_.selector
  · rw [reads 4 2 (by omega)]
    exact at_.attributes

theorem GateAt.read {idtr : ℕ × ℕ} {offset : ℕ} (at_ : GateAt m (idtr.1 + 16 * v) offset) (within : 16 * v + 15 ≤ idtr.2) :
    gate idtr m v = some (interrupt_gate offset) := by
  have offset := at_.offset
  have selector := at_.selector
  have attributes := at_.attributes
  simp only [gate, if_pos within, offset, selector, attributes, interrupt_gate]

/-! ### The loop -/

/-- The first `k` vectors are set up, and nothing outside the tables has changed. -/
structure Filled (i : Image) (shims : ℕ → ℕ) (k : ℕ) (m₀ m : Memory) : Prop where
  gates : ∀ v < k, GateAt m (i.interrupt_vectors + 16 * v) (shims v)
  functions : ∀ v < k, called i m v = boot_default i v
  outside : ∀ b, b < i.interrupt_functions ∨ i.interrupt_vectors + 256 * 16 ≤ b → m b = m₀ b

theorem boot_default_lt (i : Image) (v : ℕ) : boot_default i v < 2 ^ 64 := by
  unfold boot_default
  split
  · exact i.i_ok_timer_lt
  · exact i.i_ok_lt

theorem lidt_mem (a : ℕ) (c : Cpu) : (lidt a c).mem = c.mem := by rw [lidt]

/-- What a turn does to memory. -/
theorem setup_turn_mem {shims : ℕ → ℕ} (vector : c.rcx = v) (small : v < 256)
    (shim : read c.mem (i.interrupt_shim_addr_base + v * 8) 8 = shims v) : ∃ c',
      setup_turn i c = (if v + 1 ≠ 256 then .inl c' else .inr c') ∧ c'.rcx = v + 1 ∧
        c'.mem = with_gate (write c.mem (i.interrupt_functions + v * 8) 8 (boot_default i v))
          (i.interrupt_vectors + 16 * v) (shims v) := by
  have low := i.low
  have shimsLow := i.shims_low
  have apart := i.shims_apart
  have slot : wrap ((v : ℤ) * 8 + i.interrupt_functions) = i.interrupt_functions + v * 8 := by
    unfold wrap
    omega
  have entry : wrap (i.interrupt_shim_addr_base + (v : ℤ) * 8) = i.interrupt_shim_addr_base + v * 8 := by
    unfold wrap
    omega
  have next : wrap ((v : ℤ) + 1) = v + 1 := by
    unfold wrap
    omega
  obtain ⟨c₁, isC₁⟩ : ∃ c₁ : Cpu, c₁ = { c with
      mem := write c.mem (i.interrupt_functions + v * 8) 8 (boot_default i v), rax := shims v, rbx := v } := ⟨_, rfl⟩
  have loaded : read (write c.mem (i.interrupt_functions + v * 8) 8 (boot_default i v))
      (i.interrupt_shim_addr_base + v * 8) 8 = shims v := by
    rw [read_write_apart _ _ (by omega)]
    exact shim
  obtain ⟨mem, rcx, _⟩ := create_interrupt_mem (i := i) (c := c₁) (v := v) (by rw [isC₁]) small
  have turn : setup_turn i c = (if wrap ((create_interrupt i c₁).rcx + 1) ≠ 256
      then .inl { create_interrupt i c₁ with rcx := wrap ((create_interrupt i c₁).rcx + 1) }
      else .inr { create_interrupt i c₁ with rcx := wrap ((create_interrupt i c₁).rcx + 1) }) := by
    obtain ⟨rax, rbx, rcx, idtr, m⟩ := c
    dsimp only at vector loaded isC₁
    subst vector
    by_cases timer : rcx = 0x20
    · rw [boot_default, if_pos timer] at loaded isC₁
      simp only [setup_turn, store, if_pos timer, slot, entry, loaded, ← isC₁]
    · rw [boot_default, if_neg timer] at loaded isC₁
      simp only [setup_turn, store, if_neg timer, slot, entry, loaded, ← isC₁]
  have rcx₁ : (create_interrupt i c₁).rcx = v := by rw [rcx, isC₁, vector]
  rw [rcx₁, next] at turn
  refine ⟨_, turn, rfl, ?_⟩
  show (create_interrupt i c₁).mem = _
  rw [mem, isC₁]

theorem setup_turn_filled {shims : ℕ → ℕ} {m₀ : Memory} (loaded : Loaded i shims m₀) (vector : c.rcx = v) (small : v < 256)
    (filled : Filled i shims v m₀ c.mem) : ∃ c', setup_turn i c = (if v + 1 ≠ 256 then .inl c' else .inr c') ∧
      c'.rcx = v + 1 ∧ Filled i shims (v + 1) m₀ c'.mem := by
  have low := i.low
  have shimsLow := i.shims_low
  have apart := i.shims_apart
  have vectors : i.interrupt_vectors = i.interrupt_functions + 256 * 8 := rfl
  have shim : read c.mem (i.interrupt_shim_addr_base + v * 8) 8 = shims v := by
    rw [← loaded.shim v small]
    exact read_congr 8 _ fun b _ _ => filled.outside b (by omega)
  have fits : shims v < 2 ^ 64 := by
    rw [← loaded.shim v small]
    exact read_lt m₀ 8 _
  obtain ⟨c', ran, rcx, mem⟩ := setup_turn_mem vector small shim
  have kept : ∀ b, (b < i.interrupt_functions + v * 8 ∨ i.interrupt_functions + v * 8 + 8 ≤ b) →
      (b < i.interrupt_vectors + 16 * v ∨ i.interrupt_vectors + 16 * v + 16 ≤ b) → c'.mem b = c.mem b := by
    intro b offFunction offGate
    rw [mem, with_gate_outside _ _ _ offGate, write_outside _ _ _ _ offFunction]
  refine ⟨c', ran, rcx, ⟨fun u less => ?_, fun u less => ?_, fun b outside => ?_⟩⟩
  · by_cases here : u = v
    · rw [here, mem]
      exact with_gate_at _ _ fits
    · exact (filled.gates u (by omega)).congr fun b _ _ => kept b (by omega) (by omega)
  · by_cases here : u = v
    · rw [here, called, mem]
      have same : read (with_gate (write c.mem (i.interrupt_functions + v * 8) 8 (boot_default i v))
          (i.interrupt_vectors + 16 * v) (shims v)) (i.interrupt_functions + v * 8) 8 =
          read (write c.mem (i.interrupt_functions + v * 8) 8 (boot_default i v)) (i.interrupt_functions + v * 8) 8 :=
        read_congr 8 _ fun b _ _ => with_gate_outside _ _ _ (by omega)
      rw [same, read_write _ _ _ _ (boot_default_lt i v)]
    · rw [← filled.functions u (by omega)]
      exact read_congr 8 _ fun b _ _ => kept b (by omega) (by omega)
  · rw [kept b (by omega) (by omega)]
    exact filled.outside b outside

theorem setup_loop {shims : ℕ → ℕ} {m₀ : Memory} (loaded : Loaded i shims m₀) (n : ℕ) (count : v + (n + 1) = 256)
    (vector : c.rcx = v) (filled : Filled i shims v m₀ c.mem) :
    ∃ c', iterate (setup_turn i) (n + 1) c = some c' ∧ Filled i shims 256 m₀ c'.mem := by
  induction n generalizing v c with
  | zero =>
    obtain ⟨c', ran, _, filled'⟩ := setup_turn_filled loaded vector (by omega) filled
    rw [if_neg (by omega)] at ran
    refine ⟨c', iterate_of_inr ran 0, ?_⟩
    rw [← count]
    exact filled'
  | succ n ih =>
    obtain ⟨c', ran, rcx, filled'⟩ := setup_turn_filled loaded vector (by omega) filled
    rw [if_pos (by omega)] at ran
    obtain ⟨c'', rest, all⟩ := ih (by omega) rcx filled'
    refine ⟨c'', ?_, all⟩
    rw [iterate_of_inl ran]
    exact rest

/-! ### Registrations -/

/-- A registration as the callers make it: a vector, and a 64-bit address. -/
def Valid (c : ℕ × ℕ) : Prop := c.1 < 256 ∧ c.2 < 2 ^ 64

theorem add_interrupt_handler_eq {u h : ℕ} (valid : Valid (u, h)) (m : Memory) :
    add_interrupt_handler i u h m = write m (i.interrupt_functions + u * 8) 8 h := by
  have low := i.low
  have small : u < 256 := valid.1
  have narrow : u % 2 ^ 16 = u := by omega
  have address : (i.interrupt_functions + u * 8) % 2 ^ 32 = i.interrupt_functions + u * 8 := by omega
  rw [add_interrupt_handler, asm_add_interrupt_handler, narrow, address]

theorem called_add {u h : ℕ} (valid : Valid (u, h)) (m : Memory) (v : ℕ) :
    called i (add_interrupt_handler i u h m) v = if u = v then h else called i m v := by
  rw [add_interrupt_handler_eq valid, called]
  by_cases same : u = v
  · rw [if_pos same, same]
    exact read_write _ _ _ _ valid.2
  · rw [if_neg same]
    exact read_write_apart _ _ (by omega)

theorem register_snoc (calls : List (ℕ × ℕ)) (c : ℕ × ℕ) (m : Memory) :
    register i (calls ++ [c]) m = add_interrupt_handler i c.1 c.2 (register i calls m) := by
  simp [register]

theorem last_registered_snoc (v : ℕ) (calls : List (ℕ × ℕ)) (c : ℕ × ℕ) :
    last_registered v (calls ++ [c]) = if c.1 = v then some c.2 else last_registered v calls := by
  by_cases same : c.1 = v
  · simp [last_registered, same]
  · simp [last_registered, same]

theorem register_called {calls : List (ℕ × ℕ)} (valid : ∀ c ∈ calls, Valid c) (m : Memory) (v : ℕ) :
    called i (register i calls m) v = (last_registered v calls).getD (called i m v) := by
  induction calls using List.reverseRecOn with
  | nil => rfl
  | append_singleton calls c ih =>
    have before := ih fun d member => valid d (List.mem_append_left _ member)
    rw [register_snoc, called_add (valid c (by simp)), before, last_registered_snoc]
    split
    · rfl
    · rfl

theorem register_outside {calls : List (ℕ × ℕ)} (valid : ∀ c ∈ calls, Valid c) (m : Memory) {b : ℕ}
    (outside : b < i.interrupt_functions ∨ i.interrupt_vectors ≤ b) : register i calls m b = m b := by
  have vectors : i.interrupt_vectors = i.interrupt_functions + 256 * 8 := rfl
  induction calls using List.reverseRecOn with
  | nil => rfl
  | append_singleton calls c ih =>
    have small : c.1 < 256 := (valid c (by simp)).1
    rw [register_snoc, add_interrupt_handler_eq (valid c (by simp)), write_outside _ _ _ _ (by omega)]
    exact ih fun d member => valid d (List.mem_append_left _ member)

/-- After the boot code and any registrations the gate of each vector is a present
    interrupt gate to the vector's shim, the shim calls the function registered
    last or the default, and the registrations changed no byte outside the table
    of functions. -/
theorem gates_and_functions {shims : ℕ → ℕ} (loaded : Loaded i shims c.mem) {calls : List (ℕ × ℕ)}
    (valid : ∀ r ∈ calls, Valid r) : ∃ c', setup_interrupt_handlers i 256 c = some c' ∧
      (∀ v < 256, gate c'.idtr (register i calls c'.mem) v = some (interrupt_gate (shims v))) ∧
      (∀ v < 256, called i (register i calls c'.mem) v = (last_registered v calls).getD (boot_default i v)) ∧
      ∀ b, b < i.interrupt_functions ∨ i.interrupt_vectors ≤ b → register i calls c'.mem b = c'.mem b := by
  have descriptor := i.descriptor_apart
  have vectors : i.interrupt_vectors = i.interrupt_functions + 256 * 8 := rfl
  have start : Filled i shims 0 c.mem c.mem := ⟨fun v less => by omega, fun v less => by omega, fun b _ => rfl⟩
  obtain ⟨c', ran, filled⟩ := setup_loop (c := { c with rcx := 0 }) loaded 255 rfl rfl start
  have base : read c'.mem (i.interrupt_descriptor_table + 2) 8 = i.interrupt_vectors := by
    rw [← loaded.base]
    exact read_congr 8 _ fun b _ _ => filled.outside b (by omega)
  have limit : read c'.mem i.interrupt_descriptor_table 2 = 16 * 256 - 1 := by
    rw [← loaded.limit]
    exact read_congr 2 _ fun b _ _ => filled.outside b (by omega)
  have same := lidt_mem i.interrupt_descriptor_table c'
  refine ⟨lidt i.interrupt_descriptor_table c', ?_, fun v small => ?_, fun v small => ?_, fun b outside => ?_⟩
  · rw [setup_interrupt_handlers, ran]
    rfl
  · have at_ : GateAt (register i calls c'.mem) (i.interrupt_vectors + 16 * v) (shims v) :=
      (filled.gates v small).congr fun b low high => register_outside valid c'.mem (by omega)
    have table : (lidt i.interrupt_descriptor_table c').idtr = (i.interrupt_vectors, 16 * 256 - 1) := by
      rw [lidt, base, limit]
    rw [table, same]
    exact at_.read (by show 16 * v + 15 ≤ 16 * 256 - 1; omega)
  · rw [same, register_called valid, filled.functions v small]
  · rw [same, register_outside valid c'.mem outside]

end

/-- Tables above the code at 1 MiB. -/
def linked : Image where
  interrupt_functions := 0x140000
  interrupt_shim_addr_base := 0x130000
  interrupt_descriptor_table := 0x12f000
  i_ok := 0x101010
  i_ok_timer := 0x101000
  low := by decide
  shims_apart := by decide
  shims_low := by decide
  descriptor_apart := by decide
  i_ok_lt := by decide
  i_ok_timer_lt := by decide

/-- Shims of 64 bytes, far above the tables. -/
def far_shims (v : ℕ) : ℕ := 0xffffffff80102000 + 64 * v

def linked_memory : Memory := fun a =>
  if 0x130000 ≤ a ∧ a < 0x130800 then UInt8.ofNat (far_shims ((a - 0x130000) / 8) / 256 ^ ((a - 0x130000) % 8))
  else if a = 0x12f000 then 0xff
  else if a = 0x12f001 then 0x0f
  else if a = 0x12f003 then 0x08
  else if a = 0x12f004 then 0x14
  else 0

theorem linked_loaded : Loaded linked far_shims linked_memory where
  shim v small := by
    have base : linked.interrupt_shim_addr_base = 0x130000 := rfl
    apply read_of_bytes
    · intro j less
      have inside : 0x130000 ≤ 0x130000 + v * 8 + j ∧ 0x130000 + v * 8 + j < 0x130800 := by omega
      have entry : (0x130000 + v * 8 + j - 0x130000) / 8 = v := by omega
      have place : (0x130000 + v * 8 + j - 0x130000) % 8 = j := by omega
      rw [base, linked_memory, if_pos inside, entry, place]
    · unfold far_shims
      omega
  limit := by decide +kernel
  base := by decide +kernel

/-- The timer's handler and two handlers of the keyboard are registered. -/
theorem gates_and_functions_linked : ∃ c', setup_interrupt_handlers linked 256 ⟨0, 0, 0, (0, 0), linked_memory⟩ = some c' ∧
    (∀ v < 256, gate c'.idtr (register linked [(0x20, 0x105000), (0x21, 0x106000), (0x21, 0x107000)] c'.mem) v =
      some (interrupt_gate (far_shims v))) ∧
    (∀ v < 256, called linked (register linked [(0x20, 0x105000), (0x21, 0x106000), (0x21, 0x107000)] c'.mem) v =
      (last_registered v [(0x20, 0x105000), (0x21, 0x106000), (0x21, 0x107000)]).getD (boot_default linked v)) ∧
    ∀ b, b < linked.interrupt_functions ∨ linked.interrupt_vectors ≤ b →
      register linked [(0x20, 0x105000), (0x21, 0x106000), (0x21, 0x107000)] c'.mem b = c'.mem b := by
  have valid : ∀ r ∈ [(0x20, 0x105000), (0x21, 0x106000), (0x21, 0x107000)], Valid r := by
    intro r member
    simp only [List.mem_cons, List.not_mem_nil, or_false] at member
    rcases member with rfl | rfl | rfl
    · exact ⟨by decide, by decide⟩
    · exact ⟨by decide, by decide⟩
    · exact ⟨by decide, by decide⟩
  obtain ⟨c, isC⟩ : ∃ c : Cpu, c = ⟨0, 0, 0, (0, 0), linked_memory⟩ := ⟨_, rfl⟩
  have loaded : Loaded linked far_shims c.mem := by
    rw [isC]
    exact linked_loaded
  rw [← isC]
  exact gates_and_functions loaded valid

end OsC.Idt
