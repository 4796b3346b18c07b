import OsC.Idt
import OsC.Shim

/-!
Interrupts from the gate to `iretq`. The processor finds the shim of a vector in
the descriptor table, the shim finds the handler in the table of functions. In
every run of the kernel an interrupt calls the handler registered last before it
with the address of what the processor pushed. Only the 144 bytes below the stack
pointer and what the handler itself changes differ afterwards, and the
interrupted program goes on with its registers (`interrupts_dispatched`).
-/
namespace OsC.Dispatch
open OsC.Bytes OsC.Shim

/-! ### From the gate to `iretq` -/

/-- Memory by numeric addresses. -/
def flat (m : Ram) : Memory := fun a => m (UInt64.ofNat a)

/-- The kernel's code: the addresses that the linker chose, and what functions do. -/
structure Code where
  image : Idt.Image
  shims : ℕ → ℕ
  behind_call : ℕ → UInt64
  functions : Functions
  distinct : ∀ u < 256, ∀ v < 256, shims u = shims v → u = v

def Code.shim (k : Code) : Shim.Image := ⟨k.image.interrupt_functions, k.behind_call⟩

/-- The processor between two instructions, with what an interrupt there leaves
    to come back to, and the base and limit of the descriptor table. -/
structure Processor where
  cpu : Cpu
  here : Interrupted
  idtr : ℕ × ℕ

/-- An interrupt through a present interrupt gate of the kernel's code segment to one of the shims. -/
def interrupt (k : Code) (v : ℕ) (error_code : Option UInt64) (p : Processor) : Option Run :=
  match Idt.gate p.idtr (flat p.cpu.mem) v with
  | none => none
  | some g =>
    if g = Idt.interrupt_gate g.offset then
      ((List.range 256).find? fun x => k.shims x = g.offset).map fun x =>
        interrupt_shim_x k.shim k.functions x (deliver p.here error_code p.cpu)
    else none

/-- `iretq` pops what the processor pushed; the direction flag is a bit of the flags. -/
def iretq (c : Cpu) : Cpu × Interrupted :=
  let rflags := load c.mem (c.rsp + 8 + 8)
  ({ set .rsp (load c.mem (c.rsp + 8 + 8 + 8)) c with df := rflags.toNat.testBit 10 },
    ⟨load c.mem c.rsp, load c.mem (c.rsp + 8), rflags, load c.mem (c.rsp + 8 + 8 + 8 + 8)⟩)

/-- What the processor pushes, from the last word on. -/
def pushed (f : Interrupted) (rsp : UInt64) (error_code : Option UInt64) : List UInt64 :=
  error_code.toList ++ [f.rip, f.cs, f.rflags, rsp, f.ss]

/-! ### Bytes that are kept -/

/-- No byte outside the addresses from `lo` to `hi` is changed. -/
def Outside (lo hi : ℕ) (m m' : Ram) : Prop := ∀ b, b.toNat < lo ∨ hi ≤ b.toNat → m' b = m b

section
variable {k : Code} {c : Cpu} {p p' : Processor} {v x lo hi : ℕ} {m m' m'' : Ram} {vs : List UInt64} {a : UInt64}
  {calls : List (ℕ × ℕ)}

theorem Outside.trans {lo' : ℕ} (first : Outside lo hi m m') (second : Outside lo' lo m' m'') (down : lo' ≤ lo)
    (up : lo ≤ hi) : Outside lo' hi m m'' := fun b outside => (second b (by omega)).trans (first b (by omega))

theorem push_outside (v : UInt64) (room : 8 ≤ c.rsp.toNat) :
    (push_word v c).rsp.toNat = c.rsp.toNat - 8 ∧ Outside (c.rsp.toNat - 8) c.rsp.toNat c.mem (push_word v c).mem := by
  have below : (c.rsp - 8).toNat = c.rsp.toNat - 8 := UInt64.toNat_sub_of_le _ _ (UInt64.le_iff_toNat_le.mpr room)
  rw [push_rsp, push_mem]
  refine ⟨below, fun b outside => ?_⟩
  have apart : ¬ (b - (c.rsp - 8)).toNat < 8 := by
    have := b.toNat_lt
    have := c.rsp.toNat_lt
    rw [UInt64.toNat_sub, below]
    omega
  rw [store, if_neg apart]

/-- The words are pushed one behind the other. -/
def push_words (vs : List UInt64) (c : Cpu) : Cpu := vs.foldl (fun c v => push_word v c) c

theorem push_words_outside (vs : List UInt64) (room : 8 * vs.length ≤ c.rsp.toNat) :
    (push_words vs c).rsp.toNat = c.rsp.toNat - 8 * vs.length ∧
      Outside (c.rsp.toNat - 8 * vs.length) c.rsp.toNat c.mem (push_words vs c).mem := by
  induction vs generalizing c with
  | nil => exact ⟨rfl, fun _ _ => rfl⟩
  | cons v vs ih =>
    rw [List.length_cons] at room ⊢
    obtain ⟨below, first⟩ := push_outside v (show 8 ≤ c.rsp.toNat by omega)
    obtain ⟨lower, rest⟩ := ih (c := push_word v c) (by rw [below]; omega)
    rw [below] at lower rest
    have least : c.rsp.toNat - 8 - 8 * vs.length = c.rsp.toNat - 8 * (vs.length + 1) := by omega
    rw [least] at lower rest
    exact ⟨lower, first.trans rest (by omega) (by omega)⟩

theorem push_words_holds (ws : List UInt64) (holds : Holds c.mem c.rsp vs) (few : 8 * (vs.length + ws.length) ≤ 2 ^ 64) :
    Holds (push_words ws c).mem (push_words ws c).rsp (ws.reverse ++ vs) := by
  induction ws generalizing c vs with
  | nil => exact holds
  | cons w ws ih =>
    rw [List.length_cons] at few
    have first : Holds (push_word w c).mem (push_word w c).rsp (w :: vs) := by
      rw [push_mem, push_rsp]
      exact holds.push (by omega)
    rw [List.reverse_cons, List.append_assoc]
    exact ih first (by simp; omega)

/-- Pushing registers pushes their values at the first of them. -/
theorem pushes_words {rs : List Reg} (apart : .rsp ∉ rs) : pushes rs c = push_words (rs.map c.reg) c := by
  induction rs generalizing c with
  | nil => rfl
  | cons r rs ih =>
    simp only [List.mem_cons, not_or] at apart
    have same : rs.map (push r c).reg = rs.map c.reg :=
      List.map_congr_left fun q member => push_reg (fun here => apart.2 (here ▸ member)) _ c
    have rest : pushes rs (push r c) = push_words (rs.map (push r c).reg) (push r c) := ih apart.2
    rw [same] at rest
    exact rest

/-- The stack pointer as the processor aligns it. -/
def align (c : Cpu) : Cpu := set .rsp (UInt64.ofNat (c.rsp.toNat / 16 * 16)) c

theorem align_rsp (c : Cpu) : (align c).rsp.toNat = c.rsp.toNat / 16 * 16 := by
  have limit := c.rsp.toNat_lt
  rw [align, set_rsp, UInt64.toNat_ofNat']
  omega

theorem deliver_eq (f : Interrupted) (error_code : Option UInt64) (c : Cpu) :
    deliver f error_code c = push_words (pushed f c.rsp error_code).reverse (align c) := by
  cases error_code <;> rfl

theorem deliver_reg {r : Reg} (other : r ≠ .rsp) (f : Interrupted) (error_code : Option UInt64) (c : Cpu) :
    (deliver f error_code c).reg r = c.reg r := by
  have kept : ∀ (vs : List UInt64) (c : Cpu), (push_words vs c).reg r = c.reg r := by
    intro vs
    induction vs with
    | nil => exact fun _ => rfl
    | cons v vs ih => exact fun c => (ih (push_word v c)).trans (push_reg other v c)
  rw [deliver_eq, kept, align]
  simp [other]

theorem pushed_length (f : Interrupted) (rsp : UInt64) (error_code : Option UInt64) :
    (pushed f rsp error_code).length ≤ 6 := by
  cases error_code <;> simp [pushed]

theorem deliver_holds (f : Interrupted) (error_code : Option UInt64) (c : Cpu) :
    Holds (deliver f error_code c).mem (deliver f error_code c).rsp (pushed f c.rsp error_code) := by
  have short := pushed_length f c.rsp error_code
  have none : Holds (align c).mem (align c).rsp [] := trivial
  have holds := push_words_holds (pushed f c.rsp error_code).reverse none (by simp; omega)
  rw [List.reverse_reverse, List.append_nil] at holds
  rw [deliver_eq]
  exact holds

/-- The frame and the error code take at most 63 bytes below the stack pointer. -/
theorem deliver_outside (f : Interrupted) (error_code : Option UInt64) (room : 64 ≤ c.rsp.toNat) :
    c.rsp.toNat - 63 ≤ (deliver f error_code c).rsp.toNat ∧
      (deliver f error_code c).rsp.toNat + 8 * (pushed f c.rsp error_code).length ≤ c.rsp.toNat ∧
      Outside (deliver f error_code c).rsp.toNat c.rsp.toNat c.mem (deliver f error_code c).mem := by
  have short := pushed_length f c.rsp error_code
  have aligned := align_rsp c
  obtain ⟨rsp, outside⟩ := push_words_outside (c := align c) (pushed f c.rsp error_code).reverse (by
    rw [List.length_reverse]
    omega)
  rw [List.length_reverse] at rsp outside
  rw [deliver_eq, rsp]
  exact ⟨by omega, by omega, fun b apart => outside b (by omega)⟩

theorem prepare_outside (room : 72 ≤ c.rsp.toNat) : Outside (c.rsp.toNat - 72) c.rsp.toNat c.mem (prepare c).mem := by
  have saves : Outside (c.rsp.toNat - 72) c.rsp.toNat c.mem (push_words (caller_saved.map c.reg) c).mem :=
    (push_words_outside (caller_saved.map c.reg) room).2
  rw [← pushes_words (by decide)] at saves
  exact saves

theorem prepare_rsp (room : 72 ≤ c.rsp.toNat) : (prepare c).rsp.toNat = c.rsp.toNat - 72 := by
  rw [(prepare_run c).2.1]
  exact UInt64.toNat_sub_of_le _ _ (UInt64.le_iff_toNat_le.mpr room)

theorem enter_outside (i : Shim.Image) (x : ℕ) (room : 80 ≤ c.rsp.toNat) :
    Outside (c.rsp.toNat - 80) c.rsp.toNat c.mem (enter i x c).mem := by
  have rsp := prepare_rsp (c := c) (by omega)
  have call := (push_outside (i.behind_call x) (c := prepare c) (by omega)).2
  have least : c.rsp.toNat - 72 - 8 = c.rsp.toNat - 80 := by omega
  rw [rsp, least] at call
  exact (prepare_outside (by omega)).trans call (by omega) (by omega)

/-- What the processor pushed is still there when the handler begins. -/
theorem enter_holds (i : Shim.Image) (x : ℕ) (holds : Holds c.mem c.rsp vs) (room : 80 ≤ c.rsp.toNat)
    (fits : c.rsp.toNat + 8 * vs.length ≤ 2 ^ 64) : Holds (enter i x c).mem c.rsp vs := by
  refine holds.congr fun b less => enter_outside i x room _ (.inr ?_)
  rw [UInt64.toNat_add, UInt64.toNat_ofNat']
  omega

/-! ### Back to the program -/

theorem pops_kept (rs : List Reg) (c : Cpu) : (pops rs c).mem = c.mem ∧ (pops rs c).out = c.out := by
  induction rs generalizing c with
  | nil => exact ⟨rfl, rfl⟩
  | cons r rs ih => exact ih (pop r c)

/-- Behind the call the shim writes to one port and to no memory. -/
theorem leave_kept (c : Cpu) : (leave c).mem = c.mem ∧ (leave c).out = (0x20, 0x20) :: c.out := by
  have kept := pops_kept [.r11, .r10, .r9, .r8, .rdi, .rsi, .rdx, .rcx, .rax] (out_al 0x20 (mov_al 0x20 c))
  have byte : (mov_al 0x20 c).reg .rax = c.reg .rax - UInt64.ofNat ((c.reg .rax).toNat % 2 ^ 8) + 0x20 := by simp [mov_al]
  have low : ((mov_al 0x20 c).reg .rax).toUInt8 = 0x20 := by
    have small : (UInt64.ofNat ((c.reg .rax).toNat % 2 ^ 8)).toNat = (c.reg .rax).toNat % 2 ^ 8 := by
      rw [UInt64.toNat_ofNat']
      omega
    have less : UInt64.ofNat ((c.reg .rax).toNat % 2 ^ 8) ≤ c.reg .rax :=
      UInt64.le_iff_toNat_le.mpr (by rw [small]; omega)
    refine UInt8.toNat_inj.mp ?_
    rw [byte, UInt64.toNat_toUInt8, UInt64.toNat_add, UInt64.toNat_sub_of_le _ _ less, small]
    show ((c.reg .rax).toNat - (c.reg .rax).toNat % 2 ^ 8 + 32) % 2 ^ 64 % 2 ^ 8 = 32
    omega
  have written : (out_al 0x20 (mov_al 0x20 c)).out = (0x20, 0x20) :: c.out := by
    rw [out_al, low]
    rfl
  have restored : (restore_registers (out_al 0x20 (mov_al 0x20 c))).mem = c.mem ∧
      (restore_registers (out_al 0x20 (mov_al 0x20 c))).out = (0x20, 0x20) :: c.out :=
    ⟨kept.1, kept.2.trans written⟩
  rw [leave]
  split
  · exact restored
  · exact restored

/-- `iretq` from the instruction pointer of a frame. -/
theorem iretq_run {f : Interrupted} {rsp : UInt64} (holds : Holds c.mem c.rsp [f.rip, f.cs, f.rflags, rsp, f.ss]) :
    (iretq c).2 = f ∧ (iretq c).1.rsp = rsp ∧ (∀ r, r ≠ .rsp → (iretq c).1.reg r = c.reg r) ∧
      (iretq c).1.df = f.rflags.toNat.testBit 10 ∧ (iretq c).1.mem = c.mem ∧ (iretq c).1.out = c.out := by
  obtain ⟨rip, cs, rflags, stack, ss, -⟩ := holds
  refine ⟨?_, ?_, fun r other => ?_, ?_, rfl, rfl⟩
  · simp only [iretq, rip, cs, rflags, ss]
  · show (set .rsp (load c.mem (c.rsp + 8 + 8 + 8)) c).rsp = rsp
    rw [set_rsp, stack]
  · show (set .rsp (load c.mem (c.rsp + 8 + 8 + 8)) c).reg r = c.reg r
    simp [other]
  · show (load c.mem (c.rsp + 8 + 8)).toNat.testBit 10 = _
    rw [rflags]

/-- The frame lies where the shim leaves the stack pointer. -/
theorem frame_at {f : Interrupted} {rsp : UInt64} (error_code : Option UInt64) (holds : Holds m c.rsp (pushed f rsp error_code)) :
    Holds m (instruction_ptr c error_code.isSome) [f.rip, f.cs, f.rflags, rsp, f.ss] := by
  cases error_code with
  | none => exact holds
  | some code => exact holds.2

/-! ### The tables -/

/-- The bytes of the functions and of the gates. -/
def InTables (k : Code) (b : ℕ) : Prop := k.image.interrupt_functions ≤ b ∧ b < k.image.interrupt_vectors + 16 * 256

/-- The tables after the boot code and these registrations. -/
structure Wired (k : Code) (calls : List (ℕ × ℕ)) (p : Processor) : Prop where
  idtr : p.idtr = (k.image.interrupt_vectors, 16 * 256 - 1)
  gates : ∀ v < 256, Idt.gate p.idtr (flat p.cpu.mem) v = some (Idt.interrupt_gate (k.shims v))
  functions : ∀ v < 256, Idt.called k.image (flat p.cpu.mem) v =
    (Idt.last_registered v calls).getD (Idt.boot_default k.image v)

theorem called_congr {m m' : Memory} (same : ∀ b, InTables k b → m' b = m b) (small : v < 256) :
    Idt.called k.image m' v = Idt.called k.image m v := by
  have vectors : k.image.interrupt_vectors = k.image.interrupt_functions + 256 * 8 := rfl
  exact read_congr 8 _ fun b low high => same b ⟨by omega, by omega⟩

theorem gate_congr {m m' : Memory}
    (same : ∀ b, k.image.interrupt_vectors ≤ b → b < k.image.interrupt_vectors + 16 * 256 → m' b = m b) (small : v < 256) :
    Idt.gate (k.image.interrupt_vectors, 16 * 256 - 1) m' v = Idt.gate (k.image.interrupt_vectors, 16 * 256 - 1) m v := by
  have words : ∀ n j, n + j ≤ 16 → read m' (k.image.interrupt_vectors + 16 * v + j) n =
      read m (k.image.interrupt_vectors + 16 * v + j) n :=
    fun n j inside => read_congr n _ fun b low high => same b (by omega) (by omega)
  rw [Idt.gate, Idt.gate, words 2 6 (by omega), words 4 8 (by omega), words 2 2 (by omega), words 2 4 (by omega)]
  have first := words 2 0 (by omega)
  rw [Nat.add_zero] at first
  rw [first]

theorem Wired.same (wired : Wired k calls p) (idtr : p'.idtr = p.idtr)
    (same : ∀ b, InTables k b → flat p'.cpu.mem b = flat p.cpu.mem b) : Wired k calls p' := by
  have vectors : k.image.interrupt_vectors = k.image.interrupt_functions + 256 * 8 := rfl
  refine ⟨idtr.trans wired.idtr, fun v small => ?_, fun v small => ?_⟩
  · rw [← wired.gates v small, idtr, wired.idtr]
    exact gate_congr (fun b low high => same b ⟨by omega, high⟩) small
  · rw [← wired.functions v small]
    exact called_congr same small

/-- A registration while the kernel runs. -/
theorem Wired.register {r : ℕ × ℕ} (wired : Wired k calls p) (valid : Idt.Valid r) (idtr : p'.idtr = p.idtr)
    (stored : ∀ b, InTables k b → flat p'.cpu.mem b = Idt.add_interrupt_handler k.image r.1 r.2 (flat p.cpu.mem) b) :
    Wired k (calls ++ [r]) p' := by
  have vectors : k.image.interrupt_vectors = k.image.interrupt_functions + 256 * 8 := rfl
  have small : r.1 < 256 := valid.1
  refine ⟨idtr.trans wired.idtr, fun v less => ?_, fun v less => ?_⟩
  · rw [← wired.gates v less, idtr, wired.idtr]
    refine gate_congr (fun b low high => ?_) less
    rw [stored b ⟨by omega, high⟩, Idt.add_interrupt_handler_eq valid, write_outside _ _ _ _ (by omega)]
  · rw [called_congr stored less, Idt.called_add valid, wired.functions v less, Idt.last_registered_snoc]
    split
    · rfl
    · rfl

/-! ### One interrupt -/

/-- The stack has room apart from the tables for what the processor and the shim push. -/
structure Room (k : Code) (c : Cpu) : Prop where
  low : 144 ≤ c.rsp.toNat
  apart : c.rsp.toNat ≤ k.image.interrupt_functions ∨ k.image.interrupt_vectors + 16 * 256 + 144 ≤ c.rsp.toNat

/-- A handler that obeys the calling convention, tells the error code, and
    changes neither what the processor pushed nor the tables. -/
structure Polite (k : Code) (error_code : Option UInt64) (run : Run) (returned : Cpu) : Prop where
  obeys : Obeys run.called returned
  tells : returned.eax ≠ 0 ↔ error_code.isSome = true
  frame : ∀ b < 8 * (error_code.toList.length + 5), returned.mem (run.called.reg .rdi + UInt64.ofNat b) =
    run.called.mem (run.called.reg .rdi + UInt64.ofNat b)
  tables : ∀ b, InTables k b → flat returned.mem b = flat run.called.mem b

/-- The program goes on with its registers, flags and stack, and the same tables. -/
structure Resumed (k : Code) (calls : List (ℕ × ℕ)) (p p' : Processor) : Prop where
  here : p'.here = p.here
  reg : ∀ r, p'.cpu.reg r = p.cpu.reg r
  df : p'.cpu.df = p.here.rflags.toNat.testBit 10
  wired : Wired k calls p'

/-- The processor behind the `iretq` of a run. -/
def Processor.back (p : Processor) (run : Run) : Processor := ⟨(iretq run.iretq).1, (iretq run.iretq).2, p.idtr⟩

theorem in_tables_toNat {b : ℕ} (inside : InTables k b) : (UInt64.ofNat b).toNat = b := by
  have vectors : k.image.interrupt_vectors = k.image.interrupt_functions + 256 * 8 := rfl
  have low := k.image.low
  have high := inside.2
  rw [UInt64.toNat_ofNat']
  omega

theorem Outside.tables (outside : Outside lo hi m m') (apart : hi ≤ k.image.interrupt_functions ∨
    k.image.interrupt_vectors + 16 * 256 ≤ lo) {b : ℕ} (inside : InTables k b) : flat m' b = flat m b := by
  have address := in_tables_toNat inside
  obtain ⟨low, high⟩ := inside
  exact outside _ (by rw [address]; omega)

theorem load_flat (m : Ram) (a : ℕ) : load m (UInt64.ofNat a) = UInt64.ofNat (read (flat m) a 8) := by
  have moved : ∀ n j, read (from_address m (UInt64.ofNat a)) j n = read (flat m) (a + j) n := by
    intro n
    induction n with
    | zero => exact fun _ => rfl
    | succ n ih =>
      intro j
      have here : from_address m (UInt64.ofNat a) j = flat m (a + j) := by rw [from_address, flat, UInt64.ofNat_add]
      rw [Bytes.read, Bytes.read, ih, here, Nat.add_assoc]
  rw [load, moved]
  rfl

/-- The gate leads to the vector's own shim. -/
theorem interrupt_eq (wired : Wired k calls p) (small : v < 256) (error_code : Option UInt64) :
    interrupt k v error_code p = some (interrupt_shim_x k.shim k.functions v (deliver p.here error_code p.cpu)) := by
  have found : (List.range 256).find? (fun x => k.shims x = k.shims v) = some v := by
    cases search : (List.range 256).find? (fun x => k.shims x = k.shims v) with
    | none =>
      have all := List.find?_eq_none.mp search v (List.mem_range.mpr small)
      exact absurd (decide_eq_true rfl) all
    | some x =>
      have same : k.shims x = k.shims v := by simpa using List.find?_some search
      rw [k.distinct x (List.mem_range.mp (List.mem_of_find?_eq_some search)) v small same]
  have offset : (Idt.interrupt_gate (k.shims v)).offset = k.shims v := rfl
  rw [interrupt, wired.gates v small]
  dsimp only
  rw [offset, if_pos rfl, found]
  rfl

/-- One interrupt with these tables calls the handler registered last with the
    address of what was pushed, tells the master controller once, and if the
    handler is polite resumes the program. Before the handler only the 144 bytes
    below the stack pointer change, behind it no memory does. -/
theorem Wired.interrupt (wired : Wired k calls p) (small : v < 256) (room : Room k p.cpu) (error_code : Option UInt64) :
    ∃ run, interrupt k v error_code p = some run ∧
      run.handler = UInt64.ofNat ((Idt.last_registered v calls).getD (Idt.boot_default k.image v)) ∧
      Holds run.called.mem (run.called.reg .rdi) (pushed p.here p.cpu.rsp error_code) ∧
      Outside (p.cpu.rsp.toNat - 144) p.cpu.rsp.toNat p.cpu.mem run.called.mem ∧
      (p.back run).cpu.mem = (k.functions run.handler run.called).mem ∧
      (p.back run).cpu.out = (0x20, 0x20) :: (k.functions run.handler run.called).out ∧
      (Polite k error_code run (k.functions run.handler run.called) → Resumed k calls p (p.back run)) := by
  have vectors : k.image.interrupt_vectors = k.image.interrupt_functions + 256 * 8 := rfl
  have low := room.low
  have apart := room.apart
  obtain ⟨least, most, delivers⟩ := deliver_outside (c := p.cpu) p.here error_code (by omega)
  have holds := deliver_holds p.here error_code p.cpu
  have length := pushed_length p.here p.cpu.rsp error_code
  have limit := p.cpu.rsp.toNat_lt
  obtain ⟨entry, isEntry⟩ : ∃ entry, entry = deliver p.here error_code p.cpu := ⟨_, rfl⟩
  rw [← isEntry] at least most delivers holds
  have prepares := prepare_outside (c := entry) (by omega)
  have enters := enter_outside (c := entry) k.shim v (by omega)
  have arrived := enter_holds k.shim v holds (by omega) (by omega)
  obtain ⟨rdi, -, -, -⟩ := enter_run k.shim v entry
  have handler : Shim.handler k.shim v entry =
      UInt64.ofNat ((Idt.last_registered v calls).getD (Idt.boot_default k.image v)) := by
    rw [Shim.handler, load_flat, ← wired.functions v small]
    refine congrArg UInt64.ofNat (called_congr (fun b inside => ?_) small)
    exact (prepares.tables (by omega) inside).trans (delivers.tables (by omega) inside)
  refine ⟨_, interrupt_eq wired small error_code, ?_⟩
  rw [← isEntry, interrupt_shim_eq]
  obtain ⟨kept, written⟩ := leave_kept (k.functions (Shim.handler k.shim v entry) (enter k.shim v entry))
  refine ⟨handler, ?_, ?_, kept, written, fun polite => ?_⟩
  · rw [rdi]
    exact arrived
  · have before := delivers.trans enters (by omega) (by omega)
    exact fun b outside => before b (by omega)
  · have frame := polite.frame
    have tables := polite.tables
    dsimp only at frame tables
    rw [rdi] at frame
    obtain ⟨-, registers, stack⟩ := interrupt_shim_run (interrupt_shim_eq k.shim k.functions v entry) polite.obeys polite.tells
    dsimp only at registers stack
    have words : (pushed p.here p.cpu.rsp error_code).length = error_code.toList.length + 5 := by simp [pushed]
    have still : Holds (leave (k.functions (Shim.handler k.shim v entry) (enter k.shim v entry))).mem entry.rsp
        (pushed p.here p.cpu.rsp error_code) := by
      rw [kept]
      exact arrived.congr fun b less => frame b (by rw [← words]; exact less)
    have framed := frame_at error_code still
    rw [← stack] at framed
    obtain ⟨here, rsp, regs, df, mem, -⟩ := iretq_run framed
    refine ⟨here, fun r => ?_, df, wired.same rfl fun b inside => ?_⟩
    · by_cases isRsp : r = .rsp
      · rw [isRsp]
        exact rsp
      · refine (regs r isRsp).trans ((registers r isRsp).trans ?_)
        rw [isEntry]
        exact deliver_reg isRsp p.here error_code p.cpu
    · refine (congrArg (fun m => flat m b) (mem.trans kept)).trans ((tables b inside).trans ?_)
      exact (enters.tables (by omega) inside).trans (delivers.tables (by omega) inside)

/-! ### Runs -/

/-- What the processor can come to from the end of the boot code: programs run,
    handlers are registered, and interrupts come and go. -/
inductive Reached (k : Code) (boot : Idt.Cpu) : List (ℕ × ℕ) → Processor → Prop
  | boot {c' : Idt.Cpu} {p : Processor} (ran : Idt.setup_interrupt_handlers k.image 256 boot = some c')
      (idtr : p.idtr = c'.idtr) (loaded : ∀ b, InTables k b → flat p.cpu.mem b = c'.mem b) : Reached k boot [] p
  | program {calls : List (ℕ × ℕ)} {p p' : Processor} (before : Reached k boot calls p) (idtr : p'.idtr = p.idtr)
      (kept : ∀ b, InTables k b → flat p'.cpu.mem b = flat p.cpu.mem b) : Reached k boot calls p'
  | register {calls : List (ℕ × ℕ)} {p p' : Processor} {r : ℕ × ℕ} (before : Reached k boot calls p) (valid : Idt.Valid r)
      (idtr : p'.idtr = p.idtr)
      (stored : ∀ b, InTables k b → flat p'.cpu.mem b = Idt.add_interrupt_handler k.image r.1 r.2 (flat p.cpu.mem) b) :
      Reached k boot (calls ++ [r]) p'
  | interrupt {calls : List (ℕ × ℕ)} {p : Processor} {v : ℕ} {error_code : Option UInt64} {run : Run}
      (before : Reached k boot calls p) (small : v < 256) (room : Room k p.cpu) (ran : interrupt k v error_code p = some run)
      (polite : Polite k error_code run (k.functions run.handler run.called)) : Reached k boot calls (p.back run)

theorem wired_boot {boot c' : Idt.Cpu} (loaded : Idt.Loaded k.image k.shims boot.mem)
    (ran : Idt.setup_interrupt_handlers k.image 256 boot = some c') (idtr : p.idtr = c'.idtr)
    (same : ∀ b, InTables k b → flat p.cpu.mem b = c'.mem b) : Wired k [] p := by
  have vectors : k.image.interrupt_vectors = k.image.interrupt_functions + 256 * 8 := rfl
  have descriptor := k.image.descriptor_apart
  have start : Idt.Filled k.image k.shims 0 boot.mem boot.mem :=
    ⟨fun v less => by omega, fun v less => by omega, fun _ _ => rfl⟩
  obtain ⟨c, looped, filled⟩ := Idt.setup_loop (c := { boot with rcx := 0 }) loaded 255 rfl rfl start
  have base : Bytes.read c.mem (k.image.interrupt_descriptor_table + 2) 8 = k.image.interrupt_vectors := by
    rw [← loaded.base]
    exact read_congr 8 _ fun b _ _ => filled.outside b (by omega)
  have limit : Bytes.read c.mem k.image.interrupt_descriptor_table 2 = 16 * 256 - 1 := by
    rw [← loaded.limit]
    exact read_congr 2 _ fun b _ _ => filled.outside b (by omega)
  rw [Idt.setup_interrupt_handlers, looped] at ran
  obtain rfl : Idt.lidt k.image.interrupt_descriptor_table c = c' := Option.some.inj ran
  simp only [Idt.lidt_mem] at same
  have table : p.idtr = (k.image.interrupt_vectors, 16 * 256 - 1) := by
    rw [idtr, Idt.lidt, base, limit]
  refine ⟨table, fun v small => ?_, fun v small => ?_⟩
  · have at_ : Idt.GateAt c.mem ((k.image.interrupt_vectors, 16 * 256 - 1).1 + 16 * v) (k.shims v) := filled.gates v small
    rw [table, gate_congr (fun b low high => same b ⟨by omega, high⟩) small]
    exact at_.read (show 16 * v + 15 ≤ 16 * 256 - 1 by omega)
  · rw [called_congr same small]
    exact filled.functions v small

theorem Reached.wired {boot : Idt.Cpu} (reached : Reached k boot calls p) (loaded : Idt.Loaded k.image k.shims boot.mem) :
    Wired k calls p := by
  induction reached with
  | boot ran idtr same => exact wired_boot loaded ran idtr same
  | program _ idtr kept ih => exact ih.same idtr kept
  | register _ valid idtr stored ih => exact ih.register valid idtr stored
  | interrupt _ small room ran polite ih =>
    obtain ⟨run, ran', -, -, -, -, -, resumes⟩ := ih.interrupt small room _
    rw [ran] at ran'
    cases ran'
    exact (resumes polite).wired

/-- In every run, whatever programs and handlers did, an interrupt of any vector
    calls the handler registered last before it, with the address of what the
    processor pushed. Apart from the handler only the 144 bytes below the stack
    pointer are changed, and a polite one ends with the program resumed. -/
theorem interrupts_dispatched {boot : Idt.Cpu} (loaded : Idt.Loaded k.image k.shims boot.mem) (reached : Reached k boot calls p)
    (small : v < 256) (room : Room k p.cpu) (error_code : Option UInt64) : ∃ run, interrupt k v error_code p = some run ∧
      run.handler = UInt64.ofNat ((Idt.last_registered v calls).getD (Idt.boot_default k.image v)) ∧
      Holds run.called.mem (run.called.reg .rdi) (pushed p.here p.cpu.rsp error_code) ∧
      Outside (p.cpu.rsp.toNat - 144) p.cpu.rsp.toNat p.cpu.mem run.called.mem ∧
      (p.back run).cpu.mem = (k.functions run.handler run.called).mem ∧
      (p.back run).cpu.out = (0x20, 0x20) :: (k.functions run.handler run.called).out ∧
      (Polite k error_code run (k.functions run.handler run.called) → Resumed k calls p (p.back run)) :=
  (reached.wired loaded).interrupt small room error_code

/-- Any handlers can be registered. -/
theorem Reached.registers {boot : Idt.Cpu} {more : List (ℕ × ℕ)} (reached : Reached k boot calls p)
    (valid : ∀ r ∈ more, Idt.Valid r) : ∃ p', Reached k boot (calls ++ more) p' ∧ p'.cpu.rsp = p.cpu.rsp := by
  induction more generalizing calls p with
  | nil => exact ⟨p, by rw [List.append_nil]; exact reached, rfl⟩
  | cons r more ih =>
    have stored : ∀ b, InTables k b →
        flat (fun a => Idt.add_interrupt_handler k.image r.1 r.2 (flat p.cpu.mem) a.toNat) b =
          Idt.add_interrupt_handler k.image r.1 r.2 (flat p.cpu.mem) b :=
      fun b inside => congrArg _ (in_tables_toNat inside)
    have first : Reached k boot (calls ++ [r])
        { p with cpu.mem := fun a => Idt.add_interrupt_handler k.image r.1 r.2 (flat p.cpu.mem) a.toNat } :=
      .register reached (valid r List.mem_cons_self) rfl stored
    obtain ⟨p', rest, rsp⟩ := ih first fun q member => valid q (List.mem_cons_of_mem r member)
    rw [List.append_assoc] at rest
    exact ⟨p', rest, rsp⟩

end

/-- The tables where the linker put them, with handlers that return. -/
def linked_code : Code where
  image := Idt.linked
  shims := Idt.far_shims
  behind_call := fun v => UInt64.ofNat (Idt.far_shims v + 33)
  functions := fun _ c => set .rsp (c.rsp + 8) c
  distinct := by
    intro u _ v _ same
    unfold Idt.far_shims at same
    omega

/-- The processor when the boot code sets up the tables. -/
def booting : Idt.Cpu := ⟨0, 0, 0, (0, 0), Idt.linked_memory⟩

theorem code_loaded : Idt.Loaded linked_code.image linked_code.shims booting.mem := Idt.linked_loaded

/-- A processor behind the boot code whose stack lies low. -/
theorem linked_reached : ∃ p, Reached linked_code booting [] p ∧ Room linked_code p.cpu := by
  have start : Idt.Filled linked_code.image linked_code.shims 0 booting.mem booting.mem :=
    ⟨fun v less => by omega, fun v less => by omega, fun _ _ => rfl⟩
  obtain ⟨c, looped, -⟩ := Idt.setup_loop (c := { booting with rcx := 0 }) code_loaded 255 rfl rfl start
  obtain ⟨c', ran⟩ : ∃ c', Idt.setup_interrupt_handlers linked_code.image 256 booting = some c' := by
    rw [Idt.setup_interrupt_handlers, looped]
    exact ⟨_, rfl⟩
  have low : 144 ≤ (0x9000 : UInt64).toNat ∧ (0x9000 : UInt64).toNat ≤ Idt.linked.interrupt_functions := by decide
  exact ⟨⟨⟨fun _ => 0x9000, false, fun a => c'.mem a.toNat, []⟩, ⟨0x100abc, 8, 0x202, 0⟩, c'.idtr⟩,
    .boot ran rfl fun b inside => congrArg c'.mem (in_tables_toNat inside), low.1, .inl low.2⟩

/-- The handler of the keyboard is registered. -/
theorem interrupts_dispatched_keyboard : ∃ p run, Reached linked_code booting [(0x21, 0x107000)] p ∧
    interrupt linked_code 0x21 none p = some run ∧
    run.handler = UInt64.ofNat ((Idt.last_registered 0x21 [(0x21, 0x107000)]).getD (Idt.boot_default Idt.linked 0x21)) ∧
    Holds run.called.mem (run.called.reg .rdi) (pushed p.here p.cpu.rsp none) ∧
    Outside (p.cpu.rsp.toNat - 144) p.cpu.rsp.toNat p.cpu.mem run.called.mem ∧
    (p.back run).cpu.mem = (linked_code.functions run.handler run.called).mem ∧
    (p.back run).cpu.out = (0x20, 0x20) :: (linked_code.functions run.handler run.called).out ∧
    (Polite linked_code none run (linked_code.functions run.handler run.called) →
      Resumed linked_code [(0x21, 0x107000)] p (p.back run)) := by
  have valid : ∀ r ∈ [(0x21, 0x107000)], Idt.Valid r := by
    intro r member
    obtain rfl := List.mem_singleton.mp member
    exact ⟨by decide, by decide⟩
  obtain ⟨p, reached, room⟩ := linked_reached
  obtain ⟨p', registered, rsp⟩ := reached.registers valid
  have room' : Room linked_code p'.cpu := ⟨by rw [rsp]; exact room.low, by rw [rsp]; exact room.apart⟩
  obtain ⟨run, ran, rest⟩ := interrupts_dispatched code_loaded registered (by decide : 0x21 < 256) room' none
  exact ⟨p', run, registered, ran, rest⟩

end OsC.Dispatch
