import OsC.Bytes
import Mathlib.Data.List.Induction
import Mathlib.Logic.Function.Basic

/-!
The shims of the interrupt vectors. Each saves the registers that a handler may
change, calls the handler that is registered for the vector with the address of
what the processor pushed, and leaves over one of two exits, depending on
whether there is an error code (`interrupt_shim_restores`).
-/
namespace OsC.Shim
open OsC.Bytes

/-! ### Words on a stack -/

/-- Memory with 64-bit addresses, which wrap. -/
abbrev Ram := UInt64 → UInt8

/-- The bytes from an address on. -/
def from_address (m : Ram) (a : UInt64) : Memory := fun k => m (a + UInt64.ofNat k)

def load (m : Ram) (a : UInt64) : UInt64 := UInt64.ofNat (read (from_address m a) 0 8)

def store (m : Ram) (a v : UInt64) : Ram := fun b =>
  if (b - a).toNat < 8 then UInt8.ofNat (v.toNat / 256 ^ (b - a).toNat) else m b

/-- The words lie in memory one behind the other. -/
def Holds (m : Ram) : UInt64 → List UInt64 → Prop
  | _, [] => True
  | a, v :: vs => load m a = v ∧ Holds m (a + 8) vs

section
variable {m m' : Ram} {a v : UInt64} {vs : List UInt64}

theorem offset_eq (a : UInt64) {k : ℕ} (small : k < 2 ^ 64) : (a + UInt64.ofNat k - a).toNat = k := by
  rw [UInt64.add_comm, UInt64.add_sub_cancel, UInt64.toNat_ofNat']
  omega

theorem load_store (m : Ram) (a v : UInt64) : load (store m a v) a = v := by
  have bytes : read (from_address (store m a v) a) 0 8 = v.toNat := by
    refine read_of_bytes 8 0 v.toNat (fun j less => ?_) v.toNat_lt
    rw [from_address, Nat.zero_add, store, offset_eq a (by omega), if_pos less]
  rw [load, bytes, UInt64.ofNat_toNat]

theorem load_congr (same : ∀ k < 8, m' (a + UInt64.ofNat k) = m (a + UInt64.ofNat k)) : load m' a = load m a := by
  rw [load, load, read_congr 8 0 fun k _ less => ?_]
  exact same k (by omega)

theorem Holds.congr (holds : Holds m a vs) (same : ∀ k < 8 * vs.length, m' (a + UInt64.ofNat k) = m (a + UInt64.ofNat k)) :
    Holds m' a vs := by
  induction vs generalizing a with
  | nil => trivial
  | cons v vs ih =>
    rw [List.length_cons] at same
    refine ⟨(load_congr fun k less => same k (by omega)).trans holds.1, ih holds.2 fun k less => ?_⟩
    have shifted : a + 8 + UInt64.ofNat k = a + UInt64.ofNat (8 + k) := by
      rw [UInt64.ofNat_add, ← UInt64.add_assoc]
      rfl
    rw [shifted]
    exact same (8 + k) (by omega)

/-- A word pushed below others. -/
theorem Holds.push (holds : Holds m a vs) (few : 8 * vs.length + 8 ≤ 2 ^ 64) : Holds (store m (a - 8) v) (a - 8) (v :: vs) := by
  refine ⟨load_store m (a - 8) v, ?_⟩
  rw [UInt64.sub_add_cancel]
  refine holds.congr fun k less => ?_
  have above : (a + UInt64.ofNat k - (a - 8)).toNat = k + 8 := by
    have shifted : a + UInt64.ofNat k = a - 8 + UInt64.ofNat (8 + k) := by
      rw [UInt64.ofNat_add, ← UInt64.add_assoc]
      exact congrArg (· + UInt64.ofNat k) (UInt64.sub_add_cancel a 8).symm
    rw [shifted, offset_eq _ (by omega), Nat.add_comm]
  rw [store, above, if_neg (by omega)]

end
/-! ### The code -/

inductive Reg
  | rax | rbx | rcx | rdx | rsi | rdi | rbp | rsp | r8 | r9 | r10 | r11 | r12 | r13 | r14 | r15
  deriving DecidableEq, Repr

/-- The general registers, the direction flag, memory and what was written to ports, the newest first. -/
structure Cpu where
  reg : Reg → UInt64
  df : Bool
  mem : Ram
  out : List (ℕ × UInt8)

def Cpu.rsp (c : Cpu) : UInt64 := c.reg .rsp

def Cpu.eax (c : Cpu) : ℕ := (c.reg .rax).toNat % 2 ^ 32

def set (r : Reg) (v : UInt64) (c : Cpu) : Cpu := { c with reg := Function.update c.reg r v }

def push_word (v : UInt64) (c : Cpu) : Cpu :=
  let c := set .rsp (c.rsp - 8) c
  { c with mem := store c.mem c.rsp v }

def push (r : Reg) (c : Cpu) : Cpu := push_word (c.reg r) c

def pop (r : Reg) (c : Cpu) : Cpu :=
  let v := load c.mem c.rsp
  set r v (set .rsp (c.rsp + 8) c)

def pushes (rs : List Reg) (c : Cpu) : Cpu := rs.foldl (fun c r => push r c) c

def pops (rs : List Reg) (c : Cpu) : Cpu := rs.foldl (fun c r => pop r c) c

def save_registers : Cpu → Cpu := pushes [.rax, .rcx, .rdx, .rsi, .rdi, .r8, .r9, .r10, .r11]

def restore_registers : Cpu → Cpu := pops [.r11, .r10, .r9, .r8, .rdi, .rsi, .rdx, .rcx, .rax]

def cld (c : Cpu) : Cpu := { c with df := false }

/-- A `mov` to `eax` clears the high half of `rax`. -/
def mov_eax (v : ℕ) (c : Cpu) : Cpu := set .rax (UInt64.ofNat (v % 2 ^ 32)) c

def mov_al (v : UInt8) (c : Cpu) : Cpu := set .rax (c.reg .rax - UInt64.ofNat ((c.reg .rax).toNat % 2 ^ 8) + v.toUInt64) c

def out_al (port : ℕ) (c : Cpu) : Cpu := { c with out := (port, (c.reg .rax).toUInt8) :: c.out }

/-- The address of the table of functions, and the addresses behind the calls of the shims. -/
structure Image where
  interrupt_functions : ℕ
  behind_call : ℕ → UInt64

/-- What the function at each address does, from its first instruction to its return. -/
abbrev Functions := UInt64 → Cpu → Cpu

/-- A run of a shim: the function that it calls, the processor when that begins, and at `iretq`. -/
structure Run where
  handler : UInt64
  called : Cpu
  iretq : Cpu

def interrupt_shim_x (i : Image) (functions : Functions) (x : ℕ) (c : Cpu) : Run :=
  let c := save_registers c
  let c := cld c
  let c := set .rdi c.rsp c
  let c := set .rdi (c.reg .rdi + 0x48) c
  let c := mov_eax 0 c
  let handler := load c.mem (UInt64.ofNat (i.interrupt_functions + x * 8))
  let called := push_word (i.behind_call x) c
  let c := functions handler called
  if c.eax = 0 then
    let c := mov_al 0x20 c
    let c := out_al 0x20 c
    ⟨handler, called, restore_registers c⟩
  else
    -- .restore_and_pop_stack
    let c := mov_al 0x20 c
    let c := out_al 0x20 c
    let c := restore_registers c
    ⟨handler, called, set .rsp (c.rsp + 8) c⟩

/-! ### What the processor pushes -/

/-- What an interrupt leaves to come back to. -/
structure Interrupted where
  rip : UInt64
  cs : UInt64
  rflags : UInt64
  ss : UInt64

/-- The processor aligns its stack and pushes the interrupted state. -/
def push_frame (f : Interrupted) (c : Cpu) : Cpu :=
  let rsp := c.rsp
  let c := set .rsp (UInt64.ofNat (c.rsp.toNat / 16 * 16)) c
  let c := push_word f.ss c
  let c := push_word rsp c
  let c := push_word f.rflags c
  let c := push_word f.cs c
  push_word f.rip c

/-- It pushes the error code too, if the vector has one. -/
def deliver (f : Interrupted) (error_code : Option UInt64) (c : Cpu) : Cpu :=
  match error_code with
  | some error_code => push_word error_code (push_frame f c)
  | none => push_frame f c

/-- The address of the instruction pointer that the processor pushed: behind the error code, if there is one. -/
def instruction_ptr (c : Cpu) (has_error : Bool) : UInt64 := if has_error then c.rsp + 8 else c.rsp

/-- A function that obeys the calling convention returns with its stack pointer and the registers that it is to
    save, and leaves alone the 72 bytes behind its return address, where the shim saved the others. -/
structure Obeys (called returned : Cpu) : Prop where
  rsp : returned.rsp = called.rsp + 8
  saved : ∀ r ∈ [Reg.rbx, .rbp, .r12, .r13, .r14, .r15], returned.reg r = called.reg r
  frame : ∀ k < 72, returned.mem (called.rsp + 8 + UInt64.ofNat k) = called.mem (called.rsp + 8 + UInt64.ofNat k)

/-! ### Pushing and popping -/

section
variable {c : Cpu} {r : Reg} {v : UInt64} {vs : List UInt64} {rs : List Reg}

@[simp] theorem set_reg (r r' : Reg) (v : UInt64) (c : Cpu) : (set r v c).reg r' = if r' = r then v else c.reg r' := by
  simp [set, Function.update_apply]

@[simp] theorem set_mem (r : Reg) (v : UInt64) (c : Cpu) : (set r v c).mem = c.mem := rfl

@[simp] theorem set_rsp (v : UInt64) (c : Cpu) : (set .rsp v c).rsp = v := by simp [Cpu.rsp]

theorem set_rsp_other (other : r ≠ .rsp) (v : UInt64) (c : Cpu) : (set r v c).rsp = c.rsp := by
  simp [Cpu.rsp, other.symm]

theorem push_rsp (v : UInt64) (c : Cpu) : (push_word v c).rsp = c.rsp - 8 := set_rsp _ c

theorem push_reg (other : r ≠ .rsp) (v : UInt64) (c : Cpu) : (push_word v c).reg r = c.reg r := by
  simp [push_word, other]

theorem push_mem (v : UInt64) (c : Cpu) : (push_word v c).mem = store c.mem (c.rsp - 8) v := by
  simp [push_word]

/-- Pushing registers keeps the registers and what is on the stack. -/
theorem pushes_run (rs : List Reg) (c : Cpu) (vs : List UInt64) (apart : .rsp ∉ rs) (holds : Holds c.mem c.rsp vs)
    (few : 8 * (vs.length + rs.length) ≤ 2 ^ 64) :
    (∀ r, r ≠ .rsp → (pushes rs c).reg r = c.reg r) ∧ (pushes rs c).rsp = c.rsp - 8 * UInt64.ofNat rs.length ∧
      Holds (pushes rs c).mem (pushes rs c).rsp ((rs.map c.reg).reverse ++ vs) := by
  induction rs generalizing c vs with
  | nil => exact ⟨fun _ _ => rfl, by simp [pushes], holds⟩
  | cons r rs ih =>
    simp only [List.mem_cons, not_or, List.length_cons] at apart few
    have first : Holds (push r c).mem (push r c).rsp (c.reg r :: vs) := by
      rw [push, push_mem, push_rsp]
      exact holds.push (by omega)
    obtain ⟨regs, rsp, rest⟩ := ih (push r c) (c.reg r :: vs) apart.2 first (by simp only [List.length_cons]; omega)
    have same : rs.map (push r c).reg = rs.map c.reg :=
      List.map_congr_left fun q member => push_reg (fun here => apart.2 (here ▸ member)) _ c
    refine ⟨fun q other => (regs q other).trans (push_reg other _ c), ?_, ?_⟩
    · have count : UInt64.ofNat (rs.length + 1) = UInt64.ofNat rs.length + 1 := UInt64.ofNat_add _ _
      have below : (push r c).rsp = c.rsp - 8 := push_rsp _ c
      rw [List.length_cons, count]
      refine rsp.trans ?_
      rw [below]
      grind
    · rw [same] at rest
      rw [List.map_cons, List.reverse_cons, List.append_assoc]
      exact rest

theorem pop_rsp (other : r ≠ .rsp) (c : Cpu) : (pop r c).rsp = c.rsp + 8 := by
  rw [pop, set_rsp_other other, set_rsp]

/-- Popping gives the registers the values on the stack. -/
theorem pops_run (c : Cpu) (value : Reg → UInt64) (apart : .rsp ∉ rs) (holds : Holds c.mem c.rsp (rs.map value)) :
    (∀ r ∈ rs, (pops rs c).reg r = value r) ∧ (∀ r ∉ rs, r ≠ .rsp → (pops rs c).reg r = c.reg r) ∧
      (pops rs c).rsp = c.rsp + 8 * UInt64.ofNat rs.length := by
  induction rs generalizing c with
  | nil => exact ⟨by simp, fun _ _ _ => rfl, by simp [pops]⟩
  | cons r rs ih =>
    simp only [List.mem_cons, not_or] at apart
    have other : r ≠ .rsp := Ne.symm apart.1
    have above := pop_rsp other c
    obtain ⟨inside, outside, rsp⟩ := ih (pop r c) apart.2 (by rw [above]; exact holds.2)
    refine ⟨fun q member => ?_, fun q notIn notStack => ?_, ?_⟩
    · by_cases later : q ∈ rs
      · exact inside q later
      · obtain rfl : q = r := (List.mem_cons.mp member).resolve_right later
        refine (outside q later other).trans ?_
        rw [pop, set_reg, if_pos rfl]
        exact holds.1
    · simp only [List.mem_cons, not_or] at notIn
      refine (outside q notIn.2 notStack).trans ?_
      rw [pop, set_reg, if_neg notIn.1, set_reg, if_neg notStack]
    · have count : UInt64.ofNat (rs.length + 1) = UInt64.ofNat rs.length + 1 := UInt64.ofNat_add _ _
      rw [List.length_cons, count]
      refine rsp.trans ?_
      rw [above]
      grind

theorem holds_push_word (v : UInt64) (c : Cpu) : Holds (push_word v c).mem (push_word v c).rsp [v] := by
  rw [push_mem, push_rsp]
  exact ⟨load_store _ _ _, trivial⟩

/-- The instruction pointer lies there. -/
theorem deliver_instruction_ptr (f : Interrupted) (error_code : Option UInt64) (c : Cpu) :
    load (deliver f error_code c).mem (instruction_ptr (deliver f error_code c) error_code.isSome) = f.rip := by
  have framed : Holds (push_frame f c).mem (push_frame f c).rsp [f.rip] := holds_push_word f.rip _
  cases error_code with
  | none => exact framed.1
  | some error_code =>
    have both := framed.push (v := error_code) (by simp)
    have same := push_mem error_code (push_frame f c)
    rw [← push_rsp error_code (push_frame f c)] at both same
    rw [← same] at both
    exact both.2.1

/-! ### The shim -/

/-- The registers that the shim saves, in the order of its pushes. -/
def caller_saved : List Reg := [.rax, .rcx, .rdx, .rsi, .rdi, .r8, .r9, .r10, .r11]

/-- The registers that a function is to save are none of those that the shim itself changes. -/
theorem callee_saved_other {r : Reg} (member : r ∈ [Reg.rbx, .rbp, .r12, .r13, .r14, .r15]) : r ≠ .rsp ∧ r ≠ .rdi ∧ r ≠ .rax := by
  revert member
  cases r <;> decide

/-- Each register is restored by the shim, or saved by the function that it calls. -/
theorem saved_by_either {r : Reg} (popped : r ∉ caller_saved.reverse) (other : r ≠ .rsp) :
    r ∈ [Reg.rbx, .rbp, .r12, .r13, .r14, .r15] := by
  revert popped other
  cases r <;> decide

/-- With a stack that holds the registers saved in `c`, the last instructions restore them. -/
theorem restore_registers_run {c c' : Cpu} (holds : Holds c'.mem c'.rsp ((caller_saved.map c.reg).reverse))
    (saved : ∀ r ∈ [Reg.rbx, .rbp, .r12, .r13, .r14, .r15], c'.reg r = c.reg r) :
    (∀ r, r ≠ .rsp → (restore_registers c').reg r = c.reg r) ∧ (restore_registers c').rsp = c'.rsp + 72 := by
  rw [← List.map_reverse] at holds
  obtain ⟨inside, outside, rsp⟩ := pops_run c' c.reg (by decide) holds
  refine ⟨fun r other => ?_, rsp⟩
  by_cases popped : r ∈ caller_saved.reverse
  · exact inside r popped
  · exact (outside r popped other).trans (saved r (saved_by_either popped other))

/-- The code behind the call. -/
def leave (c : Cpu) : Cpu :=
  if c.eax = 0 then restore_registers (out_al 0x20 (mov_al 0x20 c))
  else
    let c := restore_registers (out_al 0x20 (mov_al 0x20 c))
    set .rsp (c.rsp + 8) c

/-- The processor before the call, and when the handler begins. -/
def prepare (c : Cpu) : Cpu :=
  let c := cld (save_registers c)
  let c := set .rdi c.rsp c
  let c := set .rdi (c.reg .rdi + 0x48) c
  mov_eax 0 c

def enter (i : Image) (x : ℕ) (c : Cpu) : Cpu := push_word (i.behind_call x) (prepare c)

/-- The function that the shim of a vector calls. -/
def handler (i : Image) (x : ℕ) (c : Cpu) : UInt64 := load (prepare c).mem (UInt64.ofNat (i.interrupt_functions + x * 8))

theorem interrupt_shim_eq (i : Image) (functions : Functions) (x : ℕ) (c : Cpu) : interrupt_shim_x i functions x c =
    ⟨handler i x c, enter i x c, leave (functions (handler i x c) (enter i x c))⟩ := by
  by_cases exit : (functions (handler i x c) (enter i x c)).eax = 0
  · rw [leave, if_pos exit]
    exact if_pos exit
  · rw [leave, if_neg exit]
    exact if_neg exit

theorem prepare_run (c : Cpu) : (prepare c).reg .rdi = c.rsp ∧ (prepare c).rsp = c.rsp - 72 ∧
    (∀ r ∈ [Reg.rbx, .rbp, .r12, .r13, .r14, .r15], (prepare c).reg r = c.reg r) ∧
    Holds (prepare c).mem (prepare c).rsp ((caller_saved.map c.reg).reverse) := by
  obtain ⟨regs, rsp, holds⟩ := pushes_run caller_saved c [] (by decide) trivial (by decide)
  rw [List.append_nil] at holds
  have below : (pushes caller_saved c).rsp = c.rsp - 72 := rsp
  have same : (prepare c).rsp = (pushes caller_saved c).rsp := by
    simp [prepare, mov_eax, save_registers, cld, Cpu.rsp, caller_saved]
  have mem : (prepare c).mem = (pushes caller_saved c).mem := rfl
  refine ⟨?_, same.trans below, fun r member => ?_, ?_⟩
  · have behind : (prepare c).reg .rdi = (pushes caller_saved c).rsp + 0x48 := by
      simp [prepare, mov_eax, save_registers, cld, Cpu.rsp, caller_saved]
    rw [behind, below]
    exact UInt64.sub_add_cancel c.rsp 72
  · obtain ⟨notStack, notRdi, notRax⟩ := callee_saved_other member
    refine Eq.trans ?_ (regs r notStack)
    simp [prepare, mov_eax, save_registers, cld, notRdi, notRax, caller_saved]
  · rw [mem, same]
    exact holds

/-- When the handler begins, its stack holds the registers that the shim saved behind the return address. -/
theorem enter_run (i : Image) (x : ℕ) (c : Cpu) : (enter i x c).reg .rdi = c.rsp ∧ (enter i x c).rsp + 8 = c.rsp - 72 ∧
    (∀ r ∈ [Reg.rbx, .rbp, .r12, .r13, .r14, .r15], (enter i x c).reg r = c.reg r) ∧
    Holds (enter i x c).mem (c.rsp - 72) ((caller_saved.map c.reg).reverse) := by
  obtain ⟨rdi, rsp, saved, holds⟩ := prepare_run c
  have kept : ∀ r, r ≠ .rsp → (enter i x c).reg r = (prepare c).reg r := fun r other => push_reg other _ _
  refine ⟨(kept _ (by decide)).trans rdi, ?_, fun r member => ?_, ?_⟩
  · rw [enter, push_rsp, ← rsp]
    exact UInt64.sub_add_cancel _ 8
  · rw [kept r (callee_saved_other member).1, saved r member]
  · have pushed := (holds.push (v := i.behind_call x) (by simp [caller_saved])).2
    rwa [UInt64.sub_add_cancel, ← push_mem, rsp] at pushed

/-- Behind the call, both exits restore all registers and lead to the instruction pointer. -/
theorem leave_run {returned : Cpu} {has_error : Bool} (stack : Holds returned.mem returned.rsp ((caller_saved.map c.reg).reverse))
    (saved : ∀ r ∈ [Reg.rbx, .rbp, .r12, .r13, .r14, .r15], returned.reg r = c.reg r) (rsp : returned.rsp = c.rsp - 72)
    (tells : returned.eax ≠ 0 ↔ has_error = true) :
    (∀ r, r ≠ .rsp → (leave returned).reg r = c.reg r) ∧ (leave returned).rsp = instruction_ptr c has_error := by
  -- The byte for the interrupt controller is written from a register that is restored behind it.
  have acknowledged : ∀ r ∈ [Reg.rbx, .rbp, .r12, .r13, .r14, .r15], (out_al 0x20 (mov_al 0x20 returned)).reg r = c.reg r := by
    intro r member
    rw [← saved r member]
    simp [out_al, mov_al, (callee_saved_other member).2.2]
  have stackAgain : Holds (out_al 0x20 (mov_al 0x20 returned)).mem (out_al 0x20 (mov_al 0x20 returned)).rsp
      ((caller_saved.map c.reg).reverse) := stack
  obtain ⟨restored, above⟩ := restore_registers_run stackAgain acknowledged
  have home : (restore_registers (out_al 0x20 (mov_al 0x20 returned))).rsp = c.rsp := by
    have same : (out_al 0x20 (mov_al 0x20 returned)).rsp = returned.rsp := rfl
    rw [above, same, rsp]
    exact UInt64.sub_add_cancel c.rsp 72
  by_cases exit : returned.eax = 0
  · have none : has_error = false := by
      cases has_error with
      | false => rfl
      | true => exact absurd exit (tells.mpr rfl)
    rw [leave, if_pos exit, none]
    exact ⟨restored, home⟩
  · rw [leave, if_neg exit, tells.mp exit]
    refine ⟨fun r other => ?_, ?_⟩
    · simp only [set_reg, if_neg other]
      exact restored r other
    · simp only [set_rsp, home]
      rfl

theorem interrupt_shim_run {i : Image} {functions : Functions} {x : ℕ} {has_error : Bool} {run : Run}
    (ran : interrupt_shim_x i functions x c = run) (obeys : Obeys run.called (functions run.handler run.called))
    (tells : (functions run.handler run.called).eax ≠ 0 ↔ has_error = true) :
    run.called.reg .rdi = c.rsp ∧ (∀ r, r ≠ .rsp → run.iretq.reg r = c.reg r) ∧
      run.iretq.rsp = instruction_ptr c has_error := by
  rw [interrupt_shim_eq] at ran
  subst ran
  dsimp only at obeys tells ⊢
  obtain ⟨rdi, rsp, saved, holds⟩ := enter_run i x c
  -- The saved registers survive the call.
  have frame := obeys.frame
  have back := obeys.rsp
  rw [rsp] at frame back
  refine ⟨rdi, leave_run ?_ ?_ back tells⟩
  · rw [back]
    exact holds.congr fun k less => frame k less
  · intro r member
    rw [obeys.saved r member, saved r member]

end

/-- For any vector, state and handler that obeys the calling convention and tells
    the error code, the handler gets the address of what the processor pushed, and at `iretq` all registers are as
    before and the stack pointer is at the instruction pointer that the processor pushed. -/
theorem interrupt_shim_restores (i : Image) (functions : Functions) (x : ℕ) (c : Cpu) (has_error : Bool) {run : Run}
    (ran : interrupt_shim_x i functions x c = run) (obeys : Obeys run.called (functions run.handler run.called))
    (tells : (functions run.handler run.called).eax ≠ 0 ↔ has_error = true) :
    run.called.reg .rdi = c.rsp ∧ (∀ r, r ≠ .rsp → run.iretq.reg r = c.reg r) ∧
      run.iretq.rsp = instruction_ptr c has_error ∧
      ∀ f error_code before, c = deliver f error_code before → error_code.isSome = has_error →
        load c.mem run.iretq.rsp = f.rip := by
  obtain ⟨rdi, registers, rsp⟩ := interrupt_shim_run ran obeys tells
  refine ⟨rdi, registers, rsp, fun f error_code before delivered pushed => ?_⟩
  rw [rsp, delivered, ← pushed]
  exact deliver_instruction_ptr f error_code before

/-- A handler that clobbers a register and returns 1. -/
def report_fault : Functions := fun _ c => mov_eax 1 (set .rcx 0x5555 (set .rsp (c.rsp + 8) c))

/-- A processor whose `rax` differs from the other registers. -/
def interrupted : Cpu := ⟨fun r => if r = .rax then 7 else 0x9000, true, fun _ => 0, []⟩

/-- The processor at the shim after a page fault. -/
def faulted : Cpu := deliver ⟨0x100abc, 8, 0x202, 0⟩ (some 2) interrupted

theorem interrupt_shim_restores_page_fault :
    let run := interrupt_shim_x ⟨0x5000, fun _ => 0x100020⟩ report_fault 14 faulted
    run.called.reg .rdi = faulted.rsp ∧ (∀ r, r ≠ .rsp → run.iretq.reg r = faulted.reg r) ∧
      run.iretq.rsp = faulted.rsp + 8 ∧
      ∀ f error_code before, faulted = deliver f error_code before → error_code.isSome = true →
        load faulted.mem run.iretq.rsp = f.rip := by
  refine interrupt_shim_restores _ report_fault 14 faulted true rfl ⟨?_, ?_, fun k _ => rfl⟩ ?_
  · simp [report_fault, mov_eax, set_rsp_other]
  · intro r member
    have others : r ≠ .rsp ∧ r ≠ .rcx ∧ r ≠ .rax := by
      revert member
      cases r <;> decide
    simp [report_fault, mov_eax, others.1, others.2.1, others.2.2]
  · simp [report_fault, mov_eax, Cpu.eax]

end OsC.Shim
