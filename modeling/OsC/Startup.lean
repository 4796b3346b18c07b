import OsC.Idt
import OsC.Pic

/-!
The start of the kernel, with interrupt requests between any two of its steps.
The default handler `i_ok` stops at its `hlt`, as its gate has disabled interrupts.
A request stops the machine so exactly if it is not the timer's and not one of the
keyboard behind the registration of its handler (`never_stops_iff`).
-/
namespace OsC.Startup
open OsC.Bytes OsC.Idt OsC.Pic

/-- The image, and the handlers that the kernel registers. -/
structure Kernel extends Image where
  exception_handler : ℕ → ℕ
  timer_print : ℕ
  keyboard_interrupt : ℕ
  exception_lt : ∀ e, exception_handler e < 2 ^ 64
  timer_lt : timer_print < 2 ^ 64
  keyboard_lt : keyboard_interrupt < 2 ^ 64
  timer_default : i_ok_timer ≠ i_ok
  timer_apart : timer_print ≠ i_ok
  keyboard_apart : keyboard_interrupt ≠ i_ok

/-- The steps of `kernel_main`. The calls without arguments change neither the
    controllers nor the table of functions. -/
inductive Step
  | init_terminal
  | pic_init (master_remap_offset slave_remap_offset : UInt8)
  | add_interrupt_handler (interrupt handler : ℕ)
  | sti
  | outb (port : ℕ) (value : UInt8)
  /-- `value = inb(port) & ~(1 << irq_line)` -/
  | read_mask (irq_line : UInt8)
  /-- `outb(port, value)` -/
  | write_mask (irq_line : UInt8)
  | keyboard_init
  | init_multiboot_data
  | init_allocator
  | remap_kernel
  | init_heap
  deriving DecidableEq, Repr

def exception_ids : List ℕ :=
  [0, 1, 3, 4, 5, 6, 7, 8, 9, 0xa, 0xb, 0xc, 0xd, 0xe, 0x10, 0x11, 0x12, 0x13, 0x14, 0x1e]

def init_exception_handlers (k : Kernel) : List Step :=
  exception_ids.map fun e => .add_interrupt_handler e (k.exception_handler e)

def irq_clear_mask (irq_line : UInt8) : List Step := [.read_mask irq_line, .write_mask irq_line]

def pic_enable_interrupts : List Step := [.sti, .outb 0x64 0x60, .outb 0x60 0x1] ++ irq_clear_mask 1

/-- Up to the endless loop. -/
def kernel_main (k : Kernel) : List Step :=
  [.init_terminal, .pic_init 0x20 0x28] ++ (init_exception_handlers k ++ (pic_enable_interrupts ++
    [.add_interrupt_handler 0x20 k.timer_print, .keyboard_init, .add_interrupt_handler 0x21 k.keyboard_interrupt,
      .init_multiboot_data, .init_allocator, .remap_kernel, .init_heap]))

structure Machine where
  pics : Pics
  mem : Memory
  /-- The variable of `irq_clear_mask`. -/
  value : UInt8
  enabled : Bool
  /-- The processor has executed the `hlt` of `i_ok`. -/
  stopped : Bool
  rest : List Step

/-- What is read of the controllers. -/
def inb (port : ℕ) (p : Pics) : UInt8 := if port = master_pic_data then p.master.imr else p.slave.imr

/-- The port of a line's mask, and the line's number there. -/
def mask_port (irq_line : UInt8) : ℕ × UInt8 :=
  if irq_line < 8 then (master_pic_data, irq_line) else (slave_pic_data, irq_line - 8)

def exec (i : Image) : Step → Machine → Machine
  | .pic_init master slave, m => { m with pics := Pic.pic_init master slave m.pics }
  | .add_interrupt_handler interrupt handler, m => { m with mem := Idt.add_interrupt_handler i interrupt handler m.mem }
  | .sti, m => { m with enabled := true }
  | .outb port value, m => { m with pics := Pic.outb port value m.pics }
  | .read_mask line, m => { m with value := inb (mask_port line).1 m.pics &&& ~~~(1 <<< (mask_port line).2) }
  | .write_mask line, m => { m with pics := Pic.outb (mask_port line).1 m.value m.pics }
  | _, m => m

/-- A line of the slave also needs the cascade. -/
def unmasked (line : Fin 16) (p : Pics) : Bool :=
  if line.val < 8 then !p.master.imr.toNat.testBit line
  else !p.slave.imr.toNat.testBit (line - 8) && !p.master.imr.toNat.testBit 2

/-- The function that the shim of a line calls. -/
def line_function (k : Kernel) (line : Fin 16) (m : Machine) : ℕ := called k.toImage m.mem (vector line m.pics).toNat

/-- `i_ok` stops; other handlers of interrupt requests return 0, and their shims
    enable interrupts again. -/
def interrupt (k : Kernel) (line : Fin 16) (m : Machine) : Machine :=
  if line_function k line m = k.i_ok then { m with pics := deliver line m.pics, stopped := true }
  else { m with pics := interrupt_shim 0 (deliver line m.pics) }

inductive Action
  | kernel
  | irq (line : Fin 16)
  deriving DecidableEq, Repr

/-- The kernel's next step, or a request of a line that is not masked. -/
def step (k : Kernel) (m : Machine) : Action → Option Machine
  | .kernel =>
    if m.stopped then none
    else
      match m.rest with
      | [] => some m
      | s :: rest => some (exec k.toImage s { m with rest := rest })
  | .irq line => if m.enabled && !m.stopped && unmasked line m.pics then some (interrupt k line m) else none

def run (k : Kernel) (actions : List Action) (m : Machine) : Option Machine := actions.foldlM (step k) m

/-- At the call of `kernel_main`. -/
def start (k : Kernel) (boot : Pics) (mem : Memory) : Machine where
  pics := boot
  mem := mem
  value := 0
  enabled := false
  stopped := false
  rest := kernel_main k

/-- The handler of the line is one of those that return. -/
def Returns (k : Kernel) (line : Fin 16) (m : Machine) : Prop :=
  line_function k line m ∈ [k.i_ok_timer, k.timer_print, k.keyboard_interrupt]

/-- The line is the timer's, or it is the keyboard's and the kernel has registered
    the keyboard's handler in its first `n` steps. -/
def Handled (k : Kernel) (n : ℕ) (line : Fin 16) : Prop :=
  line = 0 ∨ line = 1 ∧ .add_interrupt_handler 0x21 k.keyboard_interrupt ∈ (kernel_main k).take n

/-- Every request comes from a line that is handled when it comes. -/
def Prompt (k : Kernel) (actions : List Action) : Prop :=
  ∀ before line, before ++ [.irq line] <+: actions → Handled k (before.count .kernel) line

/-! ### The controllers -/

/-- The vectors of the lines begin at 0x20, and no initialisation is under way. -/
structure Remapped (p : Pics) : Prop where
  master : p.master.offset = 0x20
  slave : p.slave.offset = 0x28
  ended : p.master.icw = 0 ∧ p.slave.icw = 0

section
variable {p : Pics} {line : Fin 16} {k : Kernel} {n : ℕ} {m m' : Machine} {mem : Memory} {actions : List Action}

theorem pic_init_remapped (boot : Pics) : Remapped (Pic.pic_init 0x20 0x28 boot) := ⟨rfl, rfl, rfl, rfl⟩

/-- A write to no command port. -/
theorem Remapped.outb (remapped : Remapped p) {port : ℕ} (data : port ≠ master_pic_command ∧ port ≠ slave_pic_command)
    (value : UInt8) : Remapped (Pic.outb port value p) := by
  obtain ⟨master, slave, first, second⟩ := remapped
  rw [Pic.outb, if_neg data.1]
  split
  · simp [Chip.data, first]
    exact ⟨master, slave, rfl, second⟩
  · rw [if_neg data.2]
    split
    · simp [Chip.data, second]
      exact ⟨master, slave, first, rfl⟩
    · exact ⟨master, slave, first, second⟩

theorem Remapped.set_bits (remapped : Remapped p) (value : Bool) (line : Fin 16) : Remapped (Pic.set_bits value line p) := by
  obtain ⟨master, slave, first, second⟩ := remapped
  have kept : ∀ (c : Chip) (l : Fin 8), (c.set value l).offset = c.offset ∧ (c.set value l).icw = c.icw := by
    intro c l
    rw [Chip.set]
    split
    · exact ⟨rfl, rfl⟩
    · exact ⟨rfl, rfl⟩
  rw [Pic.set_bits]
  split
  · exact ⟨(kept _ _).1.trans master, slave, (kept _ _).2.trans first, second⟩
  · exact ⟨(kept _ _).1.trans master, (kept _ _).1.trans slave, (kept _ _).2.trans first, (kept _ _).2.trans second⟩

theorem Remapped.shim (remapped : Remapped p) : Remapped (interrupt_shim 0 p) := by
  rw [interrupt_shim_eq]
  exact ⟨remapped.master, remapped.slave, remapped.ended⟩

theorem Remapped.vector (remapped : Remapped p) (line : Fin 16) : (Pic.vector line p).toNat = 0x20 + line := by
  rw [Pic.vector, remapped.master, remapped.slave]
  revert line
  decide

/-! ### The steps of the kernel -/

/-- The steps behind `pic_init` write to no command port. -/
def Step.Mild : Step → Prop
  | .pic_init _ _ => False
  | .outb port _ => port ≠ master_pic_command ∧ port ≠ slave_pic_command
  | _ => True

theorem kernel_main_mild (k : Kernel) : ∀ s ∈ (kernel_main k).drop 2, s.Mild := by
  intro s member
  simp [kernel_main, init_exception_handlers, pic_enable_interrupts, irq_clear_mask] at member
  rcases member with ⟨e, -, rfl⟩ | rfl | rfl | rfl | rfl | rfl | rfl | rfl | rfl | rfl | rfl | rfl | rfl <;>
    simp [Step.Mild, master_pic_command, slave_pic_command]

theorem mask_port_data (irq_line : UInt8) :
    (mask_port irq_line).1 ≠ master_pic_command ∧ (mask_port irq_line).1 ≠ slave_pic_command := by
  rw [mask_port]
  split
  · simp [master_pic_data, master_pic_command, slave_pic_command]
  · simp [slave_pic_data, master_pic_command, slave_pic_command]

theorem Step.Mild.remapped {s : Step} (mild : s.Mild) (i : Image) (remapped : Remapped m.pics) : Remapped (exec i s m).pics := by
  cases s with
  | pic_init => exact mild.elim
  | outb port value => exact remapped.outb mild value
  | write_mask line => exact remapped.outb (mask_port_data line) m.value
  | _ => exact remapped

/-- The registrations among the steps. -/
def registrations (steps : List Step) : List (ℕ × ℕ) :=
  steps.filterMap fun
    | .add_interrupt_handler interrupt handler => some (interrupt, handler)
    | _ => none

theorem registrations_append (first second : List Step) :
    registrations (first ++ second) = registrations first ++ registrations second := by
  simp [registrations]

theorem mem_registrations {steps : List Step} {v h : ℕ} :
    (v, h) ∈ registrations steps ↔ .add_interrupt_handler v h ∈ steps := by
  rw [registrations, List.mem_filterMap]
  constructor
  · rintro ⟨s, member, registers⟩
    cases s <;> simp at registers
    obtain ⟨rfl, rfl⟩ := registers
    exact member
  · exact fun member => ⟨_, member, rfl⟩

/-- Below 0x20 the kernel registers handlers of exceptions. -/
theorem kernel_registers (k : Kernel) : ∀ r ∈ registrations (kernel_main k),
    Valid r ∧ (r.1 < 0x20 ∨ r = (0x20, k.timer_print) ∨ r = (0x21, k.keyboard_interrupt)) := by
  have exceptions : ∀ e ∈ exception_ids, e < 0x20 := by decide
  rintro ⟨v, h⟩ member
  rw [mem_registrations] at member
  simp [kernel_main, init_exception_handlers, pic_enable_interrupts, irq_clear_mask] at member
  rcases member with ⟨known, rfl⟩ | ⟨rfl, rfl⟩ | ⟨rfl, rfl⟩
  · have small := exceptions v known
    exact ⟨⟨by simp; omega, k.exception_lt v⟩, .inl small⟩
  · exact ⟨⟨by simp, k.timer_lt⟩, .inr (.inl rfl)⟩
  · exact ⟨⟨by simp, k.keyboard_lt⟩, .inr (.inr rfl)⟩

theorem take_registers (k : Kernel) (n : ℕ) {r : ℕ × ℕ} (member : r ∈ registrations ((kernel_main k).take n)) :
    r ∈ registrations (kernel_main k) := by
  rw [mem_registrations] at member ⊢
  exact List.mem_of_mem_take member

theorem last_registered_mem {v h : ℕ} {calls : List (ℕ × ℕ)} (last : last_registered v calls = some h) : (v, h) ∈ calls := by
  obtain ⟨⟨u, h'⟩, found, rfl⟩ := Option.map_eq_some_iff.mp last
  have member := List.mem_of_getLast? found
  simp at member
  obtain ⟨member, rfl⟩ := member
  exact member

theorem last_registered_none {v h : ℕ} {calls : List (ℕ × ℕ)} (last : last_registered v calls = none) : (v, h) ∉ calls := by
  intro member
  simp [last_registered] at last
  exact last v h member rfl

/-! ### What is reached -/

/-- The machine after `n` steps of the kernel, and any requests. -/
structure Reached (k : Kernel) (mem : Memory) (n : ℕ) (m : Machine) : Prop where
  rest : m.rest = (kernel_main k).drop n
  mem : m.mem = register k.toImage (registrations ((kernel_main k).take n)) mem
  enabled : m.enabled = true → 2 ≤ n
  remapped : 2 ≤ n → Remapped m.pics

theorem start_reached (k : Kernel) (boot : Pics) (mem : Memory) : Reached k mem 0 (start k boot mem) :=
  ⟨rfl, rfl, nofun, nofun⟩

theorem exec_mem (i : Image) (s : Step) (m : Machine) : (exec i s m).mem = register i (registrations [s]) m.mem := by
  cases s <;> rfl

theorem exec_rest (i : Image) (s : Step) (m : Machine) : (exec i s m).rest = m.rest := by
  cases s <;> rfl

theorem exec_stopped (i : Image) (s : Step) (m : Machine) : (exec i s m).stopped = m.stopped := by
  cases s <;> rfl

theorem exec_enabled (i : Image) {s : Step} (other : s ≠ .sti) (m : Machine) : (exec i s m).enabled = m.enabled := by
  cases s <;> first | rfl | contradiction

theorem register_append (i : Image) (first second : List (ℕ × ℕ)) (m : Memory) :
    register i (first ++ second) m = register i second (register i first m) := by
  simp [register]

theorem Reached.kernel (reached : Reached k mem n m) {s : Step} {rest : List Step} (next : m.rest = s :: rest) :
    Reached k mem (n + 1) (exec k.toImage s { m with rest := rest }) := by
  have at_ : (kernel_main k).drop n = s :: rest := reached.rest.symm.trans next
  have less : n < (kernel_main k).length := by
    have positive : 0 < ((kernel_main k).drop n).length := by simp [at_]
    rw [List.length_drop] at positive
    omega
  rw [List.drop_eq_getElem_cons less] at at_
  obtain ⟨here, behind⟩ := List.cons.inj at_
  have taken : (kernel_main k).take (n + 1) = (kernel_main k).take n ++ [s] := by
    rw [List.take_succ_eq_append_getElem less, here]
  refine ⟨?_, ?_, fun enabled => ?_, fun late => ?_⟩
  · rw [exec_rest]
    exact behind.symm
  · rw [exec_mem, taken, registrations_append, register_append]
    exact congrArg _ reached.mem
  · by_cases opens : s = .sti
    · by_contra early
      obtain rfl | rfl : n = 0 ∨ n = 1 := by omega
      · rw [opens] at here
        cases here
      · omega
    · rw [exec_enabled _ opens] at enabled
      exact Nat.le_succ_of_le (reached.enabled enabled)
  · by_cases ready : 2 ≤ n
    · refine Step.Mild.remapped (kernel_main_mild k s ?_) k.toImage (reached.remapped ready)
      have later : s ∈ (kernel_main k).drop n := by
        rw [← reached.rest, next]
        exact List.mem_cons_self
      rw [← Nat.add_sub_cancel' ready, ← List.drop_drop] at later
      exact List.mem_of_mem_drop later
    · obtain rfl : n = 1 := by omega
      obtain rfl : .pic_init 0x20 0x28 = s := here
      exact pic_init_remapped m.pics

theorem Reached.ended (reached : Reached k mem n m) (last : m.rest = []) : Reached k mem (n + 1) m := by
  have behind : (kernel_main k).length ≤ n := by
    rw [reached.rest, List.drop_eq_nil_iff] at last
    exact last
  refine ⟨?_, ?_, fun enabled => Nat.le_succ_of_le (reached.enabled enabled), fun _ => reached.remapped ?_⟩
  · rw [last, List.drop_eq_nil_of_le (by omega)]
  · rw [reached.mem, List.take_of_length_le behind, List.take_of_length_le (by omega)]
  · have long : 2 ≤ (kernel_main k).length := by simp [kernel_main]
    omega

theorem Reached.interrupt (reached : Reached k mem n m) (line : Fin 16) : Reached k mem n (interrupt k line m) := by
  rw [Startup.interrupt]
  split
  · exact ⟨reached.rest, reached.mem, reached.enabled, fun late => (reached.remapped late).set_bits true line⟩
  · exact ⟨reached.rest, reached.mem, reached.enabled, fun late => ((reached.remapped late).set_bits true line).shim⟩

/-! ### The handlers of the lines -/

theorem Reached.function (reached : Reached k mem n m) (late : 2 ≤ n)
    (boot : ∀ v < 256, called k.toImage mem v = boot_default k.toImage v) (line : Fin 16) :
    line_function k line m =
      (last_registered (0x20 + line) (registrations ((kernel_main k).take n))).getD (boot_default k.toImage (0x20 + line)) := by
  have valid : ∀ r ∈ registrations ((kernel_main k).take n), Valid r := fun r member =>
    (kernel_registers k r (take_registers k n member)).1
  rw [line_function, (reached.remapped late).vector line, reached.mem, register_called valid, boot _ (by omega)]

/-- The function of a line that is handled returns, and that of any other is `i_ok`. -/
theorem function_cases (k : Kernel) (n : ℕ) (line : Fin 16) :
    (Handled k n line ∧ (last_registered (0x20 + line) (registrations ((kernel_main k).take n))).getD
        (boot_default k.toImage (0x20 + line)) ∈ [k.i_ok_timer, k.timer_print, k.keyboard_interrupt]) ∨
      ¬ Handled k n line ∧ (last_registered (0x20 + line) (registrations ((kernel_main k).take n))).getD
        (boot_default k.toImage (0x20 + line)) = k.i_ok := by
  cases last : last_registered (0x20 + line) (registrations ((kernel_main k).take n)) with
  | none =>
    rw [Option.getD_none, boot_default]
    by_cases timer : line = 0
    · left
      rw [timer]
      simp [Handled]
    · right
      have other : (0x20 + line : ℕ) ≠ 0x20 := by
        intro same
        exact timer (Fin.ext (by simpa using same))
      refine ⟨?_, by rw [if_neg other]⟩
      rintro (zero | ⟨one, registered⟩)
      · exact timer zero
      · rw [one] at last
        rw [← mem_registrations] at registered
        exact last_registered_none last registered
  | some h =>
    left
    have member := last_registered_mem last
    rw [Option.getD_some]
    obtain ⟨-, exception | timer | keyboard⟩ := kernel_registers k _ (take_registers k n member)
    · simp at exception
    · obtain ⟨v, rfl⟩ := Prod.mk.inj timer
      exact ⟨.inl (Fin.ext (by simpa using v)), by simp⟩
    · obtain ⟨v, rfl⟩ := Prod.mk.inj keyboard
      have value : line.val = 1 := by omega
      have one : line = 1 := Fin.ext value
      rw [one, mem_registrations] at member
      exact ⟨.inr ⟨one, member⟩, by simp⟩

theorem default_absent (k : Kernel) : k.i_ok ∉ [k.i_ok_timer, k.timer_print, k.keyboard_interrupt] := by
  simp [k.timer_default.symm, k.timer_apart.symm, k.keyboard_apart.symm]

theorem Reached.returns_iff (reached : Reached k mem n m) (late : 2 ≤ n)
    (boot : ∀ v < 256, called k.toImage mem v = boot_default k.toImage v) (line : Fin 16) :
    (Returns k line m ↔ Handled k n line) ∧ (line_function k line m = k.i_ok ↔ ¬ Handled k n line) := by
  rw [Returns, reached.function late boot line]
  rcases function_cases k n line with ⟨handled, returns⟩ | ⟨unhandled, default⟩
  · refine ⟨⟨fun _ => handled, fun _ => returns⟩, fun same => ?_, fun unhandled => absurd handled unhandled⟩
    rw [same] at returns
    exact absurd returns (default_absent k)
  · refine ⟨⟨fun returns => ?_, fun handled => absurd handled unhandled⟩, fun _ => unhandled, fun _ => default⟩
    rw [default] at returns
    exact absurd returns (default_absent k)

/-! ### Runs -/

/-- What a step of the kernel is. -/
theorem step_kernel (stepped : step k m .kernel = some m') : m.stopped = false ∧
    (m.rest = [] ∧ m' = m ∨ ∃ s rest, m.rest = s :: rest ∧ m' = exec k.toImage s { m with rest := rest }) := by
  rw [step] at stepped
  split at stepped
  · cases stepped
  · next running =>
    refine ⟨by simpa using running, ?_⟩
    cases left : m.rest with
    | nil =>
      simp [left] at stepped
      exact .inl ⟨rfl, stepped.symm⟩
    | cons s rest =>
      simp [left] at stepped
      exact .inr ⟨s, rest, rfl, stepped.symm⟩

/-- What a request is. -/
theorem step_irq (stepped : step k m (.irq line) = some m') :
    m.enabled = true ∧ m.stopped = false ∧ m' = interrupt k line m := by
  rw [step] at stepped
  split at stepped
  · next legal =>
    simp at legal
    exact ⟨legal.1.1, legal.1.2, (Option.some.inj stepped).symm⟩
  · cases stepped

theorem run_snoc {a : Action} : run k (actions ++ [a]) m = some m' ↔
    ∃ m₀, run k actions m = some m₀ ∧ step k m₀ a = some m' := by
  simp [run, List.foldlM_append, Option.bind_eq_some_iff]

theorem count_irq (actions : List Action) (line : Fin 16) :
    (actions ++ [Action.irq line]).count Action.kernel = actions.count Action.kernel := by
  simp

theorem prompt_snoc (a : Action) : Prompt k (actions ++ [a]) ↔
    Prompt k actions ∧ ∀ line, a = .irq line → Handled k (actions.count .kernel) line := by
  simp only [Prompt, List.prefix_concat_iff]
  constructor
  · intro prompt
    refine ⟨fun before line within => prompt before line (.inr within), ?_⟩
    rintro line rfl
    exact prompt actions line (.inl rfl)
  · rintro ⟨earlier, last⟩ before line (whole | within)
    · obtain ⟨rfl, same⟩ := List.append_inj' whole rfl
      exact last line (List.cons.inj same).1.symm
    · exact earlier before line within

theorem reached_of_run (boot : Pics) (ran : run k actions (start k boot mem) = some m) :
    Reached k mem (actions.count .kernel) m := by
  induction actions using List.reverseRecOn generalizing m with
  | nil =>
    cases ran
    exact start_reached k boot mem
  | append_singleton actions a ih =>
    obtain ⟨m₀, earlier, stepped⟩ := run_snoc.mp ran
    have reached := ih earlier
    cases a with
    | kernel =>
      rw [List.count_append, List.count_singleton_self]
      obtain ⟨-, ⟨last, rfl⟩ | ⟨s, rest, next, rfl⟩⟩ := step_kernel stepped
      · exact reached.ended last
      · exact reached.kernel next
    | irq line =>
      obtain ⟨-, -, interrupted⟩ := step_irq stepped
      rw [count_irq, interrupted]
      exact reached.interrupt line

theorem interrupt_stopped (running : m.stopped = false) :
    (interrupt k line m).stopped = false ↔ line_function k line m ≠ k.i_ok := by
  rw [interrupt]
  split
  · next same => simp [same]
  · next other => simp [other, running]

theorem stopped_iff (boot : Pics) (defaults : ∀ v < 256, called k.toImage mem v = boot_default k.toImage v)
    (ran : run k actions (start k boot mem) = some m) : m.stopped = false ↔ Prompt k actions := by
  induction actions using List.reverseRecOn generalizing m with
  | nil =>
    cases ran
    exact ⟨fun _ before line within => by simp at within, fun _ => rfl⟩
  | append_singleton actions a ih =>
    obtain ⟨m₀, earlier, stepped⟩ := run_snoc.mp ran
    rw [prompt_snoc]
    cases a with
    | kernel =>
      obtain ⟨running, next⟩ := step_kernel stepped
      have prompt := (ih earlier).mp running
      refine ⟨fun _ => ⟨prompt, nofun⟩, fun _ => ?_⟩
      obtain ⟨-, rfl⟩ | ⟨s, rest, -, rfl⟩ := next
      · exact running
      · rw [exec_stopped]
        exact running
    | irq line =>
      obtain ⟨enabled, running, interrupted⟩ := step_irq stepped
      have prompt := (ih earlier).mp running
      have reached := reached_of_run boot earlier
      obtain ⟨-, default⟩ := reached.returns_iff (reached.enabled enabled) defaults line
      rw [interrupted, interrupt_stopped running, Ne, default, not_not]
      constructor
      · intro handled
        refine ⟨prompt, ?_⟩
        rintro _ ⟨rfl⟩
        exact handled
      · exact fun both => both.2 line rfl

/-- The boot code fills the table with the defaults. -/
theorem setup_defaults {i : Image} {shims : ℕ → ℕ} {c c' : Cpu} (loaded : Loaded i shims c.mem)
    (setup : setup_interrupt_handlers i 256 c = some c') : ∀ v < 256, called i c'.mem v = boot_default i v := by
  have empty : Filled i shims 0 c.mem c.mem := ⟨fun v less => by omega, fun v less => by omega, fun b _ => rfl⟩
  obtain ⟨c'', ran, filled⟩ := setup_loop (c := { c with rcx := 0 }) loaded 255 rfl rfl empty
  rw [setup_interrupt_handlers, ran] at setup
  obtain rfl := Option.some.inj setup
  rw [lidt_mem]
  exact filled.functions

/-! ### Runs without requests -/

/-- The state that steps lead to, whatever steps remain. -/
def executed (i : Image) (steps : List Step) (m : Machine) : Machine := steps.foldl (fun m s => exec i s m) m

theorem exec_frame (i : Image) (s : Step) (m : Machine) (mem : Memory) (rest : List Step) :
    ∃ mem', exec i s { m with mem := mem, rest := rest } = { exec i s m with mem := mem', rest := rest } := by
  cases s <;> exact ⟨_, rfl⟩

theorem executed_frame (i : Image) (steps : List Step) (m : Machine) (mem : Memory) (rest : List Step) :
    ∃ mem', executed i steps { m with mem := mem, rest := rest } = { executed i steps m with mem := mem', rest := rest } := by
  induction steps generalizing m mem with
  | nil => exact ⟨mem, rfl⟩
  | cons s steps ih =>
    obtain ⟨mem', first⟩ := exec_frame i s m mem rest
    obtain ⟨mem'', others⟩ := ih (exec i s m) mem'
    refine ⟨mem'', ?_⟩
    rw [executed, List.foldl_cons, first]
    exact others

theorem steps_run (first rest : List Step) (running : m.stopped = false) (left : m.rest = first ++ rest) :
    ∃ m', run k (List.replicate first.length .kernel) m = some m' ∧ m'.stopped = false ∧
      m'.pics = (executed k.toImage first m).pics ∧ m'.enabled = (executed k.toImage first m).enabled := by
  induction first generalizing m with
  | nil => exact ⟨m, rfl, running, rfl, rfl⟩
  | cons s first ih =>
    obtain ⟨mem', framed⟩ := exec_frame k.toImage s m m.mem (first ++ rest)
    have stepped : step k m .kernel = some (exec k.toImage s { m with rest := first ++ rest }) := by
      simp [step, running, left]
    obtain ⟨mem'', others⟩ := executed_frame k.toImage first (exec k.toImage s m) mem' (first ++ rest)
    obtain ⟨m', ran, goes, pics, enabled⟩ := ih (m := exec k.toImage s { m with rest := first ++ rest })
      (by rw [exec_stopped]; exact running) (by rw [exec_rest])
    rw [framed, others] at pics enabled
    refine ⟨m', ?_, goes, pics, enabled⟩
    rw [List.length_cons, List.replicate_succ, run, List.foldlM_cons, stepped]
    exact ran

/-- A request may come behind the first steps of the kernel if the line is not masked then. -/
theorem request_run (boot : Pics) (mem : Memory) (line : Fin 16) (within : n ≤ (kernel_main k).length)
    (enabled : (executed k.toImage ((kernel_main k).take n) (start k boot fun _ => 0)).enabled = true)
    (opened : unmasked line (executed k.toImage ((kernel_main k).take n) (start k boot fun _ => 0)).pics = true) :
    ∃ m, run k (List.replicate n Action.kernel ++ [Action.irq line]) (start k boot mem) = some m := by
  obtain ⟨m, ran, running, pics, on⟩ := steps_run (k := k) (m := start k boot mem) _ _ rfl
    (List.take_append_drop n (kernel_main k)).symm
  obtain ⟨mem', framed⟩ := executed_frame k.toImage ((kernel_main k).take n) (start k boot fun _ => 0) mem (kernel_main k)
  have start_eq : start k boot mem = { start k boot fun _ => 0 with mem := mem, rest := kernel_main k } := rfl
  rw [start_eq, framed] at pics on
  rw [List.length_take, Nat.min_eq_left within] at ran
  refine ⟨interrupt k line m, run_snoc.mpr ⟨m, ran, ?_⟩⟩
  rw [step, pics, on]
  simp [running, enabled, opened]

/-- Whatever the firmware left masked, a run has not stopped in `i_ok` exactly if
    every request came from a line that was handled, and while interrupts are
    enabled the lines that are handled are those whose handler returns. -/
theorem never_stops_iff {shims : ℕ → ℕ} {c c' : Cpu} (loaded : Loaded k.toImage shims c.mem)
    (setup : setup_interrupt_handlers k.toImage 256 c = some c') (boot : Pics)
    (ran : run k actions (start k boot c'.mem) = some m) : (m.stopped = false ↔ Prompt k actions) ∧
      (m.enabled = true → ∀ line, Returns k line m ↔ Handled k (actions.count .kernel) line) := by
  have defaults := setup_defaults loaded setup
  refine ⟨stopped_iff boot defaults ran, fun enabled line => ?_⟩
  have reached := reached_of_run boot ran
  exact (reached.returns_iff (reached.enabled enabled) defaults line).1

end

def linked_kernel : Kernel where
  toImage := linked
  exception_handler := fun _ => 0x104000
  timer_print := 0x105000
  keyboard_interrupt := 0x106000
  exception_lt := fun _ => by decide
  timer_lt := by decide
  keyboard_lt := by decide
  timer_default := by decide
  timer_apart := by decide
  keyboard_apart := by decide

/-- Controllers with the timer's line alone unmasked. -/
def firmware : Pics := { power_on with
  master := { power_on.master with imr := 0xfe }
  slave := { power_on.slave with imr := 0xff } }

theorem linked_setup : ∃ c', setup_interrupt_handlers linked_kernel.toImage 256 ⟨0, 0, 0, (0, 0), linked_memory⟩ = some c' := by
  have empty : Filled linked_kernel.toImage far_shims 0 linked_memory linked_memory :=
    ⟨fun v less => by omega, fun v less => by omega, fun b _ => rfl⟩
  obtain ⟨c', ran, -⟩ := setup_loop (i := linked_kernel.toImage) (c := ⟨0, 0, 0, (0, 0), linked_memory⟩) linked_loaded 255 rfl rfl empty
  exact ⟨_, by rw [setup_interrupt_handlers, ran]; rfl⟩

/-- The timer's request comes right after `sti`. -/
theorem never_stops_iff_timer : ∃ (c' : Cpu) (m : Machine),
    run linked_kernel (List.replicate 23 Action.kernel ++ [Action.irq 0]) (start linked_kernel firmware c'.mem) = some m ∧
      (m.stopped = false ↔ Prompt linked_kernel (List.replicate 23 Action.kernel ++ [Action.irq 0])) ∧
      (m.enabled = true → ∀ line, Returns linked_kernel line m ↔
        Handled linked_kernel ((List.replicate 23 Action.kernel ++ [Action.irq 0]).count .kernel) line) := by
  obtain ⟨c', setup⟩ := linked_setup
  obtain ⟨m, ran⟩ := request_run (k := linked_kernel) (n := 23) firmware c'.mem 0 (by decide) (by decide +kernel)
    (by decide +kernel)
  exact ⟨c', m, ran, never_stops_iff (k := linked_kernel) (c := ⟨0, 0, 0, (0, 0), linked_memory⟩) linked_loaded setup firmware ran⟩

/-- A key is pressed when `irq_clear_mask` has opened the line of the keyboard. -/
theorem key_stops : ∃ (c' : Cpu) (m : Machine),
    setup_interrupt_handlers linked_kernel.toImage 256 ⟨0, 0, 0, (0, 0), linked_memory⟩ = some c' ∧
      run linked_kernel (List.replicate 27 Action.kernel ++ [Action.irq 1]) (start linked_kernel firmware c'.mem) = some m ∧
        m.stopped = true := by
  obtain ⟨c', setup⟩ := linked_setup
  have defaults : ∀ v < 256, called linked_kernel.toImage c'.mem v = boot_default linked_kernel.toImage v :=
    setup_defaults (i := linked_kernel.toImage) (c := ⟨0, 0, 0, (0, 0), linked_memory⟩) linked_loaded setup
  obtain ⟨m, ran⟩ := request_run (k := linked_kernel) (n := 27) firmware c'.mem 1 (by decide) (by decide +kernel)
    (by decide +kernel)
  refine ⟨c', m, setup, ran, ?_⟩
  by_contra running
  have prompt := (stopped_iff firmware defaults ran).mp (eq_false_of_ne_true running)
  have handled : Handled linked_kernel ((List.replicate 27 Action.kernel).count .kernel) 1 := prompt _ 1 (List.prefix_refl _)
  have absent : .add_interrupt_handler 0x21 linked_kernel.keyboard_interrupt ∉ (kernel_main linked_kernel).take 27 := by
    decide +kernel
  rcases handled with zero | ⟨-, registered⟩
  · cases zero
  · exact absent registered

end OsC.Startup
