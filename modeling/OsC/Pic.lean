import Mathlib.Data.Fintype.Basic
import Mathlib.Logic.Function.Basic
import Mathlib.Data.Nat.Notation

/-!
The cascaded pair of 8259 interrupt controllers and the shims. Every shim
acknowledges on the master, and nowhere else: so it clears exactly what its own
interrupt request set if the request is one of the master's lines and no
exception occurs before the acknowledgement (`acknowledged_iff`).
-/
namespace OsC.Pic

/-! ### The controllers -/

/-- The bits of the lines that are in service. -/
abbrev InService := Fin 8 → Bool

structure Chip where
  /-- The base of the vectors (ICW2), the cascade (ICW3) and the mode (ICW4). -/
  offset : UInt8
  cascade : UInt8
  mode : UInt8
  /-- The mask. -/
  imr : UInt8
  isr : InService
  /-- The initialisation word that the data port expects next; 0 for none. -/
  icw : ℕ
  deriving DecidableEq

structure Pics where
  master : Chip
  slave : Chip
  deriving DecidableEq

def pic_icw4_needed : UInt8 := 0x1
def pic_ICW1_use : UInt8 := 0x10
def pic_x86_mode : UInt8 := 0x1
def PIC_EOI : UInt8 := 0x20

/-- Line 0 has the highest priority. -/
def highest (isr : InService) : Option (Fin 8) := (List.finRange 8).find? isr

def clear_highest (isr : InService) : InService :=
  match highest isr with
  | some line => Function.update isr line false
  | none => isr

/-- A write to the command port: the first initialisation word, or an end of interrupt. -/
def Chip.command (value : UInt8) (c : Chip) : Chip :=
  if value &&& pic_ICW1_use ≠ 0 then { c with imr := 0, icw := 2 }
  else if value = PIC_EOI then { c with isr := clear_highest c.isr }
  else c

/-- A write to the data port: the next initialisation word of a cascaded chip, or the mask. -/
def Chip.data (value : UInt8) (c : Chip) : Chip :=
  if c.icw = 2 then { c with offset := value &&& 0xf8, icw := 3 }
  else if c.icw = 3 then { c with cascade := value, icw := 4 }
  else if c.icw = 4 then { c with mode := value, icw := 0 }
  else { c with imr := value }

def master_pic_command : ℕ := 0x20
def master_pic_data : ℕ := 0x21
def slave_pic_command : ℕ := 0xA0
def slave_pic_data : ℕ := 0xA1

/-- Other ports, as that of `io_wait`, belong to no controller. -/
def outb (port : ℕ) (value : UInt8) (p : Pics) : Pics :=
  if port = master_pic_command then { p with master := p.master.command value }
  else if port = master_pic_data then { p with master := p.master.data value }
  else if port = slave_pic_command then { p with slave := p.slave.command value }
  else if port = slave_pic_data then { p with slave := p.slave.data value }
  else p

def io_wait (p : Pics) : Pics := outb 0x80 0 p

def pic_init (master_remap_offset slave_remap_offset : UInt8) (p : Pics) : Pics :=
  let master_mask := p.master.imr
  let slave_mask := p.slave.imr
  let p := io_wait (outb master_pic_command (pic_ICW1_use + pic_icw4_needed) p)
  let p := io_wait (outb slave_pic_command (pic_ICW1_use + pic_icw4_needed) p)
  let p := io_wait (outb master_pic_data master_remap_offset p)
  let p := io_wait (outb slave_pic_data slave_remap_offset p)
  let p := io_wait (outb master_pic_data 4 p)
  let p := io_wait (outb slave_pic_data 2 p)
  let p := io_wait (outb master_pic_data pic_x86_mode p)
  let p := io_wait (outb slave_pic_data pic_x86_mode p)
  outb slave_pic_data slave_mask (outb master_pic_data master_mask p)

/-- Nothing calls this. -/
def pic_write_EOI (irq : UInt8) (p : Pics) : Pics :=
  let p := if irq > 8 then outb slave_pic_command PIC_EOI p else p
  outb master_pic_command PIC_EOI p

/-- The bit of a line on its own chip. -/
def bit (line : Fin 16) : Fin 8 := ⟨line % 8, Nat.mod_lt _ (by decide)⟩

/-- In a mode without automatic end of interrupt, a bit is set on delivery. -/
def Chip.set (value : Bool) (line : Fin 8) (c : Chip) : Chip :=
  if c.mode &&& 2 = 0 then { c with isr := Function.update c.isr line value } else c

/-- The bits of an interrupt request: its own, and for a line of the slave also
    that of the cascade on the master. -/
def set_bits (value : Bool) (line : Fin 16) (p : Pics) : Pics :=
  if line.val < 8 then { p with master := p.master.set value (bit line) }
  else { master := p.master.set value 2, slave := p.slave.set value (bit line) }

def deliver (line : Fin 16) (p : Pics) : Pics := set_bits true line p

/-- The vector of a line. -/
def vector (line : Fin 16) (p : Pics) : UInt8 :=
  if line.val < 8 then p.master.offset + UInt8.ofNat line else p.slave.offset + UInt8.ofNat (line - 8)

/-! ### The shims -/

/-- What a shim does after its handler has returned; `eax` says whether the error
    code is popped. -/
def interrupt_shim (eax : ℕ) (p : Pics) : Pics :=
  if eax ≠ 0 then outb 0x20 0x20 p else outb 0x20 0x20 p

/-- An exception, what its handler returns, and the exceptions that occur while
    its shim runs, before and after the acknowledgement. -/
inductive Exception
  | mk (vector : Fin 32) (eax : ℕ) (before after : List Exception)

/-- A shim that is run while no other is: an interrupt gate lets no interrupt
    request into a shim, but exceptions. -/
inductive Event
  | irq (line : Fin 16) (eax : ℕ) (before after : List Exception)
  | exception (e : Exception)

mutual

def Exception.run : Exception → Pics → Pics
  | .mk _ eax before after, p => run_all after (interrupt_shim eax (run_all before p))

def run_all : List Exception → Pics → Pics
  | [], p => p
  | e :: es, p => run_all es (e.run p)

end

def Event.run : Event → Pics → Pics
  | .irq line eax before after, p => run_all after (interrupt_shim eax (run_all before (deliver line p)))
  | .exception e, p => e.run p

mutual

/-- Neither the exception nor any in its shim acknowledges anything. -/
def Exception.Clean : Exception → Pics → Prop
  | .mk vector eax before after, p => AllClean before p ∧ AllClean after (interrupt_shim eax (run_all before p)) ∧
    Exception.run (.mk vector eax before after) p = p

def AllClean : List Exception → Pics → Prop
  | [], _ => True
  | e :: es, p => e.Clean p ∧ AllClean es (e.run p)

end

/-- The run leaves cleared exactly the bits that its own request set, and so do the runs in it. -/
def Event.Clean : Event → Pics → Prop
  | .irq line eax before after, p => AllClean before (deliver line p) ∧
    AllClean after (interrupt_shim eax (run_all before (deliver line p))) ∧
    Event.run (.irq line eax before after) p = set_bits false line p
  | .exception e, p => e.Clean p

/-- Every run of a history does. -/
def Clean : List Event → Pics → Prop
  | [], _ => True
  | e :: es, p => e.Clean p ∧ Clean es (e.run p)

/-- The request comes from the master's lines, and no exception occurs before it is acknowledged. -/
def Event.Simple : Event → Prop
  | .irq line _ before _ => line.val < 8 ∧ before = []
  | .exception _ => True

/-! ### Idle controllers -/

/-- No bit is set, and both controllers have been initialised for explicit acknowledgement. -/
structure Idle (p : Pics) : Prop where
  master : ∀ line, p.master.isr line = false
  slave : ∀ line, p.slave.isr line = false
  explicit : p.master.mode &&& 2 = 0 ∧ p.slave.mode &&& 2 = 0

section
variable {p : Pics} {line : Fin 16}

theorem pic_init_idle {boot : Pics} (master : ∀ line, boot.master.isr line = false)
    (slave : ∀ line, boot.slave.isr line = false) : Idle (pic_init 0x20 0x28 boot) := by
  have mode : (pic_init 0x20 0x28 boot).master.mode = pic_x86_mode := rfl
  have mode' : (pic_init 0x20 0x28 boot).slave.mode = pic_x86_mode := rfl
  refine ⟨master, slave, ?_⟩
  rw [mode, mode']
  decide

theorem outb_master_EOI (p : Pics) : outb master_pic_command PIC_EOI p =
    { p with master := { p.master with isr := clear_highest p.master.isr } } := rfl

theorem outb_slave_EOI (p : Pics) : outb slave_pic_command PIC_EOI p =
    { p with slave := { p.slave with isr := clear_highest p.slave.isr } } := rfl

theorem interrupt_shim_eq (eax : ℕ) (p : Pics) : interrupt_shim eax p =
    { p with master := { p.master with isr := clear_highest p.master.isr } } := by
  rw [interrupt_shim, ite_self]
  exact outb_master_EOI p

/-! ### Acknowledgements -/

theorem clear_highest_empty {isr : InService} (empty : ∀ line, isr line = false) : clear_highest isr = isr := by
  have none : isr = fun _ => false := funext empty
  rw [none]
  decide

theorem clear_highest_one (line : Fin 8) : clear_highest (Function.update (fun _ => false) line true) = fun _ => false := by
  revert line
  decide

/-- An acknowledgement clears a bit, if one is set. -/
theorem clear_highest_changes {isr : InService} {line : Fin 8} (isSet : isr line = true) : clear_highest isr ≠ isr := by
  unfold clear_highest highest
  cases found : (List.finRange 8).find? isr with
  | none =>
    have unset := List.find?_eq_none.mp found line (List.mem_finRange line)
    exact absurd isSet unset
  | some first =>
    intro same
    have set_ := List.find?_some found
    have cleared : Function.update isr first false first = isr first := congrFun same first
    rw [Function.update_self, set_] at cleared
    cases cleared

theorem interrupt_shim_empty (eax : ℕ) (empty : ∀ line, p.master.isr line = false) : interrupt_shim eax p = p := by
  rw [interrupt_shim_eq, clear_highest_empty empty]

/-! ### Exceptions -/

mutual

/-- With nothing in service, an exception is clean whatever occurs in it. -/
theorem Exception.clean_of_empty : ∀ (e : Exception) {p : Pics}, (∀ line, p.master.isr line = false) → e.Clean p ∧ e.run p = p
  | .mk vector eax before after, p, empty => by
    obtain ⟨first, same⟩ := all_clean_of_empty before empty
    obtain ⟨last, same'⟩ := all_clean_of_empty after empty
    have ran : Exception.run (.mk vector eax before after) p = p := by
      rw [Exception.run, same, interrupt_shim_empty eax empty, same']
    rw [Exception.Clean, same, interrupt_shim_empty eax empty]
    exact ⟨⟨first, last, ran⟩, ran⟩

theorem all_clean_of_empty : ∀ (es : List Exception) {p : Pics}, (∀ line, p.master.isr line = false) →
    AllClean es p ∧ run_all es p = p
  | [], p, _ => ⟨trivial, rfl⟩
  | e :: es, p, empty => by
    obtain ⟨first, same⟩ := e.clean_of_empty empty
    obtain ⟨rest, same'⟩ := all_clean_of_empty es empty
    rw [AllClean, run_all, same]
    exact ⟨⟨first, rest⟩, same'⟩

end

theorem Exception.Clean.run {e : Exception} (clean : e.Clean p) : e.run p = p := by
  cases e with
  | mk vector eax before after =>
    rw [Exception.Clean] at clean
    exact clean.2.2

theorem run_all_of_clean {es : List Exception} (clean : AllClean es p) : run_all es p = p := by
  induction es generalizing p with
  | nil => rfl
  | cons e es ih =>
    rw [AllClean] at clean
    obtain ⟨first, rest⟩ := clean
    rw [first.run] at rest
    rw [run_all, first.run, ih rest]

/-- An exception that occurs while a line of the master is in service acknowledges it. -/
theorem Exception.not_clean {line : Fin 8} (isSet : p.master.isr line = true) (e : Exception) : ¬ e.Clean p := by
  intro clean
  have ran := clean.run
  cases e with
  | mk vector eax before after =>
    rw [Exception.Clean] at clean
    obtain ⟨first, last, _⟩ := clean
    rw [run_all_of_clean first] at last
    rw [Exception.run, run_all_of_clean first, run_all_of_clean last, interrupt_shim_eq] at ran
    have same : clear_highest p.master.isr = p.master.isr := congrArg (fun q => q.master.isr) ran
    exact clear_highest_changes isSet same

/-! ### Interrupt requests -/

theorem set_bits_idle (idle : Idle p) (line : Fin 16) : set_bits false line p = p := by
  have kept : ∀ (isr : InService) (l : Fin 8), (∀ line, isr line = false) → Function.update isr l false = isr := by
    intro isr l empty
    rw [← empty l]
    exact Function.update_eq_self l isr
  simp only [set_bits, Chip.set, idle.explicit.1, idle.explicit.2, if_true, kept _ _ idle.master, kept _ _ idle.slave]
  split
  · rfl
  · rfl

theorem deliver_master (idle : Idle p) (onMaster : line.val < 8) : deliver line p =
    { p with master := { p.master with isr := Function.update p.master.isr (bit line) true } } := by
  rw [deliver, set_bits, if_pos onMaster, Chip.set, if_pos idle.explicit.1]

theorem deliver_slave (idle : Idle p) (onSlave : ¬ line.val < 8) : deliver line p =
    { master := { p.master with isr := Function.update p.master.isr 2 true }
      slave := { p.slave with isr := Function.update p.slave.isr (bit line) true } } := by
  rw [deliver, set_bits, if_neg onSlave, Chip.set, Chip.set, if_pos idle.explicit.1, if_pos idle.explicit.2]

/-- A line of the master is acknowledged by its shim. -/
theorem irq_acknowledged (idle : Idle p) (onMaster : line.val < 8) (eax : ℕ) : interrupt_shim eax (deliver line p) = p := by
  have empty : p.master.isr = fun _ => false := funext idle.master
  rw [deliver_master idle onMaster, interrupt_shim_eq]
  dsimp only
  rw [empty, clear_highest_one, ← empty]

/-- `pic_write_EOI` would acknowledge every line but the first of the slave. -/
theorem pic_write_EOI_iff (idle : Idle p) (line : Fin 16) :
    pic_write_EOI (UInt8.ofNat line) (deliver line p) = p ↔ line ≠ 8 := by
  have empty : p.master.isr = fun _ => false := funext idle.master
  have empty' : p.slave.isr = fun _ => false := funext idle.slave
  have beyond : UInt8.ofNat line > 8 ↔ 8 < line.val := by
    revert line
    decide
  by_cases onMaster : line.val < 8
  · have acknowledged := irq_acknowledged idle onMaster 0
    rw [pic_write_EOI, if_neg (by rw [beyond]; omega)]
    refine ⟨fun _ same => ?_, fun _ => acknowledged⟩
    rw [same] at onMaster
    exact absurd onMaster (by decide)
  · by_cases first : line = 8
    · refine ⟨fun same => ?_, fun other => absurd first other⟩
      have unset := idle.slave (bit line)
      rw [pic_write_EOI, if_neg (by rw [beyond, first]; decide), deliver_slave idle onMaster] at same
      rw [← same, outb_master_EOI] at unset
      dsimp only at unset
      rw [Function.update_self] at unset
      cases unset
    · have above : 8 < line.val := by
        have : line.val ≠ 8 := fun same => first (Fin.ext same)
        omega
      have master : clear_highest (Function.update p.master.isr 2 true) = p.master.isr := by rw [empty, clear_highest_one]
      have slave : clear_highest (Function.update p.slave.isr (bit line) true) = p.slave.isr := by
        rw [empty', clear_highest_one]
      refine ⟨fun _ => first, fun _ => ?_⟩
      rw [pic_write_EOI, if_pos (beyond.mpr above), deliver_slave idle onMaster, outb_slave_EOI, outb_master_EOI]
      dsimp only
      rw [master, slave]

theorem Event.clean_iff (idle : Idle p) (e : Event) : e.Clean p ↔ e.Simple := by
  cases e with
  | exception e => exact ⟨fun _ => trivial, fun _ => (e.clean_of_empty idle.master).1⟩
  | irq line eax before after =>
    constructor
    · rintro ⟨first, last, whole⟩
      rw [run_all_of_clean first] at last
      by_cases onMaster : line.val < 8
      · cases before with
        | nil => exact ⟨onMaster, rfl⟩
        | cons e es =>
          have isSet : (deliver line p).master.isr (bit line) = true := by
            rw [deliver_master idle onMaster]
            exact Function.update_self _ _ _
          rw [AllClean] at first
          exact absurd first.1 (e.not_clean isSet)
      · rw [Event.run, run_all_of_clean first, run_all_of_clean last, interrupt_shim_eq, set_bits_idle idle,
          deliver_slave idle onMaster] at whole
        have unset := idle.slave (bit line)
        rw [← whole] at unset
        dsimp only at unset
        rw [Function.update_self] at unset
        cases unset
    · rintro ⟨onMaster, rfl⟩
      obtain ⟨clean, same⟩ := all_clean_of_empty after idle.master
      have acknowledged := irq_acknowledged idle onMaster eax
      rw [Event.Clean, run_all, acknowledged, Event.run, run_all, acknowledged, same, set_bits_idle idle]
      exact ⟨trivial, clean, rfl⟩

theorem Event.simple_run (idle : Idle p) {e : Event} (simple : e.Simple) : e.run p = p := by
  cases e with
  | exception e => exact (e.clean_of_empty idle.master).2
  | irq line eax before after =>
    obtain ⟨onMaster, rfl⟩ := simple
    rw [Event.run, run_all, irq_acknowledged idle onMaster]
    exact (all_clean_of_empty after idle.master).2

theorem clean_iff (idle : Idle p) (events : List Event) : Clean events p ↔ ∀ e ∈ events, e.Simple := by
  induction events with
  | nil => simp [Clean]
  | cons e events ih =>
    rw [Clean, e.clean_iff idle, List.forall_mem_cons]
    constructor
    · rintro ⟨simple, rest⟩
      rw [e.simple_run idle simple] at rest
      exact ⟨simple, ih.mp rest⟩
    · rintro ⟨simple, rest⟩
      rw [e.simple_run idle simple]
      exact ⟨simple, ih.mpr rest⟩

/-- After `pic_init`, each run of a history leaves cleared exactly the bits that
    its own request set if and only if every request comes from the master's lines
    and no exception occurs in its shim before the acknowledgement. -/
theorem acknowledged_iff {boot : Pics} (master : ∀ line, boot.master.isr line = false)
    (slave : ∀ line, boot.slave.isr line = false) (events : List Event) :
    Clean events (pic_init 0x20 0x28 boot) ↔ ∀ e ∈ events, e.Simple :=
  clean_iff (pic_init_idle master slave) events

end

/-- Controllers as they are before the initialisation, with no line masked. -/
def power_on : Pics where
  master := ⟨0, 0, 0, 0, fun _ => false, 0⟩
  slave := ⟨0, 0, 0, 0, fun _ => false, 0⟩

/-- The timer, the keyboard and a division by zero. -/
theorem acknowledged_iff_timer : Clean [.irq 0 0 [] [], .irq 1 0 [] [], .exception (.mk 0 0 [] [])] (pic_init 0x20 0x28 power_on) ↔
    ∀ e ∈ [Event.irq 0 0 [] [], .irq 1 0 [] [], .exception (.mk 0 0 [] [])], e.Simple :=
  acknowledged_iff (fun _ => rfl) (fun _ => rfl) _

/-- The clock of line 8 stays in service on the slave. -/
theorem clock_unacknowledged : ¬ Clean [.irq 8 0 [] []] (pic_init 0x20 0x28 power_on) := by
  rintro ⟨⟨_, _, whole⟩, _⟩
  have slave : (Event.run (.irq 8 0 [] []) (pic_init 0x20 0x28 power_on)).slave.isr 0 = true := by decide
  rw [whole] at slave
  revert slave
  decide

end OsC.Pic
