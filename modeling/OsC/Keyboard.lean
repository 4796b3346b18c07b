import OsC.Printf
import Mathlib.Data.List.Induction

/-!
The keyboard. A byte of the encoder arrives with each interrupt; a release is
0xf0 and the key's code. The bytes stay in step with the keys, and the table of
characters is read inside, exactly if no key is an extended one and no pressed
key has a code behind the table (`keys_served_iff`).
-/
namespace OsC.Keyboard
open OsC.Vga OsC.Printf

/-- The number of elements of `ascii_key`. -/
def ascii_key_size : ℕ := 0x90

/-- The assignments of `keyboard_init`. -/
def assignments : List (ℕ × UInt8) :=
  [(0x15, code 'Q'), (0x16, code '1'), (0x21, code 'C'), (0x22, code 'X'), (0x23, code 'D'), (0x24, code 'E'),
    (0x25, code '4'), (0x26, code '3'), (0x29, code ' '), (0x31, code 'N'), (0x32, code 'B'), (0x33, code 'H'),
    (0x34, code 'G'), (0x35, code 'Y'), (0x36, code '6'), (0x41, code ','), (0x42, code 'K'), (0x43, code 'I'),
    (0x44, code 'O'), (0x45, code '0'), (0x46, code '9'), (0x49, code '.'), (0x52, 39), (0x54, code '['),
    (0x55, code '='), (0x69, code '1'), (0x70, code '0'), (0x71, code '.'), (0x72, code '2'), (0x73, code '5'),
    (0x74, code '6'), (0x75, code '8'), (0x79, newline), (0x0D, tab), (0x0E, 96), (0x1A, code 'Z'),
    (0x1B, code 'S'), (0x1C, code 'A'), (0x1D, code 'W'), (0x1E, code '2'), (0x2A, code 'V'), (0x2B, code 'F'),
    (0x2C, code 'T'), (0x2D, code 'R'), (0x2E, code '5'), (0x3A, code 'M'), (0x3B, code 'J'), (0x3C, code 'U'),
    (0x3D, code '7'), (0x3E, code '8'), (0x4A, code '/'), (0x4A, code '/'), (0x4B, code 'L'), (0x4C, code ';'),
    (0x4D, code 'P'), (0x4E, code '-'), (0x4E, code '-'), (0x5A, newline), (0x5B, code ']'), (0x5C, backslash),
    (0x6B, code '4'), (0x6C, code '7'), (0x7A, code '3'), (0x7C, code '+'), (0x7D, code '9'), (0x7E, code '*')]
/-- The memory from the first element of `ascii_key` on. -/
abbrev Table := ℕ → UInt8

def keyboard_init (ascii_key : Table) : Table :=
  assignments.foldl (fun table a => Function.update table a.1 a.2) ascii_key

def key_relased_code : UInt8 := 0xf0

/-- The flags for the shift key and the locks are not read. -/
structure State where
  ascii_key : Table
  keyboard_key_released : Bool
  terminal : Terminal
  /-- The indices at which `ascii_key` was read, the newest first. -/
  indices : List ℕ

/-- The handler for a byte of the encoder, with what it returns. -/
def keyboard_interrupt (byte : UInt8) (k : State) : ℕ × State :=
  if byte = key_relased_code then (0, { k with keyboard_key_released := true })
  else if k.keyboard_key_released then (0, { k with keyboard_key_released := false })
  else
    let ascii := k.ascii_key byte.toNat
    let k := { k with indices := byte.toNat :: k.indices }
    if ascii ≠ 0 then (0, { k with terminal := terminal_print_char ascii k.terminal })
    else (0, k)

/-- The keyboard after `keyboard_init`, with any memory behind the table. -/
def ready (behind : Table) (t : Terminal) : State where
  ascii_key := keyboard_init fun i => if i < ascii_key_size then 0 else behind i
  keyboard_key_released := false
  terminal := t
  indices := []

/-! ### Keys -/

inductive Event
  | press (extended : Bool) (scan : UInt8)
  | release (extended : Bool) (scan : UInt8)
  deriving DecidableEq, Repr

def extension (extended : Bool) : List UInt8 := if extended then [0xe0] else []

/-- The bytes of scan code set 2. -/
def encode : Event → List UInt8
  | .press extended scan => extension extended ++ [scan]
  | .release extended scan => extension extended ++ [key_relased_code, scan]

/-- One interrupt for each byte. -/
def feed (bytes : List UInt8) (k : State) : State := bytes.foldl (fun k byte => (keyboard_interrupt byte k).2) k

def run (events : List Event) (k : State) : State := feed (events.flatMap encode) k

/-- What a pressed key shows. -/
def type_char (c : UInt8) (t : Terminal) : Terminal := if c ≠ 0 then terminal_print_char c t else t

/-- The table is read inside, no release is pending between two events, a release
    prints nothing, and a plain key with a code inside the table its character. -/
structure Served (events : List Event) (k : State) : Prop where
  indices : ∀ i ∈ (run events k).indices, i < ascii_key_size
  boundary : ∀ before, before <+: events → (run before k).keyboard_key_released = false
  releases : ∀ before extended scan, before ++ [.release extended scan] <+: events →
    (run (before ++ [.release extended scan]) k).terminal = (run before k).terminal
  presses : ∀ before scan, before ++ [.press false scan] <+: events → scan.toNat < ascii_key_size →
    (run (before ++ [.press false scan]) k).terminal = type_char (k.ascii_key scan.toNat) (run before k).terminal

/-- A plain key, which the table holds if it is pressed. -/
def Event.Simple : Event → Prop
  | .press extended scan => extended = false ∧ scan.toNat < ascii_key_size
  | .release extended scan => extended = false ∧ scan ≠ key_relased_code

/-! ### One event -/

section
variable {k : State} {events : List Event} {e : Event}

@[simp] theorem feed_nil (k : State) : feed [] k = k := rfl

@[simp] theorem feed_cons (byte : UInt8) (bytes : List UInt8) (k : State) :
    feed (byte :: bytes) k = feed bytes (keyboard_interrupt byte k).2 := rfl

theorem run_append (first second : List Event) (k : State) : run (first ++ second) k = run second (run first k) := by
  simp only [run, feed, List.flatMap_append, List.foldl_append]

theorem run_snoc (events : List Event) (e : Event) (k : State) : run (events ++ [e]) k = feed (encode e) (run events k) := by
  rw [run_append]
  simp [run]

/-- An index that was read stays recorded. -/
theorem interrupt_indices (byte : UInt8) (k : State) : k.indices ⊆ (keyboard_interrupt byte k).2.indices := by
  rw [keyboard_interrupt]
  split
  · simp
  · split
    · simp
    · dsimp only
      split
      · simp
      · simp

theorem feed_indices (bytes : List UInt8) (k : State) : k.indices ⊆ (feed bytes k).indices := by
  induction bytes generalizing k with
  | nil => simp
  | cons byte bytes ih =>
    intro i member
    exact ih _ (interrupt_indices byte k member)

theorem run_prefix_indices {before : List Event} (within : before <+: events) (k : State) :
    (run before k).indices ⊆ (run events k).indices := by
  obtain ⟨after, rfl⟩ := within
  rw [run_append]
  exact feed_indices _ _

theorem released (k : State) : keyboard_interrupt key_relased_code k = (0, { k with keyboard_key_released := true }) := by
  simp [keyboard_interrupt]

theorem skipped {byte : UInt8} (other : byte ≠ key_relased_code) (pending : k.keyboard_key_released = true) :
    keyboard_interrupt byte k = (0, { k with keyboard_key_released := false }) := by
  simp [keyboard_interrupt, other, pending]

/-- Any other byte is looked up, whatever it is. -/
theorem looked_up {byte : UInt8} (other : byte ≠ key_relased_code) (idle : k.keyboard_key_released = false) :
    keyboard_interrupt byte k = (0, { k with
      indices := byte.toNat :: k.indices
      terminal := type_char (k.ascii_key byte.toNat) k.terminal }) := by
  simp only [keyboard_interrupt, other, idle, type_char]
  split
  · contradiction
  · split
    · contradiction
    · split
      · rfl
      · rfl

theorem inside_other {scan : UInt8} (inside : scan.toNat < ascii_key_size) : scan ≠ key_relased_code := by
  rintro rfl
  exact absurd inside (by decide)

theorem press_run {scan : UInt8} (inside : scan.toNat < ascii_key_size) (idle : k.keyboard_key_released = false) :
    feed (encode (.press false scan)) k = { k with
      indices := scan.toNat :: k.indices
      terminal := type_char (k.ascii_key scan.toNat) k.terminal } := by
  simp [encode, extension, looked_up (inside_other inside) idle]

theorem release_run {scan : UInt8} (other : scan ≠ key_relased_code) (idle : k.keyboard_key_released = false) :
    feed (encode (.release false scan)) k = k := by
  obtain ⟨table, flag, terminal, indices⟩ := k
  obtain rfl : flag = false := idle
  simp [encode, extension, released, skipped other]

/-- The first byte of an extended key is looked up behind the table. -/
theorem extended_reads (idle : k.keyboard_key_released = false) (bytes : List UInt8) :
    0xe0 ∈ (feed (0xe0 :: bytes) k).indices := by
  have first : keyboard_interrupt 0xe0 k = (0, { k with
      indices := 0xe0 :: k.indices
      terminal := type_char (k.ascii_key 0xe0) k.terminal }) := looked_up (by decide) idle
  rw [feed_cons, first]
  exact feed_indices bytes _ List.mem_cons_self

/-- What holds between the events of simple keys. -/
structure InStep (table : Table) (k : State) : Prop where
  idle : k.keyboard_key_released = false
  ascii_key : k.ascii_key = table
  indices : ∀ i ∈ k.indices, i < ascii_key_size

theorem InStep.event {table : Table} (inStep : InStep table k) (simple : e.Simple) : InStep table (feed (encode e) k) := by
  cases e with
  | press extended scan =>
    obtain ⟨rfl, inside⟩ := simple
    rw [press_run inside inStep.idle]
    exact ⟨inStep.idle, inStep.ascii_key, List.forall_mem_cons.mpr ⟨inside, inStep.indices⟩⟩
  | release extended scan =>
    obtain ⟨rfl, other⟩ := simple
    rw [release_run other inStep.idle]
    exact inStep

/-- An event that is not simple makes the code lose step or leave the table. -/
theorem simple_of_served (idle : k.keyboard_key_released = false)
    (indices : ∀ i ∈ (feed (encode e) k).indices, i < ascii_key_size)
    (boundary : (feed (encode e) k).keyboard_key_released = false) : e.Simple := by
  have beyond : ¬ 0xe0 < ascii_key_size := by decide
  cases e with
  | press extended scan =>
    cases extended with
    | true => exact absurd (indices 0xe0 (extended_reads idle _)) beyond
    | false =>
      by_cases other : scan = key_relased_code
      · obtain rfl := other
        simp [encode, extension, released] at boundary
      · simp [encode, extension, looked_up other idle] at indices
        exact ⟨rfl, indices.1⟩
  | release extended scan =>
    cases extended with
    | true => exact absurd (indices 0xe0 (extended_reads idle _)) beyond
    | false =>
      refine ⟨rfl, fun same => ?_⟩
      obtain rfl := same
      simp [encode, extension, released] at boundary

/-! ### A sequence of events -/

theorem InStep.run {table : Table} (inStep : InStep table k) (simple : ∀ e ∈ events, e.Simple) : InStep table (run events k) := by
  induction events using List.reverseRecOn with
  | nil => exact inStep
  | append_singleton events e ih =>
    rw [run_snoc]
    exact (ih fun d member => simple d (List.mem_append_left _ member)).event (simple e (by simp))

/-- The keyboard serves a sequence of keys exactly if every one is plain, pressed
    with a code inside the table and released with one that is not the prefix. -/
theorem keys_served_iff (behind : Table) (t : Terminal) (events : List Event) :
    Served events (ready behind t) ↔ ∀ e ∈ events, e.Simple := by
  have start : InStep (ready behind t).ascii_key (ready behind t) := ⟨rfl, rfl, by simp [ready]⟩
  constructor
  · intro served e member
    obtain ⟨before, after, rfl⟩ := List.append_of_mem member
    have within : before ++ [e] <+: before ++ e :: after := ⟨after, by simp⟩
    have here := run_snoc before e (ready behind t)
    refine simple_of_served (served.boundary before ⟨_, rfl⟩) (fun i read => ?_) ?_
    · rw [← here] at read
      exact served.indices i (run_prefix_indices within _ read)
    · rw [← here]
      exact served.boundary _ within
  · intro simple
    have inStep : ∀ before, before <+: events → InStep (ready behind t).ascii_key (run before (ready behind t)) :=
      fun before within => start.run fun e member => simple e (within.subset member)
    refine ⟨(inStep events (List.prefix_refl _)).indices, fun before within => (inStep before within).idle, ?_, ?_⟩
    · intro before extended scan within
      obtain ⟨rfl, other⟩ := simple (.release extended scan) (within.subset (by simp))
      rw [run_snoc, release_run other (inStep before ((List.prefix_append _ _).trans within)).idle]
    · intro before scan within inside
      have earlier := inStep before ((List.prefix_append _ _).trans within)
      rw [run_snoc, press_run inside earlier.idle, earlier.ascii_key]

end

/-- Pressing the extended key with code 0x75, an arrow, reads the table at 0xe0. -/
theorem arrow_outside : ¬ Served [.press true 0x75] (ready (fun _ => 0) (opened fun _ => 0)) := by
  intro served
  have read : 0xe0 ∈ (run [.press true 0x75] (ready (fun _ => 0) (opened fun _ => 0))).indices :=
    extended_reads rfl [0x75]
  exact absurd (served.indices 0xe0 read) (by decide)

end OsC.Keyboard
