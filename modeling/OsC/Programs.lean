import OsC.Bytes

/-!
Programs that load and store bytes. On a flat memory a program has one run. A
device whose loads and stores show a flat memory at the addresses of a set
(`Shows`) runs every program that accesses only these addresses as the flat
memory does (`Shows.runs`).
-/
namespace OsC.Programs
open OsC.Bytes

inductive Program (α : Type)
  | done (a : α)
  | load (addr : ℕ) (rest : UInt8 → Program α)
  | store (addr : ℕ) (v : UInt8) (rest : Program α)

namespace Program
variable {α β : Type}

def bind : Program α → (α → Program β) → Program β
  | .done a, f => f a
  | .load addr rest, f => .load addr fun v => (rest v).bind f
  | .store addr v rest, f => .store addr v (rest.bind f)

instance : Monad Program where
  pure := .done
  bind := bind

/-- The run on a flat memory. -/
def flat : Program α → Memory → α × Memory
  | .done a, m => (a, m)
  | .load addr rest, m => (rest (m addr)).flat m
  | .store addr v rest, m => rest.flat (Bytes.set m addr v)

/-- The run on a flat memory accesses only addresses of a set. -/
def Inside (P : ℕ → Prop) : Program α → Memory → Prop
  | .done _, _ => True
  | .load addr rest, m => P addr ∧ (rest (m addr)).Inside P m
  | .store addr v rest, m => P addr ∧ rest.Inside P (Bytes.set m addr v)

@[simp] theorem flat_pure (a : α) (m : Memory) : (pure a : Program α).flat m = (a, m) := rfl

@[simp] theorem inside_pure (P : ℕ → Prop) (a : α) (m : Memory) : (pure a : Program α).Inside P m := trivial

@[simp] theorem flat_bind (p : Program α) (f : α → Program β) (m : Memory) :
    (p >>= f).flat m = (f (p.flat m).1).flat (p.flat m).2 := by
  change (p.bind f).flat m = _
  induction p generalizing m with
  | done a => rfl
  | load addr rest ih => exact ih (m addr) m
  | store addr v rest ih => exact ih (Bytes.set m addr v)

@[simp] theorem inside_bind (P : ℕ → Prop) (p : Program α) (f : α → Program β) (m : Memory) :
    (p >>= f).Inside P m ↔ p.Inside P m ∧ (f (p.flat m).1).Inside P (p.flat m).2 := by
  change (p.bind f).Inside P m ↔ _
  induction p generalizing m with
  | done a => simp [bind, Inside, flat]
  | load addr rest ih => simp only [bind, Inside, flat, ih, and_assoc]
  | store addr v rest ih => simp only [bind, Inside, flat, ih, and_assoc]

theorem flat_ite (c : Prop) [Decidable c] (p q : Program α) (m : Memory) :
    (if c then p else q).flat m = if c then p.flat m else q.flat m := by
  split <;> rfl

theorem inside_ite (P : ℕ → Prop) (c : Prop) [Decidable c] (p q : Program α) (m : Memory) :
    (if c then p else q).Inside P m ↔ if c then p.Inside P m else q.Inside P m := by
  split <;> rfl

/-! ### Words -/

/-- The little-endian number in the `n` bytes from `a`. -/
def read (a : ℕ) : ℕ → Program ℕ
  | 0 => pure 0
  | n + 1 => .load a fun v => do
    let w ← read (a + 1) n
    pure (v.toNat + 256 * w)

/-- Stores the `n` low bytes of `w` from `a`. -/
def write (a : ℕ) : ℕ → ℕ → Program Unit
  | 0, _ => pure ()
  | n + 1, w => .store a (UInt8.ofNat w) (write (a + 1) n (w / 256))

@[simp] theorem flat_read (a n : ℕ) (m : Memory) : (read a n).flat m = (Bytes.read m a n, m) := by
  induction n generalizing a with
  | zero => rfl
  | succ n ih => simp [read, flat, ih, Bytes.read]

@[simp] theorem flat_write (a n w : ℕ) (m : Memory) : (write a n w).flat m = ((), Bytes.write m a n w) := by
  induction n generalizing a w m with
  | zero => rfl
  | succ n ih => simp [write, flat, ih, Bytes.write]

theorem inside_read {P : ℕ → Prop} {a n : ℕ} (m : Memory) (inside : ∀ b, a ≤ b → b < a + n → P b) :
    (read a n).Inside P m := by
  induction n generalizing a with
  | zero => trivial
  | succ n ih =>
    have rest : (read (a + 1) n).Inside P m := ih fun b low high => inside b (by omega) (by omega)
    exact ⟨inside a (le_refl a) (by omega), by simp [rest]⟩

theorem inside_write {P : ℕ → Prop} {a n : ℕ} (w : ℕ) (m : Memory) (inside : ∀ b, a ≤ b → b < a + n → P b) :
    (write a n w).Inside P m := by
  induction n generalizing a w m with
  | zero => trivial
  | succ n ih => exact ⟨inside a (le_refl a) (by omega), ih _ _ fun b low high => inside b (by omega) (by omega)⟩

end Program

/-! ### Devices -/

structure Device (ε σ : Type) where
  load : ℕ → EStateM ε σ UInt8
  store : ℕ → UInt8 → EStateM ε σ Unit

section
variable {ε σ α β : Type} {d : Device ε σ} {P : ℕ → Prop} {I : σ → Prop} {view : σ → Memory}

def Device.execute (d : Device ε σ) : Program α → EStateM ε σ α
  | .done a => pure a
  | .load addr rest => do d.execute (rest (← d.load addr))
  | .store addr v rest => do
    d.store addr v
    d.execute rest

/-- The device shows a flat memory at the addresses of the set, in the states of an invariant. -/
structure Shows (d : Device ε σ) (P : ℕ → Prop) (I : σ → Prop) (view : σ → Memory) : Prop where
  load : ∀ s a, I s → P a → ∃ s', d.load a s = .ok (view s a) s' ∧ I s' ∧ ∀ b, P b → view s' b = view s b
  store : ∀ s a v, I s → P a → ∃ s', d.store a v s = .ok () s' ∧ I s' ∧ ∀ b, P b → view s' b = Bytes.set (view s) a v b

/-- A program runs as on the flat memory that the device shows. -/
theorem Shows.runs (shows : Shows d P I view) (p : Program α) {s : σ} {m : Memory} (holds : I s)
    (agree : ∀ a, P a → view s a = m a) (inside : p.Inside P m) :
    ∃ s', d.execute p s = .ok (p.flat m).1 s' ∧ I s' ∧ ∀ a, P a → view s' a = (p.flat m).2 a := by
  induction p generalizing s m with
  | done a => exact ⟨s, rfl, holds, agree⟩
  | load addr rest ih =>
    obtain ⟨s₁, ran, holds₁, same⟩ := shows.load s addr holds inside.1
    rw [agree addr inside.1] at ran
    obtain ⟨s', more, holds', after⟩ := ih (m addr) holds₁ (fun a member => (same a member).trans (agree a member)) inside.2
    refine ⟨s', ?_, holds', after⟩
    simp only [Device.execute, bind, EStateM.bind, ran]
    exact more
  | store addr v rest ih =>
    obtain ⟨s₁, ran, holds₁, changed⟩ := shows.store s addr v holds inside.1
    have agree₁ : ∀ a, P a → view s₁ a = set m addr v a := by
      intro a member
      rw [changed a member]
      unfold Bytes.set
      rw [agree a member]
    obtain ⟨s', more, holds', after⟩ := ih holds₁ agree₁ inside.2
    refine ⟨s', ?_, holds', after⟩
    simp only [Device.execute, bind, EStateM.bind, ran]
    exact more

end
end OsC.Programs
