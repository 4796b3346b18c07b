import Mathlib.Logic.Function.Iterate
import Mathlib.Data.List.Iterate

/-!
Loops of an imperative program. A loop that may not end runs on a number of
steps (`iterate`); it returns a result when some number of steps is enough
(`Returns`). A counted loop that acts on a machine state (`forLoop`) is the
list of its actions once it is known how often its condition holds.
-/
namespace OsC.Loop

section
variable {σ ρ : Type*}

/-- Runs `body` on at most the given number of steps: `.inl` goes on with a new
    state, `.inr` leaves the loop with a result. -/
def iterate (body : σ → σ ⊕ ρ) : ℕ → σ → Option ρ
  | 0, _ => none
  | fuel + 1, s =>
    match body s with
    | .inl s' => iterate body fuel s'
    | .inr r => some r

/-- The loop leaves from `s` with `r`, on enough steps. -/
def Returns (body : σ → σ ⊕ ρ) (s : σ) (r : ρ) : Prop := ∃ fuel, iterate body fuel s = some r

variable {body : σ → σ ⊕ ρ}

theorem iterate_of_inr {s : σ} {r : ρ} (leaves : body s = .inr r) (fuel : ℕ) :
    iterate body (fuel + 1) s = some r := by simp [iterate, leaves]

theorem iterate_of_inl {s s' : σ} (goes : body s = .inl s') (fuel : ℕ) :
    iterate body (fuel + 1) s = iterate body fuel s' := by simp [iterate, goes]

/-- More steps give the same result. -/
theorem iterate_mono {fuel more : ℕ} (le : fuel ≤ more) {s : σ} {r : ρ} (ran : iterate body fuel s = some r) :
    iterate body more s = some r := by
  induction fuel generalizing more s with
  | zero => simp [iterate] at ran
  | succ fuel ih =>
    obtain ⟨more, rfl⟩ : ∃ k, more = k + 1 := ⟨more - 1, by omega⟩
    cases step : body s with
    | inl s' =>
      rw [iterate_of_inl step] at ran ⊢
      exact ih (by omega) ran
    | inr r' =>
      rw [iterate_of_inr step] at ran ⊢
      exact ran

theorem Returns.unique {s : σ} {r r' : ρ} (first : Returns body s r) (second : Returns body s r') : r = r' := by
  obtain ⟨n, hn⟩ := first
  obtain ⟨m, hm⟩ := second
  have left := iterate_mono (le_max_left n m) hn
  have right := iterate_mono (le_max_right n m) hm
  exact Option.some.inj (left.symm.trans right)

theorem Returns.of_inr {s : σ} {r : ρ} (leaves : body s = .inr r) : Returns body s r :=
  ⟨1, iterate_of_inr leaves 0⟩

theorem Returns.of_inl {s s' : σ} {r : ρ} (goes : body s = .inl s') (rest : Returns body s' r) :
    Returns body s r := by
  obtain ⟨fuel, ran⟩ := rest
  exact ⟨fuel + 1, (iterate_of_inl goes fuel).trans ran⟩

/-- A property of states that the body keeps, and that makes every result it
    leaves with have `Q`. -/
theorem Returns.invariant {I : σ → Prop} {Q : ρ → Prop} (keeps : ∀ s s', I s → body s = .inl s' → I s')
    (ends : ∀ s r, I s → body s = .inr r → Q r) {s : σ} {r : ρ} (start : I s) (ran : Returns body s r) : Q r := by
  obtain ⟨fuel, ran⟩ := ran
  induction fuel generalizing s with
  | zero => simp [iterate] at ran
  | succ fuel ih =>
    cases step : body s with
    | inl s' =>
      rw [iterate_of_inl step] at ran
      exact ih (keeps s s' start step) ran
    | inr r' =>
      rw [iterate_of_inr step] at ran
      exact ends s r start (step.trans (congrArg Sum.inr (Option.some.inj ran)))

/-- A loop returns when a measure of the states that keep `I` shrinks. -/
theorem Returns.total {I : σ → Prop} (measure : σ → ℕ)
    (keeps : ∀ s s', I s → body s = .inl s' → I s' ∧ measure s' < measure s) :
    ∀ s, I s → ∃ r, Returns body s r := by
  intro s
  induction h : measure s using Nat.strong_induction_on generalizing s with
  | _ n ih =>
    intro start
    cases step : body s with
    | inr r => exact ⟨r, .of_inr step⟩
    | inl s' =>
      obtain ⟨kept, less⟩ := keeps s s' start step
      obtain ⟨r, ran⟩ := ih (measure s') (h ▸ less) s' rfl kept
      exact ⟨r, .of_inl step ran⟩

end

/-! ### Counted loops on a machine state -/

section
variable {ε σ α β : Type}

theorem bind_ok {x : EStateM ε σ α} {s s' : σ} {a : α} (ran : x s = .ok a s') (f : α → EStateM ε σ β) :
    (x >>= f) s = f a s' := by
  simp [bind, EStateM.bind, ran]

theorem bind_error {x : EStateM ε σ α} {s s' : σ} {e : ε} (failed : x s = .error e s') (f : α → EStateM ε σ β) :
    (x >>= f) s = .error e s' := by
  simp [bind, EStateM.bind, failed]

theorem forM_congr {l : List α} {f g : α → EStateM ε σ Unit} (same : ∀ a ∈ l, f a = g a) : forM l f = forM l g := by
  induction l with
  | nil => rfl
  | cons a l ih =>
    rw [List.forM_cons, List.forM_cons, same a List.mem_cons_self, ih fun b member => same b (List.mem_cons_of_mem a member)]

/-- A sequence of actions that ends keeps what each of its actions keeps. -/
theorem forM_keeps {l : List α} {f : α → EStateM ε σ Unit} {I : σ → Prop}
    (keeps : ∀ a ∈ l, ∀ s s', I s → f a s = .ok () s' → I s') {s s' : σ} (start : I s) (ended : forM l f s = .ok () s') :
    I s' := by
  induction l generalizing s with
  | nil =>
    cases ended
    exact start
  | cons a l ih =>
    rw [List.forM_cons] at ended
    cases ran : f a s with
    | error e s₁ =>
      rw [bind_error ran] at ended
      cases ended
    | ok u s₁ =>
      rw [bind_ok ran] at ended
      exact ih (fun b member => keeps b (List.mem_cons_of_mem a member)) (keeps a List.mem_cons_self s s₁ start ran) ended

/-- Each of its actions ran. -/
theorem forM_reaches {l : List α} {f : α → EStateM ε σ Unit} {a : α} (member : a ∈ l) {s s' : σ}
    (ended : forM l f s = .ok () s') : ∃ s₁ s₂, f a s₁ = .ok () s₂ := by
  induction l generalizing s with
  | nil => simp at member
  | cons b l ih =>
    rw [List.forM_cons] at ended
    cases ran : f b s with
    | error e s₁ =>
      rw [bind_error ran] at ended
      cases ended
    | ok u s₁ =>
      rw [bind_ok ran] at ended
      rcases List.mem_cons.mp member with rfl | later
      · exact ⟨s, s₁, ran⟩
      · exact ih later ended

/-- `for (; cond(x); x = next(x)) act(x)`, on at most the given number of tests;
    `stuck` is thrown when they are used up. -/
def forLoop (stuck : ε) (cond : β → Bool) (next : β → β) (act : β → EStateM ε σ Unit) : ℕ → β → EStateM ε σ Unit
  | 0, _ => throw stuck
  | fuel + 1, x => if cond x then do act x; forLoop stuck cond next act fuel (next x) else pure ()

variable {stuck : ε} {cond : β → Bool} {next : β → β} {act : β → EStateM ε σ Unit}

theorem forLoop_zero (x : β) (s : σ) : forLoop stuck cond next act 0 x s = .error stuck s := rfl

/-- A loop whose condition holds exactly for its first `k` values acts on
    these values in order. -/
theorem forLoop_eq_forM (k fuel : ℕ) (x : β) (holds : ∀ j < k, cond (next^[j] x) = true)
    (fails : cond (next^[k] x) = false) (enough : k < fuel) :
    forLoop stuck cond next act fuel x = forM (List.iterate next x k) act := by
  induction k generalizing fuel x with
  | zero =>
    obtain ⟨fuel, rfl⟩ : ∃ n, fuel = n + 1 := ⟨fuel - 1, by omega⟩
    have stop : cond x = false := fails
    simp [forLoop, stop, List.iterate]
  | succ k ih =>
    obtain ⟨fuel, rfl⟩ : ∃ n, fuel = n + 1 := ⟨fuel - 1, by omega⟩
    have go : cond x = true := holds 0 (by omega)
    have rest := ih fuel (next x) (fun j less => holds (j + 1) (by omega)) fails (by omega)
    simp only [forLoop, go, if_true, rest, List.iterate, List.forM_cons]

/-- A loop that ends ran its body where its condition holds, and went on. -/
theorem forLoop_step {fuel : ℕ} {x : β} {s s' : σ} (go : cond x = true)
    (ended : forLoop stuck cond next act fuel x s = .ok () s') :
    ∃ less s₁, fuel = less + 1 ∧ act x s = .ok () s₁ ∧ forLoop stuck cond next act less (next x) s₁ = .ok () s' := by
  cases fuel with
  | zero =>
    rw [forLoop_zero] at ended
    cases ended
  | succ fuel =>
    rw [forLoop, if_pos go] at ended
    cases ran : act x s with
    | error e s₁ =>
      rw [bind_error ran] at ended
      cases ended
    | ok a s₁ =>
      rw [bind_ok ran] at ended
      exact ⟨fuel, s₁, rfl, rfl, ended⟩

/-- It keeps what its body keeps. -/
theorem forLoop_keeps {I : σ → Prop} (keeps : ∀ x s s', I s → act x s = .ok () s' → I s') {fuel : ℕ} {x : β} {s s' : σ}
    (start : I s) (ended : forLoop stuck cond next act fuel x s = .ok () s') : I s' := by
  induction fuel generalizing x s with
  | zero =>
    rw [forLoop_zero] at ended
    cases ended
  | succ fuel ih =>
    cases go : cond x with
    | false =>
      rw [forLoop, go] at ended
      cases ended
      exact start
    | true =>
      obtain ⟨less, s₁, same, ran, rest⟩ := forLoop_step go ended
      obtain rfl : fuel = less := Nat.succ.inj same
      exact ih (keeps x s s₁ start ran) rest

/-- It had steps for all values at which its condition holds. -/
theorem forLoop_fuel {k fuel : ℕ} {x : β} {s s' : σ} (holds : ∀ j < k, cond (next^[j] x) = true)
    (ended : forLoop stuck cond next act fuel x s = .ok () s') : k < fuel := by
  induction k generalizing fuel x s with
  | zero =>
    cases fuel with
    | zero =>
    rw [forLoop_zero] at ended
    cases ended
    | succ fuel => exact Nat.succ_pos fuel
  | succ k ih =>
    obtain ⟨less, s₁, rfl, _, rest⟩ := forLoop_step (holds 0 (by omega)) ended
    have := ih (fun j before => holds (j + 1) (by omega)) rest
    omega

/-- It ran its body at each value up to which its condition holds. -/
theorem forLoop_reaches {k fuel : ℕ} {x : β} {s s' : σ} (holds : ∀ j ≤ k, cond (next^[j] x) = true)
    (ended : forLoop stuck cond next act fuel x s = .ok () s') : ∃ s₁ s₂, act (next^[k] x) s₁ = .ok () s₂ := by
  induction k generalizing fuel x s with
  | zero =>
    obtain ⟨_, s₁, _, ran, _⟩ := forLoop_step (holds 0 (le_refl 0)) ended
    exact ⟨s, s₁, ran⟩
  | succ k ih =>
    obtain ⟨_, s₁, _, _, rest⟩ := forLoop_step (holds 0 (by omega)) ended
    exact ih (fun j le => holds (j + 1) (by omega)) rest

end
end OsC.Loop
