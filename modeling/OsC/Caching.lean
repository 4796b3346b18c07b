import OsC.Walk
import Mathlib.Data.Set.Basic

/-!
Caches of address translation. A processor keeps what its walks found: the
translations of pages, and tables above them from which later walks begin. What
is kept is current if a walk of the tables finds it still. Changing an entry
leaves everything current if and only if no walk can have found anything at the
entry or the change is none (`coherent_put_iff`).
-/
namespace OsC.Caching
open OsC.Entry OsC.Radix OsC.Walk

/-- What a walk found at a path, with the entries that it passed. A large page is
    kept as the translations of the pages in it. -/
inductive Cached
  | translation (path : List Index) (passed : List ℕ) (frame flags : ℕ)
  | table (path : List Index) (passed : List ℕ) (frame : ℕ)

/-- The entries that a walk passes. -/
def trail (mem : Tables) : ℕ → List Index → List ℕ
  | _, [] => []
  | t, i :: ρ => mem t i ::
    match next (mem t i) with
    | some u => trail mem u ρ
    | none => []

/-- What a walk finds that begins at a table `t`, itself found at `π`. -/
inductive Finds (mem : Tables) (t : ℕ) (π : List Index) (passed : List ℕ) : Cached → Prop
  | translation {ρ : List Index} {frame flags : ℕ} (whole : (π ++ ρ).length = 4) (walks : walk mem t ρ = some (frame, flags)) :
      Finds mem t π passed (.translation (π ++ ρ) (passed ++ trail mem t ρ) frame flags)
  | table {ρ : List Index} {u : ℕ} (upper : (π ++ ρ).length ≤ 3) (reaches : descend next mem t ρ = some u) :
      Finds mem t π passed (.table (π ++ ρ) (passed ++ trail mem t ρ) u)

/-- A walk begins at the root or at a table that is kept. -/
inductive Begins (root : ℕ) (cache : Set Cached) : List Index → List ℕ → ℕ → Prop
  | root : Begins root cache [] [] root
  | kept {π : List Index} {passed : List ℕ} {t : ℕ} (kept : .table π passed t ∈ cache) : Begins root cache π passed t

/-- The cache may come to hold what some walk finds. -/
def Fills (mem : Tables) (root : ℕ) (cache : Set Cached) (c : Cached) : Prop :=
  ∃ π passed t, Begins root cache π passed t ∧ Finds mem t π passed c

/-- The frame of a page is taken from the cache or from a walk. -/
def Translates (mem : Tables) (root : ℕ) (cache : Set Cached) (path : List Index) (frame : ℕ) : Prop :=
  ∃ passed flags, .translation path passed frame flags ∈ cache ∨ Fills mem root cache (.translation path passed frame flags)

/-- A walk from the root finds it still. -/
def Current (mem : Tables) (root : ℕ) (c : Cached) : Prop := Finds mem root [] [] c

def Coherent (mem : Tables) (root : ℕ) (cache : Set Cached) : Prop := ∀ c ∈ cache, Current mem root c

section
variable {mem mem' : Tables} {root t u : ℕ} {i : Index} {π ρ : List Index} {cache : Set Cached} {c : Cached}

theorem trail_append (reaches : descend next mem t π = some u) : trail mem t (π ++ ρ) = trail mem t π ++ trail mem u ρ := by
  induction π generalizing t with
  | nil =>
    obtain rfl := Option.some.inj reaches
    rfl
  | cons i π ih =>
    obtain ⟨v, table, rest⟩ := Option.bind_eq_some_iff.mp reaches
    simp only [List.cons_append, trail, table, ih rest]

theorem trail_congr (agree : ∀ ρ i u, ρ ++ [i] <+: π → descend next mem t ρ = some u → mem' u i = mem u i) :
    trail mem' t π = trail mem t π := by
  induction π generalizing t with
  | nil => rfl
  | cons i π ih =>
    have here : mem' t i = mem t i := agree [] i t (by simp) rfl
    rw [trail, trail, here]
    cases table : next (mem t i) with
    | none => rfl
    | some u =>
      have rest : trail mem' u π = trail mem u π := by
        refine ih fun ρ j v inside reaches => agree (i :: ρ) j v ?_ ?_
        · exact List.cons_prefix_cons.mpr ⟨rfl, inside⟩
        · simpa [descend, table] using reaches
      simp only [rest]

/-! ### Coherent caches -/

theorem current_of_walk {path : List Index} {frame flags : ℕ} (whole : path.length = 4)
    (walks : walk mem root path = some (frame, flags)) : Current mem root (.translation path (trail mem root path) frame flags) :=
  Finds.translation (ρ := path) whole walks

theorem current_of_descend {path : List Index} {frame : ℕ} (upper : path.length ≤ 3)
    (reaches : descend next mem root path = some frame) : Current mem root (.table path (trail mem root path) frame) :=
  Finds.table (ρ := path) upper reaches

theorem current_translation {path : List Index} {passed : List ℕ} {frame flags : ℕ}
    (current : Current mem root (.translation path passed frame flags)) :
    path.length = 4 ∧ walk mem root path = some (frame, flags) ∧ passed = trail mem root path := by
  cases current with
  | translation whole walks => exact ⟨whole, walks, rfl⟩

theorem current_table {path : List Index} {passed : List ℕ} {frame : ℕ} (current : Current mem root (.table path passed frame)) :
    path.length ≤ 3 ∧ descend next mem root path = some frame ∧ passed = trail mem root path := by
  cases current with
  | table upper reaches => exact ⟨upper, reaches, rfl⟩

/-- What a walk finds that begins in a coherent cache, a walk from the root finds. -/
theorem Coherent.fills (coherent : Coherent mem root cache) (fills : Fills mem root cache c) : Current mem root c := by
  obtain ⟨π, passed, t, begins, finds⟩ := fills
  cases begins with
  | root => exact finds
  | kept kept =>
    obtain ⟨_, reaches, rfl⟩ := current_table (coherent _ kept)
    cases finds with
    | @translation ρ frame flags whole walks =>
      have more : ρ ≠ [] := by
        rintro rfl
        cases walks
      rw [← trail_append reaches]
      exact current_of_walk whole ((walk_append more reaches).trans walks)
    | @table ρ u upper found =>
      have whole : descend next mem root (π ++ ρ) = some u := by
        rw [descend_append, reaches]
        exact found
      rw [← trail_append reaches]
      exact current_of_descend upper whole

/-- Filling a cache, and dropping what it holds, keep it coherent. -/
theorem Coherent.refill {cache' : Set Cached} (coherent : Coherent mem root cache)
    (refills : ∀ c ∈ cache', c ∈ cache ∨ Fills mem root cache c) : Coherent mem root cache' := by
  intro c member
  rcases refills c member with old | fills
  · exact coherent c old
  · exact coherent.fills fills

/-- A coherent cache translates as the walk does. -/
theorem Coherent.translates {path : List Index} {frame : ℕ} (coherent : Coherent mem root cache)
    (translates : Translates mem root cache path frame) : ∃ flags, walk mem root path = some (frame, flags) := by
  obtain ⟨passed, flags, kept | fills⟩ := translates
  · exact ⟨flags, (current_translation (coherent _ kept)).2.1⟩
  · exact ⟨flags, (current_translation (coherent.fills fills)).2.1⟩

theorem translates_of_walk {path : List Index} {frame flags : ℕ} (whole : path.length = 4)
    (walks : walk mem root path = some (frame, flags)) : Translates mem root cache path frame :=
  ⟨trail mem root path, flags, .inr ⟨[], [], root, .root, current_of_walk whole walks⟩⟩

/-! ### Changing an entry -/

/-- A present entry of a table that walks pass, where they find something. Nothing
    is found at a huge entry of the first table. -/
def Used (mem : Tables) (root t : ℕ) (i : Index) : Prop :=
  ∃ π, π.length ≤ 3 ∧ descend next mem root π = some t ∧ present (mem t i) = true ∧ (π = [] → huge (mem t i) = false)

/-- The entries that a walk passes are used. -/
theorem used_of_walk {path : List Index} {x : ℕ × ℕ} (whole : path.length = 4) (walks : walk mem root path = some x)
    (inside : ρ ++ [i] <+: path) (reaches : descend next mem root ρ = some t) : Used mem root t i := by
  obtain ⟨σ, rfl⟩ := inside
  rw [List.append_assoc, walk_append (by simp) reaches, List.singleton_append, walk] at walks
  refine ⟨ρ, ?_, reaches, ?_, ?_⟩
  · simp at whole
    omega
  · by_contra absent
    simp [absent] at walks
  · rintro rfl
    by_contra isHuge
    have long : σ.length = 3 := by simpa using whole
    have more : σ ≠ [] := by
      rintro rfl
      cases long
    simp [isHuge, more, long] at walks

theorem used_of_descend {path : List Index} {u : ℕ} (upper : path.length ≤ 3) (found : descend next mem root path = some u)
    (inside : ρ ++ [i] <+: path) (reaches : descend next mem root ρ = some t) : Used mem root t i := by
  have short := inside.length_le
  obtain ⟨σ, rfl⟩ := inside
  rw [descend_append] at found
  obtain ⟨v, first, _⟩ := Option.bind_eq_some_iff.mp found
  rw [descend_snoc reaches] at first
  obtain ⟨isPresent, notHuge, _⟩ := next_eq_some.mp first
  refine ⟨ρ, ?_, reaches, isPresent, fun _ => notHuge⟩
  simp at short upper
  omega

theorem Current.put {e : ℕ} (current : Current mem root c) (unused : ¬ Used mem root t i) : Current (put mem t i e) root c := by
  have apart : ∀ {u : ℕ} {j : Index}, Used mem root u j → Radix.put mem t i e u j = mem u j := by
    intro u j used
    refine put_other ?_
    rintro ⟨rfl, rfl⟩
    exact unused used
  cases current with
  | @translation path frame flags whole walks =>
    have agree : ∀ ρ j u, ρ ++ [j] <+: path → descend next mem root ρ = some u → Radix.put mem t i e u j = mem u j :=
      fun ρ j u inside reaches => apart (used_of_walk whole walks inside reaches)
    rw [← trail_congr agree]
    exact .translation whole ((walk_congr agree).trans walks)
  | @table path u upper found =>
    have agree : ∀ ρ j u, ρ ++ [j] <+: path → descend next mem root ρ = some u → Radix.put mem t i e u j = mem u j :=
      fun ρ j u inside reaches => apart (used_of_descend upper found inside reaches)
    rw [← trail_congr agree]
    exact .table upper ((descend_congr agree).trans found)

/-- A walk through a changed entry passes something else. -/
theorem trail_put_ne {e : ℕ} {σ : List Index} (reaches : descend next mem root π = some t) (changed : mem t i ≠ e) :
    trail (put mem t i e) root (π ++ i :: σ) ≠ trail mem root (π ++ i :: σ) := by
  induction π generalizing root with
  | nil =>
    obtain rfl := Option.some.inj reaches
    intro same
    rw [List.nil_append, trail, trail, put_same] at same
    exact changed (List.cons.inj same).1.symm
  | cons j π ih =>
    obtain ⟨u, table, rest⟩ := Option.bind_eq_some_iff.mp reaches
    intro same
    rw [List.cons_append, trail, trail] at same
    obtain ⟨head, tail⟩ := List.cons.inj same
    rw [head, table] at tail
    exact ih rest tail

/-- Something is found at a used entry. -/
theorem Used.found (used : Used mem root t i) : ∃ c, Current mem root c ∧ ∀ e, mem t i ≠ e → ¬ Current (put mem t i e) root c := by
  obtain ⟨π, short, reaches, isPresent, notHuge⟩ := used
  by_cases further : π.length = 3 ∨ huge (mem t i) = true
  · obtain ⟨σ, whole⟩ : ∃ σ : List Index, (π ++ i :: σ).length = 4 :=
      ⟨List.replicate (3 - π.length) 0, by simp; omega⟩
    obtain ⟨frame, flags, walks⟩ : ∃ frame flags, walk mem root (π ++ i :: σ) = some (frame, flags) := by
      rw [walk_append (by simp) reaches, walk, isPresent]
      by_cases last : σ = []
      · exact ⟨_, _, by simp [last]; rfl⟩
      · have isHuge : huge (mem t i) = true := by
          refine further.resolve_left fun long => last ?_
          simp [long] at whole
          exact List.eq_nil_of_length_eq_zero (by omega)
        have below : σ.length < 3 := by
          by_contra top
          have empty : π = [] := List.eq_nil_of_length_eq_zero (by simp at whole; omega)
          rw [notHuge empty] at isHuge
          cases isHuge
        exact ⟨_, _, by simp [last, isHuge, below]; rfl⟩
    refine ⟨.translation (π ++ i :: σ) (trail mem root (π ++ i :: σ)) frame flags,
      current_of_walk whole walks, fun e changed current => ?_⟩
    exact trail_put_ne reaches changed (current_translation current).2.2.symm
  · rw [not_or, Bool.not_eq_true] at further
    have table := next_of_present isPresent further.2
    refine ⟨.table (π ++ [i]) (trail mem root (π ++ [i])) (address (mem t i)),
      current_of_descend ?_ ((descend_snoc reaches).trans table), fun e changed current => ?_⟩
    · have := further.1
      simp
      omega
    · exact trail_put_ne reaches changed (current_table current).2.2.symm

/-- Every coherent cache stays coherent when an entry is changed if and only if the
    entry is not used or the change is none. -/
theorem coherent_put_iff {e : ℕ} : (∀ cache, Coherent mem root cache → Coherent (put mem t i e) root cache) ↔
    (Used mem root t i → mem t i = e) := by
  constructor
  · intro keeps used
    by_contra changed
    obtain ⟨c, current, stale⟩ := used.found
    refine stale e changed (keeps {c} ?_ c rfl)
    rintro d rfl
    exact current
  · intro same cache coherent c member
    by_cases used : Used mem root t i
    · rw [put_self (same used)]
      exact coherent c member
    · exact (coherent c member).put used

end
end OsC.Caching
