import OsC.Radix
import OsC.Entry
import Mathlib.Data.Fin.Basic

/-!
Address translation of x86-64 with four levels of tables of 512 entries. A walk
follows the four indices of an address from the root; it ends at an entry of the
last level, or at a present entry of level 3 or 2 with the page-size bit, which
maps the whole region below it. The bit is reserved at level 4.
-/
namespace OsC.Walk
open OsC.Entry OsC.Radix

abbrev Index := Fin 512

instance nonzero_512 : NeZero 512 := ⟨by decide⟩

/-- The words of the physical frames. -/
abbrev Tables := ℕ → Index → ℕ

/-- The number that indices spell. -/
def number (indices : List Index) : ℕ := indices.foldl (fun n i => n * 512 + i) 0

/-- The frame that a leaf entry gives at the indices below it, and its attributes. -/
def leaf (e : ℕ) (rest : List Index) : ℕ × ℕ :=
  (address e / 512 ^ rest.length * 512 ^ rest.length + number rest, attributes e)

/-- The walk along indices from a table: the frame it ends in and the attributes of the leaf. -/
def walk (mem : Tables) : ℕ → List Index → Option (ℕ × ℕ)
  | _, [] => none
  | t, i :: rest =>
    if !present (mem t i) then none
    else if rest = [] then some (leaf (mem t i) [])
    else if huge (mem t i) then if rest.length < 3 then some (leaf (mem t i) rest) else none
    else walk mem (address (mem t i)) rest

/-- The indices of an address: nine bits for each level from bit 39 down to bit 12. -/
def indices (vaddr : ℕ) : List Index := [39, 30, 21, 12].map fun bit => Fin.ofNat 512 (vaddr / 2 ^ bit)

def Canonical (vaddr : ℕ) : Prop := vaddr < 2 ^ 47 ∨ 2 ^ 64 - 2 ^ 47 ≤ vaddr ∧ vaddr < 2 ^ 64

instance (vaddr : ℕ) : Decidable (Canonical vaddr) := inferInstanceAs (Decidable (_ ∨ _))

/-- The frame of an address and the offset in it. -/
def resolve (mem : Tables) (root vaddr : ℕ) : Option (ℕ × ℕ) :=
  if Canonical vaddr then (walk mem root (indices vaddr)).map fun (frame, _) => (frame, vaddr % 4096) else none

variable {mem mem' : Tables} {t u : ℕ} {i : Index} {π ρ : List Index}

theorem walk_last : walk mem t [i] = if present (mem t i) then some (address (mem t i), attributes (mem t i)) else none := by
  cases isPresent : present (mem t i) <;> simp [walk, isPresent, leaf, number]

theorem walk_absent (absent : present (mem t i) = false) : walk mem t (i :: ρ) = none := by
  simp [walk, absent]

theorem walk_next (more : ρ ≠ []) (table : next (mem t i) = some u) : walk mem t (i :: ρ) = walk mem u ρ := by
  obtain ⟨isPresent, notHuge, rfl⟩ := next_eq_some.mp table
  simp [walk, isPresent, notHuge, more]

/-- A walk passes the tables that its path descends to. -/
theorem walk_append (more : ρ ≠ []) (reaches : descend next mem t π = some u) :
    walk mem t (π ++ ρ) = walk mem u ρ := by
  induction π generalizing t with
  | nil =>
    obtain rfl := Option.some.inj reaches
    rfl
  | cons i π ih =>
    obtain ⟨v, table, rest⟩ := Option.bind_eq_some_iff.mp reaches
    rw [List.cons_append, walk_next (by simp [more]) table, ih rest]

/-- A path that descends to a table walks to its frame. -/
theorem walk_of_descend (nonempty : π ≠ []) (reaches : descend next mem t π = some u) :
    ∃ flags, walk mem t π = some (u, flags) := by
  cases π using List.reverseRecOn with
  | nil => exact absurd rfl nonempty
  | append_singleton π i =>
    obtain ⟨v, first, last⟩ := descend_snoc_some reaches
    obtain ⟨isPresent, _, rfl⟩ := next_eq_some.mp last
    refine ⟨attributes (mem v i), ?_⟩
    rw [walk_append (by simp) first, walk_last, if_pos isPresent]

/-- Walks agree in memories that agree on the entries that they pass. -/
theorem walk_congr
    (agree : ∀ ρ i u, ρ ++ [i] <+: π → descend next mem t ρ = some u → mem' u i = mem u i) :
    walk mem' t π = walk mem t π := by
  induction π generalizing t with
  | nil => rfl
  | cons i π ih =>
    have here : mem' t i = mem t i := agree [] i t (by simp) rfl
    cases table : next (mem t i) with
    | none =>
      cases isPresent : present (mem t i) with
      | false => rw [walk_absent isPresent, walk_absent (here ▸ isPresent)]
      | true =>
        have isHuge : huge (mem t i) = true := by
          cases isHuge : huge (mem t i) with
          | true => rfl
          | false => simp [next, isPresent, isHuge] at table
        simp [walk, here, isPresent, isHuge]
    | some u =>
      by_cases more : π = []
      · subst more
        rw [walk_last, walk_last, here]
      · rw [walk_next more table, walk_next more (here ▸ table)]
        refine ih fun ρ j v inside reaches => agree (i :: ρ) j v ?_ ?_
        · exact List.cons_prefix_cons.mpr ⟨rfl, inside⟩
        · simpa [descend, table] using reaches

section
variable {e f : ℕ} {dom : List Index → Prop} (tree : Tree next mem t dom)
include tree

/-- Linking a fresh table without present entries above the last level changes no walk. -/
theorem walk_link (links : Links next mem t dom π u i e f) (absent : present (mem u i) = false)
    (empty : ∀ j, present (mem f j) = false) (inside : ∀ σ j, σ ++ [j] <+: ρ → dom σ) (below : π.length + 1 < ρ.length) :
    walk (put mem u i e) t ρ = walk mem t ρ := by
  by_cases through : π ++ [i] <+: ρ
  · obtain ⟨σ, rfl⟩ := through
    cases σ with
    | nil => simp at below
    | cons j σ =>
      rw [walk_append (by simp) links.reached, List.append_assoc, walk_append (by simp) links.reaches,
        List.singleton_append, walk_absent absent]
      refine walk_absent ?_
      rw [put_row links.apart]
      exact empty j
  · refine walk_congr fun σ j v here reaches => put_other ?_
    rintro ⟨rfl, rfl⟩
    exact through (tree σ π v (inside σ j here) links.inDom reaches links.reaches ▸ here)

/-- Changing an entry of the last level changes the walk through it. -/
theorem walk_leaf (closed : Closed dom) (inDom : dom π) (reaches : descend next mem t π = some u)
    (inside : ∀ σ j, σ ++ [j] <+: ρ → dom σ) (length : ρ.length = π.length + 1) :
    walk (put mem u i e) t ρ =
      if ρ = π ++ [i] then (if present e then some (address e, attributes e) else none) else walk mem t ρ := by
  by_cases here : ρ = π ++ [i]
  · have same : descend next (put mem u i e) t π = some u := by
      refine (descend_put_apart tree closed inDom reaches inDom fun longer => ?_).trans reaches
      have := longer.length_le
      simp at this
    rw [if_pos here, here, walk_append (by simp) same, walk_last, put_same]
  · rw [if_neg here]
    refine walk_congr fun σ j v before passes => put_other ?_
    rintro ⟨rfl, rfl⟩
    obtain rfl := tree σ π v (inside σ j before) inDom passes reaches
    exact here (before.eq_of_length (by simp [length])).symm

end
end OsC.Walk
