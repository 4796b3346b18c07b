import Mathlib.Order.Bounds.Basic

/-!
Drawing from an ordered set: each draw takes the least element that is left.
The draws increase, and together with what is left they are the set.
-/
namespace OsC.Draws

variable {α : Type*} [LinearOrder α] {S T : Set α} {xs : List α}

/-- Takes the elements of a list from `S`, each the least of those left, and leaves `T`. -/
inductive Drawn : Set α → List α → Set α → Prop
  | nil (S : Set α) : Drawn S [] S
  | cons {S T : Set α} {x : α} {xs : List α} (least : IsLeast S x) (rest : Drawn (S \ {x}) xs T) : Drawn S (x :: xs) T

theorem Drawn.mem (drawn : Drawn S xs T) {x : α} (member : x ∈ xs) : x ∈ S := by
  induction drawn with
  | nil => simp at member
  | cons least _ ih =>
    rcases List.mem_cons.mp member with rfl | later
    · exact least.1
    · exact (ih later).1

theorem Drawn.split (drawn : Drawn S xs T) {x : α} (member : x ∈ S) : x ∈ xs ∨ x ∈ T := by
  induction drawn with
  | nil => exact .inr member
  | @cons _ _ y _ _ _ ih =>
    by_cases same : x = y
    · exact .inl (same ▸ List.mem_cons_self)
    · exact (ih ⟨member, same⟩).imp_left (List.mem_cons_of_mem y)

theorem Drawn.increasing (drawn : Drawn S xs T) : xs.Pairwise (· < ·) := by
  induction drawn with
  | nil => exact .nil
  | cons least rest ih =>
    refine List.pairwise_cons.mpr ⟨fun y member => ?_, ih⟩
    obtain ⟨inS, other⟩ := rest.mem member
    exact lt_of_le_of_ne (least.2 inS) (Ne.symm other)

end OsC.Draws
