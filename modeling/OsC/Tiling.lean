import Mathlib.Data.List.Pairwise
import Mathlib.Data.List.Perm.Basic
import Mathlib.Tactic.Linarith

/-!
Tilings of an interval of numbers by half-open segments: no two segments of
the list overlap, and together they cover exactly the interval. A tiling does
not depend on the order of its segments, and splitting one segment gives a
tiling again.
-/
namespace OsC.Tiling

/-- Two segments share no point. -/
def Apart (s t : ℕ × ℕ) : Prop := s.2 ≤ t.1 ∨ t.2 ≤ s.1

/-- The segments are not empty, do not overlap and cover exactly `[lo, hi)`. -/
structure Tiles (lo hi : ℕ) (segments : List (ℕ × ℕ)) : Prop where
  nonempty : ∀ s ∈ segments, s.1 < s.2
  apart : segments.Pairwise Apart
  cover : ∀ b, (lo ≤ b ∧ b < hi) ↔ ∃ s ∈ segments, s.1 ≤ b ∧ b < s.2

theorem Apart.symm {s t : ℕ × ℕ} (apart : Apart s t) : Apart t s := Or.symm apart

instance : Std.Symm Apart := ⟨fun _ _ apart => apart.symm⟩

theorem tiles_single {lo hi : ℕ} (less : lo < hi) : Tiles lo hi [(lo, hi)] where
  nonempty := by simpa using less
  apart := List.pairwise_singleton _ _
  cover := by simp

namespace Tiles
variable {lo hi : ℕ} {segments : List (ℕ × ℕ)}

theorem perm {other : List (ℕ × ℕ)} (tiles : Tiles lo hi segments) (reorder : segments.Perm other) :
    Tiles lo hi other where
  nonempty := fun s member => tiles.nonempty s (reorder.mem_iff.mpr member)
  apart := (reorder.pairwise_iff Apart.symm).mp tiles.apart
  cover := by
    intro b
    rw [tiles.cover b]
    simp only [reorder.mem_iff]

/-- A segment lies inside the interval. -/
theorem inside (tiles : Tiles lo hi segments) {s : ℕ × ℕ} (member : s ∈ segments) : lo ≤ s.1 ∧ s.2 ≤ hi := by
  have first := (tiles.cover s.1).mpr ⟨s, member, le_refl _, tiles.nonempty s member⟩
  have last := (tiles.cover (s.2 - 1)).mpr ⟨s, member, by have := tiles.nonempty s member; omega,
    by have := tiles.nonempty s member; omega⟩
  have := tiles.nonempty s member
  omega

/-- The first segment may be split at any inner point. -/
theorem split {a b c : ℕ} (tiles : Tiles lo hi ((a, c) :: segments)) (left : a < b) (right : b < c) :
    Tiles lo hi ((a, b) :: (b, c) :: segments) := by
  obtain ⟨head, tail⟩ := List.pairwise_cons.mp tiles.apart
  refine ⟨?_, ?_, ?_⟩
  · intro s member
    rcases List.mem_cons.mp member with rfl | member
    · exact left
    rcases List.mem_cons.mp member with rfl | member
    · exact right
    · exact tiles.nonempty s (List.mem_cons_of_mem _ member)
  · refine List.pairwise_cons.mpr ⟨?_, List.pairwise_cons.mpr ⟨?_, tail⟩⟩
    · intro s member
      rcases List.mem_cons.mp member with rfl | member
      · exact .inl (le_refl b)
      · have := head s member
        simp only [Apart] at this ⊢
        omega
    · intro s member
      have := head s member
      simp only [Apart] at this ⊢
      omega
  · intro x
    rw [tiles.cover x]
    constructor
    · rintro ⟨s, member, low, high⟩
      rcases List.mem_cons.mp member with rfl | member
      · rcases Nat.lt_or_ge x b with before | after
        · exact ⟨(a, b), by simp, low, before⟩
        · exact ⟨(b, c), by simp, after, high⟩
      · exact ⟨s, by simp [member], low, high⟩
    · rintro ⟨s, member, low, high⟩
      rcases List.mem_cons.mp member with rfl | member
      · exact ⟨(a, c), by simp, low, lt_trans high right⟩
      rcases List.mem_cons.mp member with rfl | member
      · exact ⟨(a, c), by simp, le_trans (le_of_lt left) low, high⟩
      · exact ⟨s, by simp [member], low, high⟩

theorem nodup (tiles : Tiles lo hi segments) : segments.Nodup := by
  refine List.Pairwise.imp_of_mem ?_ tiles.apart
  intro s t member _ apart same
  subst same
  have := tiles.nonempty s member
  simp only [Apart] at apart
  omega

/-- Different segments do not overlap. -/
theorem apart_of_ne (tiles : Tiles lo hi segments) {s t : ℕ × ℕ} (first : s ∈ segments) (second : t ∈ segments)
    (different : s ≠ t) : Apart s t :=
  tiles.apart.forall first second different

/-- Segments that begin at one place are the same segment. -/
theorem eq_of_start (tiles : Tiles lo hi segments) {s t : ℕ × ℕ} (first : s ∈ segments) (second : t ∈ segments)
    (start : s.1 = t.1) : s = t := by
  by_contra different
  have apart := tiles.apart_of_ne first second different
  have := tiles.nonempty s first
  have := tiles.nonempty t second
  simp only [Apart] at apart
  omega

end Tiles
end OsC.Tiling
