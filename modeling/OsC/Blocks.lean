import OsC.Tiling
import Mathlib.Data.List.Perm.Lattice

/-!
What the heap is for: an interval of addresses divided into blocks, each a
16-byte header and a payload. One block is the untouched head, the others are
free or live. A request takes the first free block that is large enough and
leaves the rest of it free when the rest can hold a block of its own; if there
is none, the request is cut off the head.
-/
namespace OsC.Blocks
open OsC.Tiling

/-- A block: its header at `addr`, `size` payload bytes at `addr + 16`. -/
structure Blk where
  addr : ℕ
  size : ℕ
  deriving DecidableEq, Repr

def Blk.extent (b : Blk) : ℕ × ℕ := (b.addr, b.addr + 16 + b.size)
/-- The address that the user of a block gets. -/
def Blk.payload (b : Blk) : ℕ := b.addr + 16

structure Layout where
  head : Blk
  free : List Blk
  live : List Blk

namespace Layout

def blocks (L : Layout) : List Blk := L.head :: (L.free ++ L.live)

theorem free_mem {L : Layout} {b : Blk} (free : b ∈ L.free) : b ∈ L.blocks :=
  List.mem_cons_of_mem _ (List.mem_append_left _ free)

theorem live_mem {L : Layout} {b : Blk} (live : b ∈ L.live) : b ∈ L.blocks :=
  List.mem_cons_of_mem _ (List.mem_append_right _ live)

theorem front_mem {head c : Blk} {front back live : List Blk} (member : c ∈ head :: front) :
    c ∈ head :: (front ++ back ++ live) := by
  rw [List.append_assoc]
  exact List.mem_append_left (back ++ live) member

/-- The blocks tile `[lo, hi)`. -/
def Tiled (lo hi : ℕ) (L : Layout) : Prop := Tiles lo hi (L.blocks.map Blk.extent)

/-- The first free block that can hold `n` bytes, with the blocks before and after it. -/
def fit (n : ℕ) : List Blk → Option (List Blk × Blk × List Blk)
  | [] => none
  | b :: rest =>
    if n ≤ b.size then some ([], b, rest)
    else (fit n rest).map fun (front, c, back) => (b :: front, c, back)

/-- What stays free of a block that serves `n` bytes, and what it becomes. -/
def leftover (n : ℕ) (b : Blk) : List Blk := if b.size - n < 32 then [] else [⟨b.addr + 16 + n, b.size - n - 16⟩]
def granted (n : ℕ) (b : Blk) : Blk := if b.size - n < 32 then b else ⟨b.addr, n⟩

/-- The layout once the free block `b` between `front` and `back` serves `n` bytes. -/
def taken (n : ℕ) (front : List Blk) (b : Blk) (back : List Blk) (L : Layout) : Layout :=
  ⟨L.head, front ++ leftover n b ++ back, granted n b :: L.live⟩
/-- The layout once the head serves `n` bytes. -/
def cut (n : ℕ) (L : Layout) : Layout :=
  ⟨⟨L.head.addr + 16 + n, L.head.size - n - 16⟩, L.free, ⟨L.head.addr, n⟩ :: L.live⟩

/-- A request of `n` bytes: the block that serves it and the layout after it. -/
def malloc (n : ℕ) (L : Layout) : Blk × Layout :=
  match fit n L.free with
  | some (front, b, back) => (granted n b, L.taken n front b back)
  | none => (⟨L.head.addr, n⟩, L.cut n)

/-- A live block goes to the front of the free list. -/
def release (b : Blk) (L : Layout) : Layout := ⟨L.head, b :: L.free, L.live.erase b⟩

/-- The request finds a free block, or the head has `margin` bytes beyond it. -/
def Fits (margin n : ℕ) (L : Layout) : Prop := (∀ b ∈ L.free, b.size < n) → n + margin ≤ L.head.size

theorem fit_some {n : ℕ} {free front back : List Blk} {b : Blk} (found : fit n free = some (front, b, back)) :
    free = front ++ b :: back ∧ n ≤ b.size ∧ ∀ c ∈ front, c.size < n := by
  induction free generalizing front with
  | nil => simp [fit] at found
  | cons c rest ih =>
    by_cases large : n ≤ c.size
    · obtain ⟨rfl, rfl, rfl⟩ : front = [] ∧ c = b ∧ rest = back := by
        simpa [fit, large, eq_comm] using found
      exact ⟨rfl, large, by simp⟩
    · obtain ⟨front', rest_found, rfl⟩ : ∃ front', fit n rest = some (front', b, back) ∧ c :: front' = front := by
        simpa [fit, large] using found
      obtain ⟨rfl, enough, small⟩ := ih rest_found
      refine ⟨rfl, enough, ?_⟩
      intro d member
      rcases List.mem_cons.mp member with rfl | member
      · omega
      · exact small d member

theorem fit_none {n : ℕ} {free : List Blk} : fit n free = none ↔ ∀ b ∈ free, b.size < n := by
  induction free with
  | nil => simp [fit]
  | cons c rest ih =>
    by_cases large : n ≤ c.size
    · have : ¬ c.size < n := by omega
      simp [fit, large, this]
    · have : c.size < n := by omega
      simp [fit, large, ih, this]

theorem granted_addr (n : ℕ) (b : Blk) : (granted n b).addr = b.addr := by
  unfold granted; split <;> rfl

theorem granted_size {n : ℕ} {b : Blk} (enough : n ≤ b.size) : n ≤ (granted n b).size := by
  unfold granted; split
  · exact enough
  · exact le_refl n

/-- A block that serves a request tiles its own bytes with what it leaves free. -/
theorem granted_split {lo hi n : ℕ} {b : Blk} {segments : List (ℕ × ℕ)} (enough : n ≤ b.size)
    (tiles : Tiles lo hi (b.extent :: segments)) :
    Tiles lo hi ((granted n b).extent :: ((leftover n b).map Blk.extent ++ segments)) := by
  by_cases small : b.size - n < 32
  · simpa [granted, leftover, small] using tiles
  · have parts := tiles.split (b := b.addr + 16 + n) (by omega) (by omega)
    have size : b.addr + 16 + n + 16 + (b.size - n - 16) = b.addr + 16 + b.size := by omega
    simpa [granted, leftover, small, Blk.extent, size] using parts

theorem blocks_taken {L : Layout} {front back : List Blk} {b : Blk} (free : L.free = front ++ b :: back) :
    L.blocks.Perm (b :: L.head :: (front ++ back ++ L.live)) := by
  have moved : (L.head :: (front ++ b :: (back ++ L.live))).Perm (b :: (L.head :: (front ++ (back ++ L.live)))) :=
    @List.perm_middle _ b (L.head :: front) (back ++ L.live)
  simpa [blocks, free] using moved

theorem taken_perm (n : ℕ) (front : List Blk) (b : Blk) (back : List Blk) (L : Layout) :
    (L.taken n front b back).blocks.Perm (granted n b :: (leftover n b ++ L.head :: (front ++ back ++ L.live))) := by
  rw [List.perm_iff_count]
  intro c
  simp only [blocks, taken, List.count_cons, List.count_append]
  omega

theorem taken_tiled {lo hi n : ℕ} {L : Layout} {front back : List Blk} {b : Blk} (tiled : L.Tiled lo hi)
    (free : L.free = front ++ b :: back) (enough : n ≤ b.size) : (L.taken n front b back).Tiled lo hi := by
  have split := granted_split enough (tiled.perm ((blocks_taken free).map Blk.extent))
  refine split.perm (List.Perm.trans ?_ ((taken_perm n front b back L).symm.map Blk.extent))
  simp

theorem cut_tiled {lo hi n : ℕ} {L : Layout} (tiled : L.Tiled lo hi) (enough : n + 16 ≤ L.head.size) :
    (L.cut n).Tiled lo hi := by
  have parts := Tiles.split (b := L.head.addr + 16 + n) tiled (by omega) (by omega)
  have size : L.head.addr + 16 + n + 16 + (L.head.size - n - 16) = L.head.addr + 16 + L.head.size := by omega
  refine parts.perm ?_
  have order : (⟨L.head.addr, n⟩ :: ⟨L.head.addr + 16 + n, L.head.size - n - 16⟩ :: (L.free ++ L.live)).Perm
      (⟨L.head.addr + 16 + n, L.head.size - n - 16⟩ :: (L.free ++ ⟨L.head.addr, n⟩ :: L.live) : List Blk) := by
    rw [List.perm_iff_count]
    intro c
    simp only [List.count_cons, List.count_append]
    omega
  simpa [blocks, cut, Blk.extent, size] using order.map Blk.extent

/-- The block that serves a request is live afterwards and large enough. -/
theorem malloc_live (n : ℕ) (L : Layout) : (L.malloc n).1 ∈ (L.malloc n).2.live ∧ n ≤ (L.malloc n).1.size ∧
    (L.malloc n).2.live = (L.malloc n).1 :: L.live := by
  unfold malloc
  cases found : fit n L.free with
  | some parts =>
    obtain ⟨front, b, back⟩ := parts
    obtain ⟨_, enough, _⟩ := fit_some found
    exact ⟨List.mem_cons_self, granted_size enough, rfl⟩
  | none => exact ⟨List.mem_cons_self, le_refl n, rfl⟩

theorem release_perm {L : Layout} {b : Blk} (live : b ∈ L.live) : (release b L).blocks.Perm L.blocks := by
  have moved : (L.head :: (L.free ++ b :: L.live.erase b)).Perm L.blocks :=
    ((List.perm_cons_erase live).symm.append_left L.free).cons L.head
  exact (List.perm_middle.symm.cons L.head).trans moved

theorem release_tiled {lo hi : ℕ} {L : Layout} {b : Blk} (tiled : L.Tiled lo hi) (live : b ∈ L.live) :
    (release b L).Tiled lo hi :=
  Tiles.perm tiled ((release_perm live).symm.map Blk.extent)

end Layout
end OsC.Blocks
