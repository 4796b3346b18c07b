import OsC.PageMap

/-!
The hierarchy that the boot code sets up: slot 0 of the level 4 table leads over
one level 3 table to a level 2 table whose entries map 2 MiB pages, and slot
511 points to the level 4 table itself.
-/
namespace OsC.Boot
open OsC.Entry OsC.Radix OsC.Walk OsC.Paging OsC.Recursive OsC.Tables OsC.PageMap

/-- The tables in the frames `p4`, `p3` and `p2` that `set_up_page_tables` and `enable_paging` fill. -/
structure BootTables (mem : Tables) (p4 p3 p2 : ℕ) : Prop where
  p4_entry : ∀ i, mem p4 i = if i = 511 then link p4 else if i = 0 then link p3 else 0
  p3_entry : ∀ i, mem p3 i = if i = 0 then link p2 else 0
  p2_entry : ∀ i : Index, mem p2 i = 0x200000 * i ||| 0x83
  distinct : p4 ≠ p3 ∧ p4 ≠ p2 ∧ p3 ≠ p2
  /-- They are stored as 32-bit addresses. -/
  low : p4 < 2 ^ 20 ∧ p3 < 2 ^ 20 ∧ p2 < 2 ^ 20

section
variable {mem : Tables} {p4 p3 p2 : ℕ} (boot : BootTables mem p4 p3 p2)
include boot

theorem BootTables.slot : next (mem p4 511) = some p4 := by
  rw [boot.p4_entry, if_pos rfl, next_link (by have := boot.low; omega)]

theorem BootTables.window : Window mem p4 p4 := ⟨boot.slot, boot.slot⟩

theorem BootTables.next_p4 {i : Index} (other : i ≠ 511) : next (mem p4 i) = if i = 0 then some p3 else none := by
  rw [boot.p4_entry, if_neg other]
  split
  · exact next_link (by have := boot.low; omega)
  · rfl

theorem BootTables.next_p3 (i : Index) : next (mem p3 i) = if i = 0 then some p2 else none := by
  rw [boot.p3_entry]
  split
  · exact next_link (by have := boot.low; omega)
  · rfl

theorem BootTables.huge_p2 (i : Index) : huge (mem p2 i) = true := by
  rw [boot.p2_entry, huge, Nat.testBit_or, Bool.or_eq_true]
  exact .inr (by decide)

/-- The tables of the boot hierarchy are its three frames, each at one path. -/
theorem BootTables.descend {π : List Index} {f : ℕ} (ordinary : Ordinary π)
    (reaches : descend next mem p4 π = some f) :
    (π = [] ∧ f = p4) ∨ (π = [0] ∧ f = p3) ∨ (π = [0, 0] ∧ f = p2) := by
  cases π with
  | nil => exact .inl ⟨rfl, (Option.some.inj reaches).symm⟩
  | cons i π =>
    have other : i ≠ 511 := by
      rintro rfl
      exact ordinary.2 rfl
    obtain ⟨t, table, reaches⟩ := Option.bind_eq_some_iff.mp reaches
    rw [boot.next_p4 other] at table
    split at table
    next first =>
      obtain rfl := Option.some.inj table
      cases π with
      | nil => exact .inr (.inl ⟨by rw [first], (Option.some.inj reaches).symm⟩)
      | cons j π =>
        obtain ⟨u, table, reaches⟩ := Option.bind_eq_some_iff.mp reaches
        rw [boot.next_p3] at table
        split at table
        next second =>
          obtain rfl := Option.some.inj table
          cases π with
          | nil => exact .inr (.inr ⟨by rw [first, second], (Option.some.inj reaches).symm⟩)
          | cons k π =>
            obtain ⟨v, table, _⟩ := Option.bind_eq_some_iff.mp reaches
            have notHuge := (next_eq_some.mp table).2.1
            rw [boot.huge_p2] at notHuge
            exact absurd notHuge (by decide)
        next => exact absurd table (by simp)
    next => exact absurd table (by simp)

theorem BootTables.isTable {f : ℕ} (table : IsTable mem p4 f) : f = p4 ∨ f = p3 ∨ f = p2 := by
  obtain ⟨π, ordinary, reaches⟩ := table
  rcases boot.descend ordinary reaches with ⟨_, same⟩ | ⟨_, same⟩ | ⟨_, same⟩
  · exact .inl same
  · exact .inr (.inl same)
  · exact .inr (.inr same)

theorem BootTables.tree : Tree next mem p4 Ordinary := by
  intro π ρ u left right first second
  obtain ⟨d₁, d₂, d₃⟩ := boot.distinct
  rcases boot.descend left first with ⟨rfl, rfl⟩ | ⟨rfl, rfl⟩ | ⟨rfl, rfl⟩ <;>
    rcases boot.descend right second with ⟨rfl, same⟩ | ⟨rfl, same⟩ | ⟨rfl, same⟩ <;>
      first
      | rfl
      | exact absurd same (by assumption)
      | exact absurd same.symm (by assumption)

/-- Outside the first slot nothing is mapped. -/
theorem BootTables.plain : Plain mem p4 fun π => Ordinary π ∧ π.head? ≠ some 0 := by
  rintro π i t ⟨ordinary, head⟩ reaches isPresent
  rcases boot.descend (ordinary_closed π _ (List.prefix_append π [i]) ordinary) reaches with
    ⟨rfl, rfl⟩ | ⟨rfl, rfl⟩ | ⟨rfl, rfl⟩
  · have notLast : i ≠ 511 := by
      rintro rfl
      exact ordinary.2 rfl
    have notFirst : i ≠ 0 := by
      rintro rfl
      exact head rfl
    rw [boot.p4_entry, if_neg notLast, if_neg notFirst] at isPresent
    exact absurd isPresent (by decide)
  · exact absurd rfl head
  · exact absurd rfl head

end

/-- A machine of the boot code, with its tables in the frames 0x101 to 0x103 and memory cleared. -/
def machine (frames : List ℕ) : Machine (List ℕ) :=
  { mem := fun f i =>
      if f = 0x101 then if i = 511 then link 0x101 else if i = 0 then link 0x102 else 0
      else if f = 0x102 then if i = 0 then link 0x103 else 0
      else if f = 0x103 then 0x200000 * i ||| 0x83 else 0
    cr3 := link 0x101
    allocator := frames
    trace := [] }

theorem machine_boot (frames : List ℕ) : BootTables (machine frames).mem 0x101 0x102 0x103 :=
  ⟨fun _ => rfl, fun _ => rfl, fun _ => rfl, by decide, by decide⟩

theorem machine_root (frames : List ℕ) : (machine frames).root = 0x101 := by
  change address (link 0x101) = 0x101
  decide

/-- Frames above the tables are supplied to the boot machine. -/
theorem machine_good {frames : List ℕ} (above : ∀ f ∈ frames, 0x103 < f ∧ f < 2 ^ 40) (distinct : frames.Nodup) :
    Good from_list 0x101 frames (machine frames) := by
  have boot := machine_boot frames
  have root := machine_root frames
  refine ⟨⟨root.symm ▸ boot.window, supplies_from_list frames, fun f member => (above f member).2, fun f member j => ?_,
    fun f member => ⟨?_, fun table => ?_⟩, distinct⟩, boot.tree, .inl root⟩
  · have := (above f member).1
    simp only [machine]
    rw [if_neg (by omega), if_neg (by omega), if_neg (by omega)]
  · have := (above f member).1
    rw [root]
    omega
  · have := (above f member).1
    rcases boot.isTable table with same | same | same <;> omega

end OsC.Boot
