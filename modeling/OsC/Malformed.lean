import OsC.Tags

/-!
The tag loop on any bytes. The code checks nothing that it reads: the loop ends,
reads inside the block and counts without fault if and only if the tags that it
meets are formed well enough (`tag_loop_safe_iff`).
-/
namespace OsC.Malformed
open OsC.Bytes OsC.Word OsC.Loop OsC.Vga OsC.Tags

/-- A read lies in the block of `total_size` bytes. -/
def Inside (start total_size : ℕ) (r : ℕ × ℕ) : Prop := start ≤ r.1 ∧ r.1 + r.2 ≤ start + total_size

/-- The loop ends, without a fault, its reads lie in the block, and no count wraps below zero. -/
def Safe (m : Memory) (start total_size : ℕ) : Prop :=
  ∀ (g : Globals) (t : Terminal), ∃ fuel s', tag_loop m fuel (first_tag start) ⟨g, t, [], [], []⟩ = .ok () s' ∧
    (∀ r ∈ s'.reads, Inside start total_size r) ∧ ∀ size ∈ s'.counted, 16 ≤ size

/-- The address behind a tag, rounded up to a multiple of 8. -/
def behind (m : Memory) (a : ℕ) : ℕ := (a + tag_size m a + 7) / 8 * 8 % 2 ^ 64

/-- The number of a memory map's entries that an `int` counts. -/
def counted_entries (m : Memory) (a : ℕ) : ℕ :=
  let count := (tag_size m a - 16) / tag_entry_size m a
  if count < 2 ^ 31 then count else 0

/-- What the switch needs of a tag of these types: its fields, its string, and its
    entries of 24 bytes lie in the block, and the numbers of a memory map can be divided. -/
structure Fits (m : Memory) (start total_size a : ℕ) : Prop where
  info : tag_type m a = multiboot_memory_info_tag →
    Inside start total_size (wrap (a + 8), 4) ∧ Inside start total_size (wrap (a + 12), 4)
  string : tag_type m a = multiboot_boot_load_name_tag ∨ tag_type m a = multiboot_boot_command_line_tag →
    ∃ str, tag_string m a = some str ∧ Inside start total_size (string_address a, str.length + 1)
  map : tag_type m a = multiboot_memory_map_tag → 16 ≤ tag_size m a ∧ tag_entry_size m a ≠ 0 ∧
    Inside start total_size (wrap (a + 8), 4) ∧
      ∀ i < counted_entries m a, Inside start total_size ((a + 16 + 24 * i) % 2 ^ 64, 24)

/-- The header of a tag that is not the end tag lies in the block, and its contents fit. -/
structure Met (m : Memory) (start total_size a : ℕ) : Prop where
  other : tag_type m a ≠ multiboot_end_tag
  typed : Inside start total_size (a, 4)
  sized : Inside start total_size (wrap (a + 4), 4)
  fits : Fits m start total_size a

/-- From the address on, the sizes of the tags lead to an end tag, or to the end of the address space. -/
inductive Formed (m : Memory) (start total_size : ℕ) : ℕ → Prop
  | last {a : ℕ} (ends : tag_type m a = multiboot_end_tag) (typed : Inside start total_size (a, 4)) :
      Formed m start total_size a
  | wrapped {a : ℕ} (met : Met m start total_size a) (zero : behind m a = 0) : Formed m start total_size a
  | tag {a : ℕ} (met : Met m start total_size a) (next : Formed m start total_size (behind m a)) :
      Formed m start total_size a

section
variable {m : Memory} {start total_size a : ℕ} {s s' : State}

/-! ### The code's step and count -/

theorem next_tag_behind (m : Memory) (a : ℕ) : next_tag a (tag_size m a) = behind m a := by
  have sum : wrap (a + tag_size m a) = (a + tag_size m a) % 2 ^ 64 := by
    unfold wrap
    omega
  by_cases aligned : wrap (a + tag_size m a) % 8 = 0
  · have exact : next_tag a (tag_size m a) = wrap (a + tag_size m a) := if_neg (not_not.mpr aligned)
    rw [exact, behind]
    omega
  · have rounded : next_tag a (tag_size m a) = wrap (wrap (a + tag_size m a) + (8 - wrap (a + tag_size m a) % 8)) := if_pos aligned
    rw [rounded, behind, sum]
    unfold wrap
    omega

/-- The entries that the code reads of a memory map whose size is at least 16. -/
theorem entries_eq (least : 16 ≤ tag_size m a) : entries m a =
    (List.range (counted_entries m a)).map fun i => ((a + 16 + 24 * i) % 2 ^ 64, 24) := by
  have size : tag_size m a < 2 ^ 32 := read_lt m 4 _
  have exact : wrap ((tag_size m a : ℤ) - 16) = tag_size m a - 16 := wrap_eq (by omega) (by omega)
  have few : (tag_size m a - 16) / tag_entry_size m a ≤ tag_size m a - 16 := Nat.div_le_self _ _
  have count : (num_of_maps (tag_size m a) (tag_entry_size m a)).toNat = counted_entries m a := by
    obtain ⟨n, isN⟩ : ∃ n, n = (tag_size m a - 16) / tag_entry_size m a := ⟨_, rfl⟩
    rw [num_of_maps, exact, counted_entries, ← isN]
    simp only [Printf.int, Int.bmod]
    split <;> split <;> omega
  rw [entries, count]
  refine List.map_congr_left fun i _ => ?_
  have address : memory_maps a i = (a + 16 + 24 * i) % 2 ^ 64 := by
    unfold memory_maps wrap
    omega
  rw [address]

/-- What a turn reads and counts is in order. -/
structure Orderly (m : Memory) (start total_size a : ℕ) : Prop where
  parsable : Parsable m a
  reads : ∀ r ∈ turn_reads m a, Inside start total_size r
  counted : ∀ size ∈ tag_counted m a, 16 ≤ size

theorem string_of_reads (found : (tag_string m a).isSome) (inside : ∀ r ∈ string_reads m a, Inside start total_size r) :
    ∃ str, tag_string m a = some str ∧ Inside start total_size (string_address a, str.length + 1) := by
  obtain ⟨str, isString⟩ := Option.isSome_iff_exists.mp found
  refine ⟨str, isString, inside _ ?_⟩
  rw [string_reads, isString]
  simp

theorem Orderly.fits (orderly : Orderly m start total_size a) : Fits m start total_size a := by
  have inside : ∀ r ∈ tag_reads m a, Inside start total_size r := fun r member =>
    orderly.reads r (by simp [turn_reads, member])
  have counted := orderly.counted
  unfold tag_reads at inside
  unfold tag_counted at counted
  refine ⟨fun info => ?_, fun string => ?_, fun map => ?_⟩
  · rw [if_pos info] at inside
    exact ⟨inside _ (by simp), inside _ (by simp)⟩
  · rcases string with name | command
    · rw [if_neg (by rw [name]; decide), if_pos name] at inside
      exact string_of_reads (orderly.parsable.named name) inside
    · rw [if_neg (by rw [command]; decide), if_neg (by rw [command]; decide), if_neg (by rw [command]; decide),
        if_pos command] at inside
      exact string_of_reads (orderly.parsable.commanded command) inside
  · rw [if_pos map] at counted
    rw [if_neg (by rw [map]; decide), if_neg (by rw [map]; decide), if_neg (by rw [map]; decide),
      if_neg (by rw [map]; decide), if_neg (by rw [map]; decide), if_pos map] at inside
    have least : 16 ≤ tag_size m a := counted _ (by simp)
    refine ⟨least, orderly.parsable.divisible map, inside _ (by simp), fun i below => inside _ ?_⟩
    rw [entries_eq least, List.mem_append, List.mem_reverse]
    exact .inl (List.mem_map.mpr ⟨i, List.mem_range.mpr below, rfl⟩)

theorem Orderly.typed (orderly : Orderly m start total_size a) : Inside start total_size (a, 4) :=
  orderly.reads _ (by simp [turn_reads])

theorem Orderly.met (orderly : Orderly m start total_size a) (other : tag_type m a ≠ multiboot_end_tag) :
    Met m start total_size a := by
  have more : tag_type m a ≠ 0 := other
  exact ⟨other, orderly.typed, orderly.reads _ (by simp [turn_reads, more]), orderly.fits⟩

theorem orderly_last (ends : tag_type m a = multiboot_end_tag) (typed : Inside start total_size (a, 4)) :
    Orderly m start total_size a := by
  have zero : tag_type m a = 0 := ends
  refine ⟨⟨fun name => ?_, fun command => ?_, fun map => ?_⟩, fun r member => ?_, fun size member => ?_⟩
  · rw [zero] at name
    cases name
  · rw [zero] at command
    cases command
  · rw [zero] at map
    cases map
  · have none : tag_reads m a = [] := by
      rw [tag_reads, zero]
      rfl
    simp [turn_reads, none, zero] at member
    rw [member]
    exact typed
  · rw [tag_counted, zero] at member
    cases member

theorem string_reads_inside {str : List UInt8} (isString : tag_string m a = some str)
    (inside : Inside start total_size (string_address a, str.length + 1)) :
    ∀ r ∈ string_reads m a, Inside start total_size r := by
  intro r member
  rw [string_reads, isString] at member
  simp at member
  rw [member]
  exact inside

theorem Met.orderly (met : Met m start total_size a) : Orderly m start total_size a := by
  obtain ⟨other, typed, sized, info, string, map⟩ := met
  refine ⟨⟨fun name => ?_, fun command => ?_, fun isMap => (map isMap).2.1⟩, fun r member => ?_, fun size member => ?_⟩
  · obtain ⟨str, found, _⟩ := string (.inl name)
    rw [found]
    rfl
  · obtain ⟨str, found, _⟩ := string (.inr command)
    rw [found]
    rfl
  · have inside : ∀ r ∈ tag_reads m a, Inside start total_size r := by
      unfold tag_reads
      split
      · rename_i isInfo
        simp [info isInfo]
      split
      · rename_i name
        obtain ⟨str, found, inside⟩ := string (.inl name)
        exact string_reads_inside found inside
      split
      · simp
      split
      · rename_i command
        obtain ⟨str, found, inside⟩ := string (.inr command)
        exact string_reads_inside found inside
      split
      · simp
      split
      · rename_i isMap
        obtain ⟨least, _, entry, all⟩ := map isMap
        intro r member
        simp only [List.mem_append, List.mem_reverse, List.mem_cons, List.not_mem_nil, or_false] at member
        rcases member with listed | rfl | rfl
        · rw [entries_eq least] at listed
          obtain ⟨i, below, rfl⟩ := List.mem_map.mp listed
          exact all i (List.mem_range.mp below)
        · exact entry
        · exact sized
      split
      · simp
      · simp [sized]
    have more : tag_type m a ≠ 0 := other
    simp [turn_reads, more] at member
    rcases member with rfl | rfl | later | rfl
    · exact sized
    · exact typed
    · exact inside r later
    · exact typed
  · unfold tag_counted at member
    split at member
    · rename_i isMap
      rw [List.mem_singleton.mp member]
      exact (map isMap).1
    · cases member

/-! ### The loop -/

/-- A loop that ends has done its first turn, and the rest if the tag is not the last. -/
theorem tag_loop_turn {fuel : ℕ} (ended : tag_loop m fuel a s = .ok () s') : ∃ less s₁, Parsable m a ∧ Turned m a s s₁ ∧
    (following m a = 0 ∧ s' = s₁ ∨ following m a ≠ 0 ∧ fuel = less + 1 ∧ tag_loop m less (following m a) s₁ = .ok () s') := by
  cases fuel with
  | zero => cases ended
  | succ fuel =>
    rw [tag_loop] at ended
    by_cases parsable : Parsable m a
    · obtain ⟨s₁, ran, turned⟩ := turn_run parsable s
      have rest := (bind_ok ran _).symm.trans ended
      refine ⟨fuel, s₁, parsable, turned, ?_⟩
      by_cases more : following m a ≠ 0
      · rw [if_pos more] at rest
        exact .inr ⟨more, rfl, rest⟩
      · rw [if_neg more] at rest
        cases rest
        exact .inl ⟨not_not.mp more, rfl⟩
    · obtain ⟨fault, s₁, fails⟩ := turn_fails parsable s
      have stops := (bind_error fails _).symm.trans ended
      cases stops

theorem tag_loop_grows {fuel : ℕ} (ended : tag_loop m fuel a s = .ok () s') :
    s.reads <:+ s'.reads ∧ s.counted <:+ s'.counted := by
  induction fuel generalizing a s with
  | zero => cases ended
  | succ fuel ih =>
    obtain ⟨less, s₁, _, turned, stops | ⟨_, same, rest⟩⟩ := tag_loop_turn ended
    · rw [stops.2]
      exact ⟨⟨_, turned.reads.symm⟩, ⟨_, turned.counted.symm⟩⟩
    · obtain rfl : fuel = less := Nat.succ.inj same
      obtain ⟨reads, counted⟩ := ih rest
      exact ⟨.trans ⟨_, turned.reads.symm⟩ reads, .trans ⟨_, turned.counted.symm⟩ counted⟩

/-- A loop that ends without reading outside the block met well-formed tags. -/
theorem tag_loop_formed {fuel : ℕ} (ended : tag_loop m fuel a s = .ok () s')
    (reads : ∀ r ∈ s'.reads, Inside start total_size r) (counted : ∀ size ∈ s'.counted, 16 ≤ size) :
    Formed m start total_size a := by
  induction fuel generalizing a s with
  | zero => cases ended
  | succ fuel ih =>
    obtain ⟨less, s₁, parsable, turned, rest⟩ := tag_loop_turn ended
    have grown : s₁.reads <:+ s'.reads ∧ s₁.counted <:+ s'.counted := by
      rcases rest with ⟨_, same⟩ | ⟨_, _, rest⟩
      · rw [same]
        exact ⟨List.suffix_rfl, List.suffix_rfl⟩
      · exact tag_loop_grows rest
    have orderly : Orderly m start total_size a := by
      refine ⟨parsable, fun r member => ?_, fun size member => ?_⟩
      · apply reads
        apply grown.1.subset
        rw [turned.reads]
        exact List.mem_append_left _ member
      · apply counted
        apply grown.2.subset
        rw [turned.counted]
        exact List.mem_append_left _ member
    by_cases ends : tag_type m a = multiboot_end_tag
    · exact .last ends orderly.typed
    · have next : following m a = behind m a := (if_pos ends).trans (next_tag_behind m a)
      rw [next] at rest
      rcases rest with ⟨zero, _⟩ | ⟨_, same, rest⟩
      · exact .wrapped (orderly.met ends) zero
      · obtain rfl : fuel = less := Nat.succ.inj same
        exact .tag (orderly.met ends) (ih rest)

/-- A turn at an orderly tag keeps to the block. -/
theorem Orderly.turn (orderly : Orderly m start total_size a) (reads : ∀ r ∈ s.reads, Inside start total_size r)
    (counted : ∀ size ∈ s.counted, 16 ≤ size) : ∃ s₁, Tags.turn m a s = .ok (following m a) s₁ ∧
      (∀ r ∈ s₁.reads, Inside start total_size r) ∧ ∀ size ∈ s₁.counted, 16 ≤ size := by
  obtain ⟨s₁, ran, turned⟩ := turn_run orderly.parsable s
  refine ⟨s₁, ran, fun r member => ?_, fun size member => ?_⟩
  · rw [turned.reads] at member
    rcases List.mem_append.mp member with new | old
    · exact orderly.reads r new
    · exact reads r old
  · rw [turned.counted] at member
    rcases List.mem_append.mp member with new | old
    · exact orderly.counted size new
    · exact counted size old

theorem tag_loop_stops {s₁ : State} (ran : Tags.turn m a s = .ok 0 s₁) : tag_loop m 1 a s = .ok () s₁ := by
  rw [tag_loop]
  exact bind_ok ran _

/-- The walk of well-formed tags ends, and reads in the block. -/
theorem formed_tag_loop (formed : Formed m start total_size a) (s : State)
    (reads : ∀ r ∈ s.reads, Inside start total_size r) (counted : ∀ size ∈ s.counted, 16 ≤ size) :
    ∃ fuel s', tag_loop m fuel a s = .ok () s' ∧ (∀ r ∈ s'.reads, Inside start total_size r) ∧
      ∀ size ∈ s'.counted, 16 ≤ size := by
  induction formed generalizing s with
  | last ends typed =>
    obtain ⟨s₁, ran, inside⟩ := (orderly_last ends typed).turn reads counted
    have stops : following m _ = 0 := if_neg (not_not.mpr ends)
    rw [stops] at ran
    exact ⟨1, s₁, tag_loop_stops ran, inside⟩
  | wrapped met zero =>
    obtain ⟨s₁, ran, inside⟩ := met.orderly.turn reads counted
    have stops : following m _ = 0 := (if_pos met.other).trans ((next_tag_behind m _).trans zero)
    rw [stops] at ran
    exact ⟨1, s₁, tag_loop_stops ran, inside⟩
  | @tag a met next ih =>
    obtain ⟨s₁, ran, inside⟩ := met.orderly.turn reads counted
    have goes : following m a = behind m a := (if_pos met.other).trans (next_tag_behind m a)
    rw [goes] at ran
    by_cases zero : behind m a = 0
    · rw [zero] at ran
      exact ⟨1, s₁, tag_loop_stops ran, inside⟩
    · obtain ⟨fuel, s', ran', inside'⟩ := ih s₁ inside.1 inside.2
      refine ⟨fuel + 1, s', ?_, inside'⟩
      rw [tag_loop]
      refine (bind_ok ran _).trans ?_
      rw [if_pos zero]
      exact ran'

/-- Whatever the bytes of the block, the loop ends, reads inside the block, divides
    by no zero and counts from no size below 16 if and only if the tags from
    behind the header on are well formed. -/
theorem tag_loop_safe_iff (m : Memory) (start total_size : ℕ) :
    Safe m start total_size ↔ Formed m start total_size (first_tag start) := by
  constructor
  · intro safe
    obtain ⟨fuel, s', ended, reads, counted⟩ := safe ⟨0, 0, 0, 0, 0, 0, 0, 0⟩ (opened fun _ => 0)
    exact tag_loop_formed ended reads counted
  · intro formed g t
    exact formed_tag_loop formed ⟨g, t, [], [], []⟩ (by simp) (by simp)

end

/-- A block of 16 bytes with a modules tag of size 0. -/
def size_zero : Memory := set (fun _ => 0) 0x1008 3

theorem size_zero_unsafe : ¬ Safe size_zero 0x1000 16 := by
  intro safe
  obtain ⟨fuel, s', ended, reads, counted⟩ := safe ⟨0, 0, 0, 0, 0, 0, 0, 0⟩ (opened fun _ => 0)
  have formed := tag_loop_formed ended reads counted
  have stays : ∀ a, Formed size_zero 0x1000 16 a → a ≠ 0x1008 := by
    intro a formed
    induction formed with
    | last ends typed =>
      rintro rfl
      revert ends
      decide
    | wrapped met zero =>
      rintro rfl
      revert zero
      decide
    | tag met next ih =>
      rintro rfl
      apply ih
      decide
  apply stays _ formed
  decide

end OsC.Malformed
