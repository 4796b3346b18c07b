import OsC.Word

/-!
Physical frames of 4 KiB, kept as their numbers.
-/
namespace OsC.Frames
open OsC.Word

def PAGE_SIZE : ℕ := 4096

def get_frame_for_addr (addr : ℕ) : ℕ := addr / PAGE_SIZE

def get_frame_start_addr (frame : ℕ) : ℕ := wrap (frame * PAGE_SIZE)

/-- The start of a frame below 2^52 is exact. -/
theorem start_addr_eq {f : ℕ} (fits : f < 2 ^ 52) : get_frame_start_addr f = f * 4096 := by
  unfold get_frame_start_addr PAGE_SIZE
  exact wrap_eq (by push_cast; rfl) (by omega)

end OsC.Frames
