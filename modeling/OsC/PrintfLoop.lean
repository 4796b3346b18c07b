import OsC.Printf
import OsC.Loop

/-!
Turns of the loop of `terminal_printf`, at a position behind any text: an
ordinary character, an escaped one and a doubled percent sign print one
character each.
-/
namespace OsC.PrintfLoop
open OsC.Loop OsC.Vga OsC.Printf

/-- A console on which something was printed. -/
def shown (s : Console) (act : Terminal → Terminal) : Console := { s with terminal := act s.terminal }

section
variable {caller : Caller} {str before after : List UInt8} {c : UInt8} {s s' : Console} {i j fuel : ℕ}

theorem char_at (before : List UInt8) (c : UInt8) (after : List UInt8) (s : Console) :
    char (before ++ c :: after) before.length s = .ok c s := by
  have less : before.length < (before ++ c :: after).length := by simp
  rw [char, if_pos less]
  simp [List.getD_eq_getElem?_getD]
  rfl

theorem char_next (before : List UInt8) (b c : UInt8) (after : List UInt8) (s : Console) :
    char (before ++ b :: c :: after) (before.length + 1) s = .ok c s := by
  have moved := char_at (before ++ [b]) c after s
  simpa using moved

/-- A character that begins neither an escape nor a conversion. -/
def Ordinary (c : UInt8) : Prop := c ≠ backslash ∧ c ≠ code '%'

theorem turn_ordinary (ordinary : Ordinary c) :
    printf_turn caller (before ++ c :: after) before.length s = .ok before.length (shown s (put_plain c)) := by
  rw [printf_turn, bind_ok (char_at before c after s), if_neg ordinary.1, if_neg ordinary.2]
  rfl

theorem turn_escaped : printf_turn caller (before ++ backslash :: c :: after) before.length s =
    .ok (before.length + 1) (shown s (put_plain c)) := by
  rw [printf_turn, bind_ok (char_at before _ _ s), if_pos rfl, bind_ok (char_next before _ c after s)]
  rfl

theorem turn_percent : printf_turn caller (before ++ code '%' :: code '%' :: after) before.length s =
    .ok (before.length + 1) (shown s (put_plain (code '%'))) := by
  rw [printf_turn, bind_ok (char_at before _ _ s), if_neg (by decide), if_pos rfl,
    bind_ok (char_next before _ (code '%') after s)]
  rfl

theorem loop_turn (less : i < str.length) (ran : printf_turn caller str i s = .ok j s') :
    printf_loop caller str (fuel + 1) i s = printf_loop caller str fuel (j + 1) s' := by
  rw [printf_loop, if_pos less, bind_ok ran]

theorem loop_end (str : List UInt8) : printf_loop caller str (fuel + 1) str.length s = .ok () s := by
  rw [printf_loop, if_neg (Nat.lt_irrefl _)]
  rfl

/-- The rest of a string of ordinary characters. -/
theorem loop_ordinary {text : List UInt8} (ordinary : ∀ c ∈ text, Ordinary c) (enough : text.length < fuel) :
    printf_loop caller (before ++ text) fuel before.length s =
      .ok () (shown s fun t => text.foldl (fun t c => put_plain c t) t) := by
  induction text generalizing before fuel s with
  | nil =>
    obtain ⟨fuel, rfl⟩ : ∃ k, fuel = k + 1 := ⟨fuel - 1, by omega⟩
    rw [List.append_nil, loop_end]
    rfl
  | cons c text ih =>
    obtain ⟨fuel, rfl⟩ : ∃ k, fuel = k + 1 := ⟨fuel - 1, by omega⟩
    have inside : before.length < (before ++ c :: text).length := by simp
    have rest : printf_loop caller ((before ++ [c]) ++ text) fuel (before ++ [c]).length (shown s (put_plain c)) = _ :=
      ih (fun d member => ordinary d (List.mem_cons_of_mem c member)) (by simp at enough; omega)
    rw [loop_turn inside (turn_ordinary (ordinary c List.mem_cons_self))]
    simpa [shown] using rest

theorem terminal_printf_ordinary {str : List UInt8} (ordinary : ∀ c ∈ str, Ordinary c) (s : Console) :
    terminal_printf caller str s =
      .ok () { s with next_arg := 0, terminal := str.foldl (fun t c => put_plain c t) s.terminal } := by
  have ran : printf_loop caller ([] ++ str) (str.length + 1) [].length { s with next_arg := 0 } = _ :=
    loop_ordinary ordinary (Nat.lt_succ_self str.length)
  exact ran

end
end OsC.PrintfLoop
