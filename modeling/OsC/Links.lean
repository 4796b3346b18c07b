import Mathlib.Data.List.Nodup
import Mathlib.Data.Nat.Notation

/-!
Singly linked lists in a store. `next` gives the link of every cell and 0 ends
a list; `Chain next a cells` says that the list after the cell `a` runs through
`cells`. Lists are unlinked, spliced and pushed on by changing single links.
-/
namespace OsC.Links

/-- The list that hangs on the link of `a` is `cells`, in order. -/
def Chain (next : ℕ → ℕ) : ℕ → List ℕ → Prop
  | a, [] => next a = 0
  | a, c :: cells => next a = c ∧ Chain next c cells

/-- The links from `a` through `cells`; the link of the last cell is left open. -/
def Path (next : ℕ → ℕ) : ℕ → List ℕ → Prop
  | _, [] => True
  | a, c :: cells => next a = c ∧ Path next c cells

/-- The last cell of a path from `a`. -/
def lastFrom : ℕ → List ℕ → ℕ
  | a, [] => a
  | _, c :: cells => lastFrom c cells

section
variable {next next' : ℕ → ℕ}

theorem lastFrom_mem (a : ℕ) (cells : List ℕ) : lastFrom a cells ∈ a :: cells := by
  induction cells generalizing a with
  | nil => simp [lastFrom]
  | cons c cells ih => exact List.mem_cons_of_mem a (ih c)

theorem chain_append {a : ℕ} {front back : List ℕ} :
    Chain next a (front ++ back) ↔ Path next a front ∧ Chain next (lastFrom a front) back := by
  induction front generalizing a with
  | nil => simp [Path, lastFrom]
  | cons c front ih => simp [Chain, Path, lastFrom, ih, and_assoc]

/-- A path keeps when only the link of its last cell changes. -/
theorem Path.keep {a : ℕ} {cells : List ℕ} (path : Path next a cells) (distinct : (a :: cells).Nodup)
    (same : ∀ x ∈ a :: cells, x ≠ lastFrom a cells → next' x = next x) : Path next' a cells := by
  induction cells generalizing a with
  | nil => trivial
  | cons c cells ih =>
    obtain ⟨fresh, distinct⟩ := List.nodup_cons.mp distinct
    have other : a ≠ lastFrom c cells := fun equal => fresh (equal ▸ lastFrom_mem c cells)
    refine ⟨(same a (by simp) other).trans path.1, ih path.2 distinct ?_⟩
    intro x member notLast
    exact same x (List.mem_cons_of_mem a member) notLast

/-- The list after `a` hangs on `b` once `b` has the link that `a` had. -/
theorem Chain.move {a b : ℕ} {cells : List ℕ} (chain : Chain next a cells) (link : next' b = next a)
    (same : ∀ x ∈ cells, next' x = next x) : Chain next' b cells := by
  induction cells generalizing a b with
  | nil => exact link.trans chain
  | cons c cells ih =>
    refine ⟨link.trans chain.1, ih chain.2 (same c (by simp)) ?_⟩
    intro x member
    exact same x (List.mem_cons_of_mem c member)

/-- A cell has one list behind it. -/
theorem Chain.unique {a : ℕ} {cells other : List ℕ} (chain : Chain next a cells) (chain' : Chain next a other)
    (nonzero : 0 ∉ cells) (nonzero' : 0 ∉ other) : cells = other := by
  induction cells generalizing a other with
  | nil =>
    cases other with
    | nil => rfl
    | cons c other => exact absurd (chain'.1.symm.trans chain) fun zero => nonzero' (zero ▸ List.mem_cons_self)
  | cons c cells ih =>
    cases other with
    | nil => exact absurd (chain.1.symm.trans chain') fun zero => nonzero (zero ▸ List.mem_cons_self)
    | cons d other =>
      obtain rfl : c = d := chain.1.symm.trans chain'.1
      rw [ih chain.2 chain'.2 (fun later => nonzero (List.mem_cons_of_mem c later))
        fun later => nonzero' (List.mem_cons_of_mem c later)]

/-- A list behind a front part is replaced by changing the link of the last
    cell of the front. -/
theorem Chain.splice {a : ℕ} {front back tail : List ℕ} (chain : Chain next a (front ++ back))
    (distinct : (a :: front).Nodup) (same : ∀ x ∈ a :: front, x ≠ lastFrom a front → next' x = next x)
    (replaced : Chain next' (lastFrom a front) tail) : Chain next' a (front ++ tail) :=
  chain_append.mpr ⟨(chain_append.mp chain).1.keep distinct same, replaced⟩

/-- Lists through the same cells have the same links there. -/
theorem Chain.same {a b : ℕ} {cells : List ℕ} (chain : Chain next a cells) (chain' : Chain next' b cells) :
    ∀ x ∈ cells, next' x = next x := by
  induction cells generalizing a b with
  | nil => exact fun x member => absurd member List.not_mem_nil
  | cons c cells ih =>
    intro x member
    rcases List.mem_cons.mp member with rfl | member
    · cases cells with
      | nil => exact chain'.2.trans chain.2.symm
      | cons d cells => exact chain'.2.1.trans chain.2.1.symm
    · exact ih chain.2 chain'.2 x member

theorem Path.same {a : ℕ} {cells : List ℕ} (path : Path next a cells) (path' : Path next' a cells) :
    ∀ x ∈ a :: cells, x ≠ lastFrom a cells → next' x = next x := by
  induction cells generalizing a with
  | nil => exact fun x member other => absurd (List.mem_singleton.mp member) other
  | cons c cells ih =>
    intro x member other
    rcases List.mem_cons.mp member with rfl | member
    · exact path'.1.trans path.1.symm
    · exact ih path.2 path'.2 x member other

/-- Lists that differ between a front and a back part have the same links in these, but in the last cell of the front. -/
theorem Chain.same_around {a : ℕ} {front back middle middle' : List ℕ} (chain : Chain next a (front ++ middle ++ back))
    (chain' : Chain next' a (front ++ middle' ++ back)) :
    ∀ x ∈ a :: (front ++ back), x ≠ lastFrom a front → next' x = next x := by
  rw [List.append_assoc, chain_append, chain_append] at chain chain'
  intro x member other
  rw [← List.cons_append, List.mem_append] at member
  rcases member with inFront | inBack
  · exact chain.1.same chain'.1 x inFront other
  · exact chain.2.2.same chain'.2.2 x inBack

end
end OsC.Links
