import Mathlib.Data.List.Infix
import Mathlib.Data.List.Induction

/-!
Tables that point to tables. A memory gives each table an entry at each index,
and an entry may name a next table; a path of indices then descends from a
table. Changing one entry changes only the descents through it; where no two
paths of a domain reach the same table, these are the paths with one prefix.
-/
namespace OsC.Radix

section
variable {F I E : Type*} {next : E → Option F}

/-- The table that a path of indices reaches. -/
def descend (next : E → Option F) (mem : F → I → E) : F → List I → Option F
  | t, [] => some t
  | t, i :: path => (next (mem t i)).bind fun u => descend next mem u path

variable {mem mem' : F → I → E} {t u v : F} {i : I} {π ρ : List I}

@[simp] theorem descend_nil : descend next mem t [] = some t := rfl

theorem descend_append : descend next mem t (π ++ ρ) = (descend next mem t π).bind fun u => descend next mem u ρ := by
  induction π generalizing t with
  | nil => rfl
  | cons i π ih =>
    cases found : next (mem t i) with
    | none => simp [descend, found]
    | some u => simp [descend, found, ih]

theorem descend_snoc (reaches : descend next mem t π = some u) :
    descend next mem t (π ++ [i]) = next (mem u i) := by
  cases found : next (mem u i) <;> simp [descend_append, reaches, descend, found]

theorem descend_snoc_some (reaches : descend next mem t (π ++ [i]) = some v) :
    ∃ u, descend next mem t π = some u ∧ next (mem u i) = some v := by
  rw [descend_append] at reaches
  obtain ⟨u, first, last⟩ := Option.bind_eq_some_iff.mp reaches
  refine ⟨u, first, ?_⟩
  cases found : next (mem u i) with
  | none => simp [descend, found] at last
  | some w => simpa [descend, found] using last

/-- Descents agree in memories that agree on the entries that they pass. -/
theorem descend_congr
    (agree : ∀ ρ i u, ρ ++ [i] <+: π → descend next mem t ρ = some u → mem' u i = mem u i) :
    descend next mem' t π = descend next mem t π := by
  induction π using List.reverseRecOn with
  | nil => rfl
  | append_singleton π i ih =>
    have before := ih fun ρ j u inside reaches => agree ρ j u (inside.trans (List.prefix_append π [i])) reaches
    rw [descend_append, descend_append, before]
    cases reaches : descend next mem t π with
    | none => rfl
    | some u => simp [descend, agree π i u (List.prefix_refl _) reaches]

end

/-! ### Changing one entry -/

section
variable {F I E : Type*} [DecidableEq F] [DecidableEq I] {next : E → Option F}

/-- One entry changed. -/
def put (mem : F → I → E) (t : F) (i : I) (e : E) : F → I → E := fun f j => if f = t ∧ j = i then e else mem f j

variable {mem : F → I → E} {t u v : F} {i j : I} {e : E} {π ρ : List I}

@[simp] theorem put_same : put mem t i e t i = e := if_pos ⟨rfl, rfl⟩

theorem put_other (other : ¬ (u = t ∧ j = i)) : put mem t i e u j = mem u j := if_neg other

theorem put_row (other : u ≠ t) (j : I) : put mem t i e u j = mem u j := if_neg fun same => other same.1

theorem put_self (same : mem t i = e) : put mem t i e = mem := by
  funext f j
  by_cases here : f = t ∧ j = i
  · obtain ⟨rfl, rfl⟩ := here
    rw [put_same, same]
  · exact put_other here

/-- Filling an entry that names no table keeps every descent. -/
theorem descend_put_absent (absent : next (mem u i) = none) (reaches : descend next mem t π = some v) :
    descend next (put mem u i e) t π = some v := by
  induction π using List.reverseRecOn generalizing v with
  | nil => exact reaches
  | append_singleton π j ih =>
    obtain ⟨w, first, last⟩ := descend_snoc_some reaches
    rw [descend_snoc (ih first), put_other, last]
    rintro ⟨rfl, rfl⟩
    simp [absent] at last

/-- A table is reached past any entry of its own. -/
theorem descend_put_past (i : I) (e : E) (reaches : descend next mem t π = some u) :
    ∃ σ, σ.length ≤ π.length ∧ descend next mem t σ = some u ∧ descend next (put mem u i e) t σ = some u := by
  induction length : π.length using Nat.strong_induction_on generalizing π with
  | _ n ih =>
    by_cases passes : ∃ σ, σ ++ [i] <+: π ∧ descend next mem t σ = some u
    · obtain ⟨σ, inside, shorter⟩ := passes
      have less := inside.length_le
      rw [List.length_append, List.length_singleton] at less
      obtain ⟨τ, short, rest⟩ := ih σ.length (by omega) shorter rfl
      exact ⟨τ, by omega, rest⟩
    · refine ⟨π, length.le, reaches, (descend_congr fun σ j v inside leads => put_other ?_).trans reaches⟩
      rintro ⟨rfl, rfl⟩
      exact passes ⟨σ, inside, leads⟩

/-! ### Trees -/

/-- No two paths of the domain reach the same table. -/
def Tree (next : E → Option F) (mem : F → I → E) (t : F) (dom : List I → Prop) : Prop :=
  ∀ π ρ u, dom π → dom ρ → descend next mem t π = some u → descend next mem t ρ = some u → π = ρ

/-- A domain contains the prefixes of its paths. -/
def Closed (dom : List I → Prop) : Prop := ∀ π ρ, π <+: ρ → dom ρ → dom π

variable {dom : List I → Prop}

/-- A changed entry is passed only by the paths through it. -/
theorem descend_put_apart (tree : Tree next mem t dom) (closed : Closed dom) (inDom : dom π)
    (reaches : descend next mem t π = some u) (other : dom ρ) (apart : ¬ π ++ [i] <+: ρ) :
    descend next (put mem u i e) t ρ = descend next mem t ρ := by
  refine descend_congr fun σ j v inside passes => put_other ?_
  rintro ⟨rfl, rfl⟩
  have prefixDom := closed σ ρ ((List.prefix_append σ [j]).trans inside) other
  exact apart (tree σ π v prefixDom inDom passes reaches ▸ inside)

/-- An entry that names no table, at the end of a path of the domain, is to
    name a fresh empty table. -/
structure Links (next : E → Option F) (mem : F → I → E) (t : F) (dom : List I → Prop) (π : List I) (u : F) (i : I)
    (e : E) (f : F) : Prop where
  inDom : dom π
  reaches : descend next mem t π = some u
  absent : next (mem u i) = none
  link : next e = some f
  empty : ∀ j, next (mem f j) = none
  fresh : ∀ ρ, dom ρ → descend next mem t ρ ≠ some f

section
variable {f : F} (links : Links next mem t dom π u i e f)
include links

omit [DecidableEq F] [DecidableEq I] in
theorem Links.apart : f ≠ u := by
  rintro rfl
  exact links.fresh π links.inDom links.reaches

theorem Links.reached : descend next (put mem u i e) t (π ++ [i]) = some f := by
  rw [descend_snoc (descend_put_absent links.absent links.reaches), put_same, links.link]

/-- The only table that linking adds is the fresh one. -/
theorem Links.reaches_old (after : descend next (put mem u i e) t ρ = some v) :
    v = f ∨ descend next mem t ρ = some v := by
  induction ρ using List.reverseRecOn generalizing v with
  | nil => exact .inr after
  | append_singleton σ j ih =>
    obtain ⟨w, first, last⟩ := descend_snoc_some after
    rcases ih first with rfl | old
    · rw [put_row links.apart, links.empty j] at last
      exact absurd last (by simp)
    · by_cases here : w = u ∧ j = i
      · obtain ⟨rfl, rfl⟩ := here
        rw [put_same, links.link] at last
        exact .inl (Option.some.inj last).symm
      · rw [put_other here] at last
        exact .inr ((descend_snoc old).trans last)

variable (tree : Tree next mem t dom) (closed : Closed dom)
include tree closed

/-- Linking a fresh empty table adds one path. -/
theorem Links.others (other : dom ρ) (different : ρ ≠ π ++ [i]) :
    descend next (put mem u i e) t ρ = descend next mem t ρ := by
  by_cases through : π ++ [i] <+: ρ
  · obtain ⟨σ, rfl⟩ := through
    cases σ with
    | nil => simp at different
    | cons j σ =>
      have before : descend next mem t (π ++ [i]) = none := (descend_snoc links.reaches).trans links.absent
      rw [descend_append (π := π ++ [i]), descend_append (π := π ++ [i]), links.reached, before]
      simp [descend, put_row links.apart, links.empty j]
  · exact descend_put_apart tree closed links.inDom links.reaches other through

theorem Links.keeps_tree : Tree next (put mem u i e) t dom := by
  have others := fun ρ => links.others (ρ := ρ) tree closed
  intro σ ρ v domLeft domRight left right
  by_cases atLeft : σ = π ++ [i]
  · by_cases atRight : ρ = π ++ [i]
    · exact atLeft.trans atRight.symm
    · rw [others ρ domRight atRight] at right
      rw [atLeft, links.reached] at left
      exact absurd (right.trans left.symm) (links.fresh ρ domRight)
  · rw [others σ domLeft atLeft] at left
    by_cases atRight : ρ = π ++ [i]
    · rw [atRight, links.reached] at right
      exact absurd (left.trans right.symm) (links.fresh σ domLeft)
    · rw [others ρ domRight atRight] at right
      exact tree σ ρ v domLeft domRight left right

end
end
end OsC.Radix
