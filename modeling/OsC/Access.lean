import OsC.Caching
import OsC.PageMap

/-!
The rights that the tables give to a page. A walk permits a use if every entry
that it passes does: the bits for writing and for user mode are set in all of
them, the bit against execution in none. What the processor allows depends on
two more bits (`Controls`): in kernel mode it heeds the bit for writing only with
CR0.WP, and it knows the bit against execution only with EFER.NXE. The kernel
sets EFER.NXE at the start of `remap_kernel` (`enable_no_exec`). It runs with
CR0.WP clear, since the call of `enable_write_protect` is commented out; so
`Paging.store` looks at no bit but the present one.

The kernel links its tables with one form of entry (`Linking`), so that a page
has the rights of its own entry and is never open to user mode, whatever flags
it is mapped with (`operations_rights`).
-/
namespace OsC.Access
open OsC.Frames OsC.Loop OsC.Entry OsC.Radix OsC.Walk OsC.Caching OsC.Paging OsC.Recursive OsC.Tables OsC.PageMap

inductive Right
  | write
  | user
  | execute
  deriving DecidableEq

/-- An entry grants a right by one of its bits. -/
def grants : Right → ℕ → Bool
  | .write, e => e.testBit 1
  | .user, e => e.testBit 2
  | .execute, e => !e.testBit 63

/-- The path walks somewhere, and all entries of the walk grant the right. -/
def permits (mem : Tables) (root : ℕ) (path : List Index) (right : Right) : Bool :=
  (walk mem root path).isSome && (trail mem root path).all (grants right)

/-! ### What the processor allows -/

/-- The bits CR0.WP and EFER.NXE. -/
structure Controls where
  write_protect : Bool
  no_exec : Bool

def enable_no_exec (c : Controls) : Controls := { c with no_exec := true }

inductive Mode
  | kernel
  | user
  deriving DecidableEq

inductive Use
  | read
  | write
  | execute

/-- What the processor allows at a path, without SMEP and SMAP. Without CR0.WP the
    kernel writes every mapped page. Without EFER.NXE the bit against execution is
    reserved, so that any access through it faults. -/
def allows (c : Controls) (mem : Tables) (root : ℕ) (path : List Index) (mode : Mode) : Use → Bool
  | .read => mapped
  | .write => mapped && (mode == .kernel && !c.write_protect || permits mem root path .write)
  | .execute => mapped && permits mem root path .execute
where
  mapped := (walk mem root path).isSome && (c.no_exec || permits mem root path .execute) &&
    (mode == .kernel || permits mem root path .user)

/-- What it allows the kernel at a page with these flags, below tables that restrict nothing. -/
def kernel_uses (c : Controls) (flags : ℕ) : Use → Bool
  | .read => c.no_exec || grants .execute flags
  | .write => (c.no_exec || grants .execute flags) && (!c.write_protect || grants .write flags)
  | .execute => grants .execute flags

section
variable {mem : Tables} {t u : ℕ} {i : Index} {π ρ : List Index} {right : Right}

theorem permits_absent (absent : walk mem t π = none) : permits mem t π right = false := by
  simp [permits, absent]

/-- With EFER.NXE the kernel writes what the entries permit and, without CR0.WP, all that is mapped. -/
theorem kernel_writes (c : Controls) : allows (enable_no_exec c) mem t π .kernel .write =
    ((walk mem t π).isSome && (!c.write_protect || permits mem t π .write)) := by
  simp [allows, allows.mapped, enable_no_exec]

/-- It executes what the entries permit. -/
theorem kernel_executes (c : Controls) : allows (enable_no_exec c) mem t π .kernel .execute = permits mem t π .execute := by
  simp [allows, allows.mapped, enable_no_exec, permits]

/-- Without the right for user mode nothing is allowed there. -/
theorem user_barred (barred : permits mem t π .user = false) (c : Controls) (use : Use) : allows c mem t π .user use = false := by
  cases use <;> simp [allows, allows.mapped, barred]

theorem trail_last : trail mem t [i] = [mem t i] := by
  rw [trail]
  cases next (mem t i) <;> rfl

theorem permits_last : permits mem t [i] right = (present (mem t i) && grants right (mem t i)) := by
  rw [permits, walk_last, trail_last]
  cases present (mem t i) <;> simp

/-- The tables on the way restrict the rights below them. -/
theorem permits_append (more : ρ ≠ []) (reaches : descend next mem t π = some u) :
    permits mem t (π ++ ρ) right = ((trail mem t π).all (grants right) && permits mem u ρ right) := by
  rw [permits, permits, walk_append more reaches, trail_append reaches, List.all_append, ← Bool.and_assoc, ← Bool.and_assoc]
  rw [Bool.and_comm (walk mem u ρ).isSome]

end

theorem attributes_split (e : ℕ) : attributes e = 2 ^ 52 * (e / 2 ^ 52) + e % 4096 := by
  unfold attributes address
  omega

/-- The bits that grant rights lie outside the address. -/
theorem grants_attributes (right : Right) (e : ℕ) : grants right (attributes e) = grants right e := by
  have bit : ∀ i, (attributes e).testBit i = if i < 52 then (e % 2 ^ 12).testBit i else (e / 2 ^ 52).testBit (i - 52) := by
    intro i
    rw [attributes_split]
    exact Nat.testBit_two_pow_mul_add (e / 2 ^ 52) (lt_of_lt_of_le (Nat.mod_lt _ (by decide)) (by decide)) i
  have low : ∀ i < 12, (attributes e).testBit i = e.testBit i := by
    intro i below
    rw [bit, if_pos (by omega), Nat.testBit_mod_two_pow]
    simp [below]
  have high : (attributes e).testBit 63 = e.testBit 63 := by
    rw [bit, if_neg (by decide), Nat.testBit_div_two_pow]
  cases right with
  | write => exact low 1 (by decide)
  | user => exact low 2 (by decide)
  | execute => exact congrArg not high

/-! ### Hierarchies of links -/

/-- Above the last level nothing but links of tables is present. -/
def Linking (mem : Tables) (top : ℕ) : Prop :=
  ∀ π i t, Ordinary (π ++ [i]) → descend next mem top π = some t → present (mem t i) = true →
    ∃ f, f < 2 ^ 40 ∧ mem t i = link f

/-- A link restricts neither writing nor execution, and is closed to user mode. -/
theorem grants_link {f : ℕ} (fits : f < 2 ^ 40) (right : Right) : grants right (link f) = (right != .user) := by
  have small : link f < 2 ^ 63 := by
    have sum : link f = f * 4096 + 3 := or_attributes fits (by decide)
    omega
  cases right with
  | write => exact testBit_or_low f _ (by decide)
  | user => exact testBit_or_low f _ (by decide)
  | execute => simp [grants, Nat.testBit_lt_two_pow small]

section
variable {mem : Tables} {top t : ℕ} {π : List Index}

theorem Linking.plain (linking : Linking mem top) : Plain mem top Ordinary := by
  intro π i t inside reaches isPresent
  obtain ⟨f, -, same⟩ := linking π i t inside reaches isPresent
  rw [same]
  exact huge_link f

theorem Linking.trail (linking : Linking mem top) (ordinary : Ordinary π) (reaches : descend next mem top π = some t)
    (right : Right) : (trail mem top π).all (grants right) = (π.isEmpty || right != .user) := by
  induction π using List.reverseRecOn generalizing t with
  | nil => rfl
  | append_singleton π i ih =>
    obtain ⟨u, first, last⟩ := descend_snoc_some reaches
    obtain ⟨f, fits, same⟩ := linking π i u ordinary first (next_eq_some.mp last).1
    have before := ih (ordinary_closed π _ (List.prefix_append π [i]) ordinary) first
    rw [trail_append first, List.all_append, before, trail_last, same, List.all_cons, grants_link fits]
    cases right <;> cases π <;> rfl

/-- A page has the rights of its own entry but that for user mode. -/
theorem Linking.permits (linking : Linking mem top) {page : ℕ} (ordinary : Ordinary (upper page)) (right : Right) :
    permits mem top (path page) right =
      (walk mem top (path page)).any fun leaf => right != .user && grants right leaf.2 := by
  cases mapped : walk mem top (path page) with
  | none => simp [permits_absent mapped]
  | some leaf =>
    have clear := linking.plain.clear (π := []) (ρ := upper page) ordinary_closed ordinary rfl
    obtain ⟨t, reaches⟩ := descend_of_walk clear (j := last page) (by rw [← path, mapped]; simp)
    have here := mapped
    rw [path, walk_append (by simp) reaches, walk_last] at here
    split at here
    next isPresent =>
      cases here
      rw [path, permits_append (by simp) reaches, linking.trail ordinary reaches, permits_last, isPresent]
      simp [grants_attributes, upper]
    next => cases here

/-- The processor allows the kernel what the page's flags say, and user mode nothing. -/
theorem Linking.allows (linking : Linking mem top) {page : ℕ} (ordinary : Ordinary (upper page)) (c : Controls) (mode : Mode)
    (use : Use) : allows c mem top (path page) mode use =
      (walk mem top (path page)).any fun leaf => mode == .kernel && kernel_uses c leaf.2 use := by
  have barred : (Mode.user == Mode.kernel) = false := rfl
  have write := linking.permits ordinary .write
  have user := linking.permits ordinary .user
  have execute := linking.permits ordinary .execute
  cases mapped : walk mem top (path page) with
  | none => cases use <;> simp [Access.allows, allows.mapped, mapped]
  | some leaf =>
    rw [mapped] at write user execute
    change Access.permits mem top (path page) .write = grants .write leaf.2 at write
    change Access.permits mem top (path page) .user = false at user
    change Access.permits mem top (path page) .execute = grants .execute leaf.2 at execute
    cases mode with
    | user => rw [user_barred user, Option.any_some, barred, Bool.false_and]
    | kernel =>
      cases use with
      | read => simp [Access.allows, allows.mapped, kernel_uses, mapped, execute]
      | write => simp [Access.allows, allows.mapped, kernel_uses, mapped, write, execute]
      | execute =>
        simp only [Access.allows, allows.mapped, kernel_uses, mapped, execute]
        cases c.no_exec <;> simp

end
/-! ### Operations keep the links -/

section
variable {A : Type} {alloc : A → ℤ × ℕ × A} {s s' : Machine A} {top : ℕ} {fs fs' : List ℕ}

theorem Linking.step (linking : Linking s.mem top) (good : Good alloc top fs s)
    (step : Step alloc top (s, fs) (s', fs')) : Linking s'.mem top := by
  cases step with
  | quiet quiet => exact linking
  | @link _ f _ π t i a events links absent inside given stored allocated =>
    intro ρ j u ordinary reaches isPresent
    change descend next (put s.mem t i (link f)) top ρ = some u at reaches
    change present (put s.mem t i (link f) u j) = true at isPresent
    change ∃ g, g < 2 ^ 40 ∧ put s.mem t i (link f) u j = link g
    rcases links.reaches_old reaches with rfl | before
    · rw [put_row links.apart, good.zero u List.mem_cons_self] at isPresent
      exact absurd isPresent (by decide)
    · by_cases here : u = t ∧ j = i
      · obtain ⟨rfl, rfl⟩ := here
        exact ⟨f, good.fits f List.mem_cons_self, put_same⟩
      · rw [put_other here] at isPresent ⊢
        exact linking ρ j u ordinary before isPresent

theorem Linking.leaf {π : List Index} {t e : ℕ} {j : Index} (linking : Linking s.mem top) (leaf : Leaf top s π t)
    (tree : Tree next s.mem top Ordinary) : Linking (put s.mem t j e) top := by
  intro ρ i u inside reaches isPresent
  have ordinary := ordinary_closed ρ _ (List.prefix_append ρ [i]) inside
  rw [leaf.descend tree ordinary] at reaches
  have other : u ≠ t := by
    rintro rfl
    have same := tree ρ π u ordinary leaf.ordinary reaches leaf.reaches
    have short := inside.1
    have := leaf.length
    rw [same] at short
    simp at short
    omega
  rw [put_row other] at isPresent ⊢
  exact linking ρ i u inside reaches isPresent

theorem map_links {page f flags : ℕ} (good : Good alloc top fs s) (linking : Linking s.mem top)
    (outside : Ordinary (upper page)) (enough : 3 ≤ fs.length) (fits : f < 2 ^ 40)
    (ran : map_page_to_frame alloc page f flags s = .ok () s') : Linking s'.mem top := by
  have clear := linking.plain.clear (π := []) (ρ := upper page) ordinary_closed outside rfl
  have count : missing s.mem top (upper page) ≤ 3 := missing_le s.mem top (upper page)
  obtain ⟨s₁, t, created, linked, reaches⟩ := create_run (π := []) (ρ := upper page) good.toReady outside rfl
    clear (le_trans count enough)
  rw [List.nil_append] at created reaches
  obtain ⟨good₁, linking₁⟩ := linked_keeps (I := fun u gs => Good alloc top gs u ∧ Linking u.mem top)
    (fun _ _ _ _ kept step => ⟨kept.1.step step, kept.2.step kept.1 step⟩) ⟨good, linking⟩ linked
  have stored := set_page_table_entry_run good₁.window (π := upper page) (le_refl 3) reaches (last page) fits
    (present_bit ||| flags)
  rw [map_page_to_frame_eq, bind_ok created, stored] at ran
  cases ran
  exact linking₁.leaf ⟨outside, rfl, reaches⟩ good₁.tree

theorem unmap_links {page f t : ℕ} (good : Good alloc top fs s) (linking : Linking s.mem top)
    (outside : Ordinary (upper page)) (reaches : descend next s.mem top (upper page) = some t)
    (ran : unmap_page f page s = .ok () s') : Linking s'.mem top := by
  obtain ⟨_, -, -, unmaps⟩ := unmap_page_logs (f := f) good outside reaches
  rw [unmaps] at ran
  cases ran
  exact linking.leaf ⟨outside, rfl, reaches⟩ good.tree

theorem operation_links {op : Operation} {m : Mapping} {ops : List Operation} (good : Good alloc s.root fs s)
    (linking : Linking s.mem s.root) (agree : ∀ q, Usable q → hardware s q = m q) (allowed : Allowed m (op :: ops))
    (enough : op.tables ≤ fs.length) (ran : op.perform alloc s = .ok () s') : Linking s'.mem s.root := by
  cases op with
  | map page frame flags =>
    obtain ⟨⟨usable, fits, _⟩, _⟩ := allowed
    exact map_links good linking usable.ordinary enough fits ran
  | unmap uninit page =>
    obtain ⟨⟨usable, mapped⟩, _⟩ := allowed
    rw [← agree page usable, hardware, indices_page] at mapped
    have clear := linking.plain.clear (π := []) (ρ := upper page) ordinary_closed usable.ordinary rfl
    obtain ⟨t, reaches⟩ := descend_of_walk clear mapped
    exact unmap_links good linking usable.ordinary reaches ran

/-- Operations keep a hierarchy of links in shape, and the frames that they do not need supplied. -/
theorem operations_keep {ops : List Operation} {m : Mapping} (good : Good alloc s.root fs s) (linking : Linking s.mem s.root)
    (agree : ∀ q, Usable q → hardware s q = m q) (allowed : Allowed m ops)
    (enough : (ops.map Operation.tables).sum ≤ fs.length) :
    ∃ s' gs, ops.forM (Operation.perform alloc) s = .ok () s' ∧ s'.root = s.root ∧ Good alloc s.root gs s' ∧
      Linking s'.mem s.root ∧ fs.length ≤ gs.length + (ops.map Operation.tables).sum ∧
      ∀ q, Usable q → hardware s' q = ops.foldl Operation.apply m q := by
  induction ops generalizing s m fs with
  | nil => exact ⟨s, fs, rfl, rfl, good, linking, Nat.le_add_right _ _, agree⟩
  | cons op ops ih =>
    simp only [List.map_cons, List.sum_cons] at enough ⊢
    obtain ⟨s₁, gs, ran, root, count, good₁, plain₁, walks⟩ := operation_run good linking.plain agree allowed (by omega)
    have linking₁ := operation_links good linking agree allowed (by omega) ran
    rw [← root] at good₁ linking₁
    obtain ⟨s', hs, rest, root', good', linking', left, refines⟩ := ih good₁ linking₁ walks allowed.2 (by omega)
    rw [root] at root' good' linking'
    exact ⟨s', hs, (bind_ok ran _).trans rest, root', good', linking', by omega, refines⟩

/-- After any sequence of operations on a hierarchy of links, the entries of a page permit writing and
    execution as the flags say that it was last mapped with, and user mode to none. The processor
    allows the kernel what these flags and the control registers say, and user mode nothing. -/
theorem operations_rights {ops : List Operation} (good : Good alloc s.root fs s) (linking : Linking s.mem s.root)
    (allowed : Allowed (hardware s) ops) (enough : (ops.map Operation.tables).sum ≤ fs.length) :
    ∃ s', ops.forM (Operation.perform alloc) s = .ok () s' ∧ ∀ q, Usable q →
      (∀ right, permits s'.mem s'.root (indices (q * PAGE_SIZE)) right =
        (ops.foldl Operation.apply (hardware s) q).any fun leaf => right != .user && grants right leaf.2) ∧
      ∀ c mode use, allows c s'.mem s'.root (indices (q * PAGE_SIZE)) mode use =
        (ops.foldl Operation.apply (hardware s) q).any fun leaf => mode == .kernel && kernel_uses c leaf.2 use := by
  obtain ⟨s', gs, ran, root, -, linking', -, refines⟩ := operations_keep good linking (fun _ _ => rfl) allowed enough
  refine ⟨s', ran, fun q usable => ?_⟩
  rw [← root] at linking'
  rw [← refines q usable, hardware, indices_page]
  exact ⟨linking'.permits usable.ordinary, linking'.allows usable.ordinary⟩

theorem bare_linking {mem : Tables} (bare : ∀ j, j ≠ 511 → mem top j = 0) : Linking mem top := by
  intro π i t inside reaches isPresent
  obtain ⟨rfl, rfl⟩ := bare_descend bare (ordinary_closed π _ (List.prefix_append π [i]) inside) reaches
  have other : i ≠ 511 := by
    rintro rfl
    exact inside.2 rfl
  rw [bare i other] at isPresent
  exact absurd isPresent (by decide)

/-- Page 5 is mapped with the bit for user mode, then unmapped; the other page may be written. -/
theorem operations_rights_one_table :
    ∃ s', [Operation.map 5 1000 4, .map 9 7 2, .unmap 0 5].forM (Operation.perform from_list) one_table = .ok () s' ∧
      ∀ q, Usable q →
        (∀ right, permits s'.mem s'.root (indices (q * PAGE_SIZE)) right =
          ([Operation.map 5 1000 4, .map 9 7 2, .unmap 0 5].foldl Operation.apply (hardware one_table) q).any
            fun leaf => right != .user && grants right leaf.2) ∧
        ∀ c mode use, allows c s'.mem s'.root (indices (q * PAGE_SIZE)) mode use =
          ([Operation.map 5 1000 4, .map 9 7 2, .unmap 0 5].foldl Operation.apply (hardware one_table) q).any
            fun leaf => mode == .kernel && kernel_uses c leaf.2 use := by
  refine operations_rights one_table_good (bare_linking fun j other => if_neg fun here => other here.2) ?_ (by decide)
  refine ⟨⟨⟨.inl (by decide), by decide⟩, by decide, by decide⟩, ?_⟩
  refine ⟨⟨⟨.inl (by decide), by decide⟩, by decide, by decide⟩, ?_⟩
  exact ⟨⟨⟨.inl (by decide), by decide⟩, by decide⟩, trivial⟩

end
end OsC.Access
