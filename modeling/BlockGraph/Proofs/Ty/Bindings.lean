import BlockGraph.Proofs.Acyclic
import BlockGraph.Proofs.Ty.Classes
import BlockGraph.Proofs.Ty.Term

/-!
# The binding graph

The value of a class mentions variables, and so leads to other classes (`Table.Binds`).  A table is
sound (`Table.Sound`) if no class leads back to itself, no value is a variable, and values mention
allocated variables only.  Fresh variables, unions of unbound roots, and bindings that pass the
occurs check keep a table sound.

In a sound table the number of classes a variable leads to (`Table.height`) falls with each binding
a walk goes through.  It is below the size of the table, which is why the bounded walks never run
out.  `Sound.occurs_spec` is the first use: the occurs check decides whether one class leads to
another.
-/

namespace BlockGraph.Table

variable {r s u v : Nat} {t : Table} {ty : Ty}

open Relation

/-- The class of the root `r` is bound to a type that mentions the class of the root `s`. -/
def Binds (t : Table) (r s : Nat) : Prop :=
  ∃ ty u, t.find r = .ok r ∧ t.probe r = .ok (some ty) ∧ u ∈ ty.occurrences ∧ t.find u = .ok s

/-- All variables of a type are allocated. -/
def Covers (t : Table) (ty : Ty) : Prop := ∀ v ∈ ty.occurrences, v < t.size

instance (t : Table) (ty : Ty) : Decidable (t.Covers ty) :=
  inferInstanceAs (Decidable (∀ v ∈ ty.occurrences, v < t.size))

/-- What every table has that was made by allocating and unifying. -/
structure Sound (t : Table) : Prop where
  forest : t.Forest
  covers : ∀ {v : Nat} {ty : Ty}, t.value v = some ty → t.Covers ty
  not_var : ∀ {v : Nat} {ty : Ty}, t.value v = some ty → ty.isVar = false
  acyclic : Acyclic t.Binds

theorem binds_iff : t.Binds r s ↔ t.root r = r ∧
      ∃ ty, t.value r = some ty ∧ ∃ u ∈ ty.occurrences, u < t.size ∧ t.root u = s := by
  constructor
  · rintro ⟨ty, u, hr, hp, hu, hs⟩
    exact ⟨(find_eq_ok.1 hr).2, ty, (probe_eq_ok.1 hp).2, u, hu, find_eq_ok.1 hs⟩
  · rintro ⟨hr, ty, hv, u, hu, hs⟩
    have hlt := lt_of_value_eq_some hv
    exact ⟨ty, u, find_eq_ok.2 ⟨hlt, hr⟩, probe_eq_ok.2 ⟨hlt, hv⟩, hu, find_eq_ok.2 hs⟩

/-- A bound class leads to the class of each variable of its value. -/
theorem Sound.binds (ht : t.Sound) (hv : t.value v = some ty)
    (hu : u ∈ ty.occurrences) : t.Binds (t.root v) (t.root u) :=
  binds_iff.2 ⟨root_root ht.forest v, ty, (value_root ht.forest v).trans hv, u, hu,
    ht.covers hv u hu, rfl⟩

/-- Nothing leads on from an unbound class. -/
theorem not_binds_of_value_eq_none (hr : t.value r = none) : ¬ t.Binds r s := by
  rw [binds_iff]
  rintro ⟨-, ty, hty, -⟩
  rw [hr] at hty
  cases hty

theorem eq_of_reflTransGen_binds (hr : t.value r = none) (h : ReflTransGen t.Binds r s) :
    r = s := by
  rcases h.cases_head with rfl | ⟨x, hx, -⟩
  · rfl
  · exact absurd hx (not_binds_of_value_eq_none hr)

/-! ## Soundness is kept -/

theorem sound_empty : empty.Sound where
  forest := forest_empty
  covers h := by simp [value, stored, empty] at h
  not_var h := by simp [value, stored, empty] at h
  acyclic x hx := by
    obtain ⟨y, hy, -⟩ := TransGen.head'_iff.1 hx
    exact not_binds_of_value_eq_none (by simp [value, stored, empty]) hy

theorem Sound.fresh (ht : t.Sound) : t.fresh.2.Sound where
  forest := forest_fresh ht.forest
  covers {v ty} h := by
    rw [value_fresh ht.forest] at h
    intro u hu
    rw [size_fresh]
    exact Nat.lt_succ_of_lt (ht.covers h u hu)
  not_var {v ty} h := by
    rw [value_fresh ht.forest] at h
    exact ht.not_var h
  acyclic := by
    refine ht.acyclic.mono fun r s h => ?_
    obtain ⟨hr, ty, hv, u, hu, -, hs⟩ := binds_iff.1 h
    rw [root_fresh ht.forest] at hr hs
    rw [value_fresh ht.forest] at hv
    exact binds_iff.2 ⟨hr, ty, hv, u, hu, ht.covers hv u hu, hs⟩

theorem Sound.freshMany (ht : t.Sound) (n : Nat) : (t.freshMany n).2.Sound := by
  induction n generalizing t with
  | zero => exact ht
  | succ n ih => exact ih ht.fresh

/-- Binding an unbound root keeps the table sound if its type does not lead back to it. -/
theorem Sound.bind (ht : t.Sound) (hlt : r < t.size) (hty : ty.isVar = false) (hcov : t.Covers ty)
    (hocc : ∀ u ∈ ty.occurrences, ¬ ReflTransGen t.Binds (t.root u) r) : (t.bind r ty).Sound where
  forest := forest_bind ht.forest r ty
  covers {v ty'} h := by
    rw [value_bind ht.forest hlt] at h
    intro u hu
    rw [size_bind]
    split at h
    · cases h
      exact hcov u hu
    · exact ht.covers h u hu
  not_var {v ty'} h := by
    rw [value_bind ht.forest hlt] at h
    split at h
    · cases h
      exact hty
    · exact ht.not_var h
  acyclic := by
    have hB : ∀ s, (∃ u ∈ ty.occurrences, t.root u = s) → ¬ ReflTransGen t.Binds s r := by
      rintro s ⟨u, hu, rfl⟩
      exact hocc u hu
    refine (ht.acyclic.extend hB).mono fun x s h => ?_
    obtain ⟨hx, ty', hv, u, hu, hu', hs⟩ := binds_iff.1 h
    rw [root_bind ht.forest] at hx hs
    rw [value_bind ht.forest hlt, hx] at hv
    split at hv
    · next hxr =>
      cases hv
      exact Or.inr ⟨hxr, u, hu, hs⟩
    · exact Or.inl (binds_iff.2 ⟨hx, ty', hv, u, hu, by rwa [size_bind] at hu', hs⟩)

/-- Two unbound classes may become one: nothing leads on from either, so nothing does from both. -/
theorem Joins.sound {t' : Table} {keep drop : Nat} (h : t.Joins t' keep drop) (ht : t.Sound)
    (hne : drop ≠ keep) (hkeep : t.root keep = keep) (hkeepv : t.value keep = none) : t'.Sound where
  forest := h.forest
  covers {v ty} hv := by
    rw [h.value_eq] at hv
    intro u hu
    rw [h.size_eq]
    exact ht.covers hv u hu
  not_var {v ty} hv := by
    rw [h.value_eq] at hv
    exact ht.not_var hv
  acyclic := by
    have hstep : ∀ x y, t'.Binds x y → t.Binds x y ∨ y = keep := by
      intro x y hxy
      obtain ⟨hx, ty, hv, u, hu, hlt, hy⟩ := binds_iff.1 hxy
      rw [h.root_eq] at hx hy
      rw [h.value_eq] at hv
      rw [h.size_eq] at hlt
      by_cases hud : t.root u = drop
      · rw [if_pos hud] at hy
        exact Or.inr hy.symm
      · rw [if_neg hud] at hy
        by_cases hxd : t.root x = drop
        · -- `x` would be `keep`, whose root is itself and not `drop`
          rw [if_pos hxd] at hx
          rw [← hx, hkeep] at hxd
          exact absurd hxd.symm hne
        · rw [if_neg hxd] at hx
          exact Or.inl (binds_iff.2 ⟨hx, ty, hv, u, hu, hlt, hy⟩)
    have hkeep' : ∀ y, ¬ t'.Binds keep y :=
      fun y => not_binds_of_value_eq_none (by rw [h.value_eq, hkeepv])
    have hpath : ∀ x y, TransGen t'.Binds x y → TransGen t.Binds x y ∨ y = keep := by
      intro x y hxy
      induction hxy with
      | single hxy => exact (hstep _ _ hxy).imp_left TransGen.single
      | tail _ hyz ih =>
        rcases ih with ih | rfl
        · exact (hstep _ _ hyz).imp_left ih.tail
        · exact absurd hyz (hkeep' _)
    intro x hx
    rcases hpath x x hx with hxx | rfl
    · exact ht.acyclic x hxx
    · obtain ⟨y, hy, -⟩ := TransGen.head'_iff.1 hx
      exact hkeep' y hy

theorem Sound.union (ht : t.Sound) {a b : Nat} (hne : a ≠ b) (ha : a < t.size) (hb : b < t.size)
    (hra : t.root a = a) (hrb : t.root b = b) (hva : t.value a = none)
    (hvb : t.value b = none) : (t.union a b).Sound := by
  rcases union_spec ht.forest hne ha hb hra hrb hva hvb with h | h
  · exact h.sound ht hne.symm hra hva
  · exact h.sound ht hne hrb hvb

/-! ## Heights -/

/-- How many classes the class of `v` leads to. -/
noncomputable def height (t : Table) (v : Nat) : Nat :=
  reachCount t.Binds (Finset.range t.size) (t.root v)

theorem Sound.height_lt (ht : t.Sound) (hv : t.value v = some ty)
    (hu : u ∈ ty.occurrences) : t.height u < t.height v :=
  reachCount_lt ht.acyclic (ht.binds hv hu)
    (Finset.mem_range.2 (root_lt ht.forest (ht.covers hv u hu)))

theorem Sound.height_lt_size (ht : t.Sound) (hv : v < t.size) : t.height v < t.size := by
  have hmem : t.root v ∈ Finset.range t.size := Finset.mem_range.2 (root_lt ht.forest hv)
  have hlt := reachCount_lt_card ht.acyclic hmem
  rwa [Finset.card_range] at hlt

/-- Induction along bindings: what holds of a variable if it holds of the variables of its value
holds of every allocated variable. -/
theorem Sound.binding_induction (ht : t.Sound) {p : Nat → Prop}
    (h : ∀ v, v < t.size → (∀ inner, t.value v = some inner → ∀ u ∈ inner.occurrences, p u) → p v)
    (hv : v < t.size) : p v := by
  induction hn : t.height v using Nat.strong_induction_on generalizing v with
  | _ n ih =>
    refine h v hv fun inner hinner u hu => ?_
    have hlt := ht.height_lt hinner hu
    exact ih (t.height u) (by omega) (ht.covers hinner u hu) rfl

/-- A walk through at most `n` bindings reaches the end of every chain that starts in the type. -/
def Fits (t : Table) (n : Nat) (ty : Ty) : Prop := 0 < n ∧ ∀ v ∈ ty.occurrences, t.height v + 1 < n

theorem Sound.fits_size (ht : t.Sound) (h : t.Covers ty) : t.Fits (t.size + 1) ty :=
  ⟨Nat.succ_pos _, fun v hv => Nat.succ_lt_succ (ht.height_lt_size (h v hv))⟩

theorem Fits.inner (ht : t.Sound) {n : Nat} {inner : Ty} (h : t.Fits (n + 1) ty)
    (hv : v ∈ ty.occurrences) (hinner : t.value v = some inner) : t.Fits n inner := by
  have hheight := h.2 v hv
  refine ⟨by omega, fun u hu => ?_⟩
  have := ht.height_lt hinner hu
  omega

/-! ## The occurs check -/

/-- A class leads to another if it is the other or its value mentions a class that does. -/
theorem Sound.leads_iff (ht : t.Sound) {inner : Ty} (hv : t.value v = some inner)
    (hne : t.root v ≠ r) :
    ReflTransGen t.Binds (t.root v) r ↔
    ∃ u ∈ inner.occurrences, ReflTransGen t.Binds (t.root u) r := by
  constructor
  · intro h
    rcases h.cases_head with h | ⟨s, hs, hsr⟩
    · exact absurd h hne
    · obtain ⟨-, ty, hty, u, hu, -, rfl⟩ := binds_iff.1 hs
      rw [value_root ht.forest, hv] at hty
      cases hty
      exact ⟨u, hu, hsr⟩
  · rintro ⟨u, hu, h⟩
    exact ReflTransGen.head (ht.binds hv hu) h

open Classical in
theorem Sound.occursWithin_eq (ht : t.Sound) (r n : Nat) :
    ∀ {ty : Ty}, t.Covers ty → t.Fits n ty → t.occursWithin r n ty =
      .ok (decide (∃ u ∈ ty.occurrences, ReflTransGen t.Binds (t.root u) r)) := by
  induction n with
  | zero =>
    intro ty _ hfit
    exact absurd hfit.1 (lt_irrefl 0)
  | succ n ih =>
    intro ty hcov hfit
    rw [occursWithin, Ty.anyVar_ok (p := fun u => decide (ReflTransGen t.Binds (t.root u) r))]
    · congr 1
      rw [Bool.eq_iff_iff]
      simp
    intro u hu
    have hlt := hcov u hu
    simp only [find_of_lt hlt, probe_of_lt hlt, ok_bind, pure_eq_ok]
    by_cases hr : t.root u = r
    · simp [hr, ReflTransGen.refl]
    · rw [if_neg hr]
      cases hinner : t.value u with
      | none =>
        have hnot : ¬ ReflTransGen t.Binds (t.root u) r := by
          intro h
          exact hr (eq_of_reflTransGen_binds (by rw [value_root ht.forest, hinner]) h)
        simp [hnot]
      | some inner =>
        simp only [ih (ht.covers hinner) (hfit.inner ht hu hinner), ht.leads_iff hinner hr]

/-- The occurs check decides whether the class of `v` can be reached from a variable of the type. -/
theorem Sound.occurs_spec (ht : t.Sound) (hv : v < t.size)
    (hcov : t.Covers ty) : ∃ found, t.occurs v ty = .ok found ∧
      (found = true ↔ ∃ u ∈ ty.occurrences, ReflTransGen t.Binds (t.root u) (t.root v)) := by
  classical
  refine ⟨_, ?_, decide_eq_true_iff⟩
  simp only [occurs, find_of_lt hv]
  exact ht.occursWithin_eq _ _ hcov (ht.fits_size hcov)

/-- An occurs check that finds nothing has looked up every variable. -/
theorem covers_of_occurs (h : t.occurs v ty = .ok false) : t.Covers ty := by
  intro u hu
  cases hv : t.find v with
  | error f => simp only [occurs, hv] at h; cases h
  | ok r =>
    simp only [occurs, hv] at h
    have htest := Ty.anyVar_false (show ty.anyVar _ = .ok false from h) u hu
    by_contra hlt
    simp only [find_of_not_lt hlt] at htest
    cases htest

end BlockGraph.Table
