import BlockGraph.Proofs.Ty.Bindings

/-!
# Solutions of a table

A solution of a table assigns types to variables so that all the table says is true
(`Table.Solution`): the variables of a class get one type, and a bound class gets the image of its
value.

Resolution gives the most general of them.  In a sound table `resolve` never fails on allocated
variables, and is the substitution by `Table.image`, which sends a variable to its resolved type
(`Sound.resolve_eq`).  The image is a solution itself (`Sound.solution_image`), and every other
solution absorbs it (`Solution.subst_image`).
-/

namespace BlockGraph.Table

variable {r v : Nat} {t : Table} {inner ty : Ty} {σ : Nat → Ty}

/-- An assignment under which all the table says is true. -/
structure Solution (t : Table) (σ : Nat → Ty) : Prop where
  class_eq : ∀ {v r : Nat}, t.find v = .ok r → σ v = σ r
  value_eq : ∀ {v : Nat} {ty : Ty}, t.probe v = .ok (some ty) → σ v = ty.subst σ

theorem solution_iff :
    t.Solution σ ↔ (∀ v, σ v = σ (t.root v)) ∧ ∀ v ty, t.value v = some ty → σ v = ty.subst σ := by
  constructor
  · intro h
    refine ⟨fun v => ?_, fun v ty hv => ?_⟩
    · by_cases hv : v < t.size
      · exact h.class_eq (find_of_lt hv)
      · rw [root_of_not_lt hv]
    · exact h.value_eq (probe_eq_ok.2 ⟨lt_of_value_eq_some hv, hv⟩)
  · rintro ⟨hclass, hvalue⟩
    refine ⟨fun {v r} h => ?_, fun {v ty} h => ?_⟩
    · rw [← (find_eq_ok.1 h).2]
      exact hclass v
    · exact hvalue v ty (probe_eq_ok.1 h).2

theorem Solution.root (h : t.Solution σ) (v : Nat) : σ v = σ (t.root v) := (solution_iff.1 h).1 v

theorem Solution.value (h : t.Solution σ) (hv : t.value v = some ty) :
    σ v = ty.subst σ := (solution_iff.1 h).2 v ty hv

/-! ## How solutions change with the table -/

/-- A fresh variable is free to be anything. -/
theorem solution_fresh_iff (ht : t.Forest) : t.fresh.2.Solution σ ↔ t.Solution σ := by
  simp only [solution_iff, root_fresh ht, value_fresh ht]

/-- A solution may be changed at the variables that are not allocated. -/
theorem Solution.congr (ht : t.Sound) {σ' : Nat → Ty} (h : t.Solution σ)
    (heq : ∀ v < t.size, σ' v = σ v) : t.Solution σ' := by
  refine solution_iff.2 ⟨fun v => ?_, fun v ty hv => ?_⟩
  · by_cases hlt : v < t.size
    · rw [heq v hlt, heq _ (root_lt ht.forest hlt), h.root]
    · rw [root_of_not_lt hlt]
  · rw [heq v (lt_of_value_eq_some hv), h.value hv]
    exact Ty.subst_congr fun u hu => (heq u (ht.covers hv u hu)).symm

/-- A table with more variables that says nothing new. -/
structure Extends (t t' : Table) : Prop where
  size_le : t.size ≤ t'.size
  solution_iff : ∀ {σ : Nat → Ty}, t'.Solution σ ↔ t.Solution σ

theorem Extends.refl (t : Table) : t.Extends t := ⟨le_refl _, Iff.rfl⟩

theorem Extends.trans {t1 t2 t3 : Table} (h : t1.Extends t2) (h' : t2.Extends t3) : t1.Extends t3 :=
  ⟨h.size_le.trans h'.size_le, h'.solution_iff.trans h.solution_iff⟩

theorem extends_fresh (ht : t.Forest) : t.Extends t.fresh.2 :=
  ⟨by rw [size_fresh]; exact Nat.le_succ _, solution_fresh_iff ht⟩

theorem freshMany_fst (t : Table) (n : Nat) : (t.freshMany n).1 = t.size := by
  cases n <;> rfl

theorem size_freshMany (t : Table) (n : Nat) : (t.freshMany n).2.size = t.size + n := by
  induction n generalizing t with
  | zero => rfl
  | succ n ih =>
    rw [freshMany, ih, size_fresh]
    omega

theorem Sound.extends_freshMany (ht : t.Sound) (n : Nat) : t.Extends (t.freshMany n).2 := by
  induction n generalizing t with
  | zero => exact .refl t
  | succ n ih => exact (extends_fresh ht.forest).trans (ih ht.fresh)

/-- Binding an unbound root adds the equation that it says. -/
theorem solution_bind_iff (ht : t.Forest) (hlt : r < t.size) (hr : t.root r = r)
    (hv : t.value r = none) : (t.bind r ty).Solution σ ↔ t.Solution σ ∧ σ r = ty.subst σ := by
  simp only [solution_iff, root_bind ht, value_bind ht hlt]
  constructor
  · rintro ⟨hclass, hvalue⟩
    refine ⟨⟨hclass, fun v ty' hv' => hvalue v ty' ?_⟩, hvalue r ty (by rw [if_pos hr])⟩
    rw [if_neg, hv']
    intro hvr
    rw [← value_root ht, hvr, hv] at hv'
    cases hv'
  · rintro ⟨⟨hclass, hvalue⟩, heq⟩
    refine ⟨hclass, fun v ty' hv' => ?_⟩
    split at hv'
    · next hvr =>
      cases hv'
      rw [hclass v, hvr, heq]
    · exact hvalue v ty' hv'

/-- Joining two roots adds the equation between them. -/
theorem Joins.solution_iff {t' : Table} {keep drop : Nat} (h : t.Joins t' keep drop)
    (hdrop : t.root drop = drop) : t'.Solution σ ↔ t.Solution σ ∧ σ drop = σ keep := by
  simp only [Table.solution_iff, h.root_eq, h.value_eq]
  constructor
  · rintro ⟨hclass, hvalue⟩
    have heq : σ drop = σ keep := by
      have := hclass drop
      rwa [hdrop, if_pos rfl] at this
    refine ⟨⟨fun v => ?_, hvalue⟩, heq⟩
    rw [hclass v]
    split
    · next hv => rw [hv, heq]
    · rfl
  · rintro ⟨⟨hclass, hvalue⟩, heq⟩
    refine ⟨fun v => ?_, hvalue⟩
    rw [hclass v]
    split
    · next hv => rw [hv, heq]
    · rfl

theorem solution_union_iff (ht : t.Forest) {a b : Nat} (hne : a ≠ b) (ha : a < t.size)
    (hb : b < t.size) (hra : t.root a = a) (hrb : t.root b = b) (hva : t.value a = none)
    (hvb : t.value b = none) : (t.union a b).Solution σ ↔ t.Solution σ ∧ σ a = σ b := by
  rcases union_spec ht hne ha hb hra hrb hva hvb with h | h
  · rw [h.solution_iff hrb, eq_comm (a := σ a)]
  · exact h.solution_iff hra

/-- Where a class leads, a solution is no larger. -/
theorem Solution.sizeOf_le (h : t.Solution σ) {s : Nat} (hrs : Relation.ReflTransGen t.Binds r s) :
    sizeOf (σ s) ≤ sizeOf (σ r) := by
  induction hrs with
  | refl => exact le_refl _
  | tail _ hbind ih =>
    obtain ⟨-, ty, hv, u, hu, -, rfl⟩ := binds_iff.1 hbind
    have hle : sizeOf (σ u) ≤ sizeOf (ty.subst σ) := Ty.sizeOf_le_subst hu
    rw [h.value hv] at ih
    rw [← h.root u]
    exact hle.trans ih

/-- A variable that a type leads back to cannot equal the type. -/
theorem Solution.ne_of_leads (h : t.Solution σ) {u : Nat} (hty : ty.isVar = false)
    (hu : u ∈ ty.occurrences) (hleads : Relation.ReflTransGen t.Binds (t.root u) (t.root v)) :
    σ v ≠ ty.subst σ := by
  intro heq
  have hle := h.sizeOf_le hleads
  rw [← h.root, ← h.root] at hle
  have hlt : sizeOf (σ u) < sizeOf (ty.subst σ) := Ty.sizeOf_lt_subst hty hu
  rw [heq] at hle
  exact absurd hlt (Nat.not_lt.2 hle)

/-! ## Resolution -/

/-- The resolved type of a variable. -/
def image (t : Table) (v : Nat) : Ty :=
  match t.resolve (.var v) with
  | .ok ty => ty
  | .error _ => .var v

/-- Resolving one variable through at most `n` further bindings. -/
def resolveVar (t : Table) (n v : Nat) : Except Fault Ty := do
  match ← t.probe v with
  | some inner => t.resolveWithin n inner
  | none => return .var (← t.find v)

theorem resolveWithin_succ (t : Table) (n : Nat) (ty : Ty) :
    t.resolveWithin (n + 1) ty = ty.bindVars (t.resolveVar n) := rfl

theorem resolveVar_of_some (h : t.value v = some inner)
    (n : Nat) : t.resolveVar n v = t.resolveWithin n inner := by
  simp only [resolveVar, probe_of_lt (lt_of_value_eq_some h), h, ok_bind]

theorem resolveVar_of_none (hv : v < t.size) (h : t.value v = none)
    (n : Nat) : t.resolveVar n v = .ok (.var (t.root v)) := by
  simp only [resolveVar, probe_of_lt hv, find_of_lt hv, h, ok_bind, pure_eq_ok]

/-- A walk with enough bindings gives a type, and the same type with more. -/
theorem Sound.exists_resolveWithin (ht : t.Sound) (n : Nat) : ∀ {ty : Ty}, t.Covers ty →
    t.Fits n ty →
      ∃ r, ∀ m, n ≤ m → t.resolveWithin m ty = .ok r := by
  induction n with
  | zero =>
    intro ty _ hfit
    exact absurd hfit.1 (lt_irrefl 0)
  | succ n ih =>
    intro ty hcov hfit
    have hvar : ∀ v, ∃ r, v ∈ ty.occurrences → ∀ m, n ≤ m → t.resolveVar m v = .ok r := by
      intro v
      by_cases hv : v ∈ ty.occurrences
      · cases hinner : t.value v with
        | none => exact ⟨_, fun _ m _ => resolveVar_of_none (hcov v hv) hinner m⟩
        | some inner =>
          obtain ⟨r, hr⟩ := ih (ht.covers hinner) (hfit.inner ht hv hinner)
          exact ⟨r, fun _ m hm => by rw [resolveVar_of_some hinner, hr m hm]⟩
      · exact ⟨.var v, fun h => absurd h hv⟩
    choose g hg using hvar
    refine ⟨ty.subst g, fun m hm => ?_⟩
    obtain ⟨m, rfl⟩ : ∃ k, m = k + 1 := ⟨m - 1, by omega⟩
    rw [resolveWithin_succ]
    exact Ty.bindVars_ok fun v hv => hg v hv m (by omega)

theorem Sound.resolveWithin_eq (ht : t.Sound) {n m : Nat} (hcov : t.Covers ty) (hfit : t.Fits n ty)
    (hnm : n ≤ m) : t.resolveWithin m ty = t.resolveWithin n ty := by
  obtain ⟨r, hr⟩ := ht.exists_resolveWithin n hcov hfit
  rw [hr m hnm, hr n (le_refl n)]

theorem covers_var (hv : v < t.size) : t.Covers (.var v) := by
  intro u hu
  rw [Ty.mem_occurrences_var.1 hu]
  exact hv

variable (ht : t.Sound)
include ht

theorem Sound.resolve_var (hv : v < t.size) : t.resolve (.var v) = .ok (t.image v) := by
  obtain ⟨r, hr⟩ := ht.exists_resolveWithin _ (covers_var hv) (ht.fits_size (covers_var hv))
  have hres : t.resolve (.var v) = .ok r := hr _ (le_refl _)
  rw [image, hres]

/-- Resolution is the substitution by resolved variables. -/
theorem Sound.resolve_eq (hcov : t.Covers ty) : t.resolve ty = .ok (ty.subst t.image) := by
  rw [resolve, resolveWithin_succ]
  refine Ty.bindVars_ok fun v hv => ?_
  have hres := ht.resolve_var (hcov v hv)
  rw [resolve, resolveWithin_succ] at hres
  simpa [Ty.bindVars] using hres

theorem Sound.image_of_none (hv : v < t.size) (h : t.value v = none) :
    t.image v = .var (t.root v) := by
  have hres := ht.resolve_var hv
  rw [resolve, resolveWithin_succ, Ty.bindVars, resolveVar_of_none hv h] at hres
  exact (Except.ok.inj hres).symm

/-- A bound variable resolves to what its value resolves to. -/
theorem Sound.image_of_some (h : t.value v = some inner) : t.image v = inner.subst t.image := by
  have hv := lt_of_value_eq_some h
  have hcov := ht.covers h
  have hfit : t.Fits t.size inner :=
    (ht.fits_size (covers_var hv)).inner ht (Ty.mem_occurrences_var.2 rfl) h
  have hres := ht.resolve_var hv
  rw [resolve, resolveWithin_succ, Ty.bindVars, resolveVar_of_some h,
    ← ht.resolveWithin_eq hcov hfit (Nat.le_succ _)] at hres
  rw [← resolve, ht.resolve_eq hcov] at hres
  exact (Except.ok.inj hres).symm

/-- The resolved types are a solution. -/
theorem Sound.solution_image : t.Solution t.image := by
  refine solution_iff.2 ⟨fun v => ?_, fun v ty hv => ht.image_of_some hv⟩
  by_cases hlt : v < t.size
  · cases hv : t.value v with
    | none =>
      rw [ht.image_of_none hlt hv, ht.image_of_none (root_lt ht.forest hlt), root_root ht.forest]
      rw [value_root ht.forest, hv]
    | some inner =>
      rw [ht.image_of_some hv, ht.image_of_some ((value_root ht.forest v).trans hv)]
  · rw [root_of_not_lt hlt]

/-- Every solution is an instance of the resolved types, by itself. -/
theorem Solution.subst_image_var (h : t.Solution σ) (hv : v < t.size) :
    (t.image v).subst σ = σ v := by
  refine ht.binding_induction (p := fun v => (t.image v).subst σ = σ v) (fun v hv ih => ?_) hv
  cases hvalue : t.value v with
  | none => rw [ht.image_of_none hv hvalue, Ty.subst_var, ← h.root]
  | some inner =>
    rw [ht.image_of_some hvalue, Ty.subst_subst, h.value hvalue]
    exact Ty.subst_congr fun u hu => ih inner hvalue u hu

theorem Solution.subst_image (h : t.Solution σ) (hcov : t.Covers ty) :
    (ty.subst t.image).subst σ = ty.subst σ := by
  rw [Ty.subst_subst]
  exact Ty.subst_congr fun v hv => h.subst_image_var ht (hcov v hv)

end BlockGraph.Table
