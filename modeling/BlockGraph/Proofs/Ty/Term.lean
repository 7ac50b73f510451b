import BlockGraph.Proofs.Fault
import BlockGraph.Ty.Unify

/-!
# Terms

Facts about the terms of types on their own: induction with one case per constructor, how
substitution acts on variables and composes, and what the two failing walks (`Ty.bindVars`,
`Ty.anyVar`) give when each of their steps does.

The arguments of a constructor are a list, so each function on terms comes with one on lists.  The
`Args` lemmas say that the latter is the list function one expects, and after them no proof looks at
it again.
-/

namespace BlockGraph.Ty

variable {args : List Ty} {v : Nat} {ty : Ty} {name : String} {f : Nat → Except ε Ty}
  {test : Nat → Except ε Bool} {motive : Ty → Prop} {g : Nat → Ty}

/-- Induction on a term; the arguments of a constructor are all covered by the hypothesis. -/
@[induction_eliminator]
theorem induction (var : ∀ v, motive (var v)) (con : ∀ name, motive (con name))
    (app : ∀ name args, (∀ a ∈ args, motive a) → motive (app name args))
    (fn : ∀ arg result, motive arg → motive result → motive (fn arg result)) : ∀ ty, motive ty
  | .var v => var v
  | .con name => con name
  | .app name args => app name args fun a ha =>
    have : sizeOf a < sizeOf args := List.sizeOf_lt_of_mem ha
    induction var con app fn a
  | .fn arg result => fn arg result (induction var con app fn arg) (induction var con app fn result)

/-! ## Occurrences -/

theorem occurrencesArgs_eq (args : List Ty) : occurrencesArgs args = args.flatMap occurrences := by
  induction args with
  | nil => rfl
  | cons a as ih => simp [occurrencesArgs, ih]

@[simp] theorem mem_occurrences_var {w : Nat} : v ∈ (var w).occurrences ↔ v = w := by
  simp [occurrences]

@[simp] theorem not_mem_occurrences_con : v ∉ (con name).occurrences := by
  simp [occurrences]

@[simp] theorem mem_occurrences_app :
    v ∈ (app name args).occurrences ↔ ∃ a ∈ args, v ∈ a.occurrences := by
  simp [occurrences, occurrencesArgs_eq]

@[simp] theorem mem_occurrences_fn {arg result : Ty} :
    v ∈ (fn arg result).occurrences ↔ v ∈ arg.occurrences ∨ v ∈ result.occurrences := by
  simp [occurrences]

/-! ## Substitution -/

theorem substArgs_eq (σ : Nat → Ty) (args : List Ty) : substArgs σ args = args.map (subst σ) := by
  induction args with
  | nil => rfl
  | cons a as ih => simp [substArgs, ih]

@[simp] theorem subst_var (σ : Nat → Ty) (v : Nat) : (var v).subst σ = σ v := by simp [subst]

@[simp] theorem subst_con (σ : Nat → Ty) (name : String) : (con name).subst σ = con name := by
  simp [subst]

@[simp] theorem subst_app (σ : Nat → Ty) (name : String) (args : List Ty) :
    (app name args).subst σ = app name (args.map (subst σ)) := by
  simp [subst, substArgs_eq]

@[simp] theorem subst_fn (σ : Nat → Ty) (arg result : Ty) :
    (fn arg result).subst σ = fn (arg.subst σ) (result.subst σ) := by
  simp [subst]

/-- Substitution looks only at the variables that occur. -/
theorem subst_congr {σ ρ : Nat → Ty} (h : ∀ v ∈ ty.occurrences, σ v = ρ v) :
    ty.subst σ = ty.subst ρ := by
  induction ty with
  | var v => simpa using h v
  | con name => simp
  | app name args ih =>
    simp only [subst_app, app.injEq, true_and, List.map_inj_left]
    exact fun a ha => ih a ha fun v hv => h v (mem_occurrences_app.2 ⟨a, ha, hv⟩)
  | fn arg result iharg ihresult =>
    simp only [subst_fn, fn.injEq]
    exact ⟨iharg fun v hv => h v (mem_occurrences_fn.2 (Or.inl hv)),
      ihresult fun v hv => h v (mem_occurrences_fn.2 (Or.inr hv))⟩

theorem subst_subst (σ ρ : Nat → Ty) (ty : Ty) : (ty.subst σ).subst ρ = ty.subst fun v =>
    (σ v).subst ρ := by
  induction ty with
  | var v | con name => simp
  | app name args ih =>
    simp only [subst_app, List.map_map, app.injEq, true_and, List.map_inj_left]
    exact fun a ha => ih a ha
  | fn arg result iharg ihresult => simp [iharg, ihresult]

/-- The variables of a substituted term are those of the terms put in. -/
theorem mem_occurrences_subst {σ : Nat → Ty} {u : Nat} :
    u ∈ (ty.subst σ).occurrences ↔ ∃ v ∈ ty.occurrences, u ∈ (σ v).occurrences := by
  induction ty with
  | var v | con name => simp
  | app name args ih =>
    simp only [subst_app, mem_occurrences_app, List.mem_map]
    constructor
    · rintro ⟨_, ⟨a, ha, rfl⟩, hu⟩
      obtain ⟨v, hv, huv⟩ := (ih a ha).1 hu
      exact ⟨v, ⟨a, ha, hv⟩, huv⟩
    · rintro ⟨v, ⟨a, ha, hv⟩, huv⟩
      exact ⟨_, ⟨a, ha, rfl⟩, (ih a ha).2 ⟨v, hv, huv⟩⟩
  | fn arg result iharg ihresult =>
    simp only [subst_fn, mem_occurrences_fn, iharg, ihresult]
    grind

/-! ## Forms and parts -/

/-- The outermost form of a type. -/
inductive Form where
  | var (v : Nat)
  | con (name : String)
  | app (name : String) (count : Nat)
  | fn
deriving DecidableEq

def form : Ty → Form
  | var v => .var v
  | con name => .con name
  | app name args => .app name args.length
  | fn _ _ => .fn

/-- What stands directly below the outermost form, from left to right. -/
def parts : Ty → List Ty
  | app _ args => args
  | fn arg result => [arg, result]
  | _ => []

section Parts

variable {a b : Ty} {σ : Nat → Ty}

theorem form_subst (σ : Nat → Ty) (h : ty.isVar = false) : (ty.subst σ).form = ty.form := by
  cases ty with
  | var v => cases h
  | _ => simp [form]

theorem isVar_subst (σ : Nat → Ty) (h : ty.isVar = false) : (ty.subst σ).isVar = false := by
  cases ty <;> simp_all [isVar]

theorem parts_subst (σ : Nat → Ty) (h : ty.isVar = false) :
    (ty.subst σ).parts = ty.parts.map (subst σ) := by
  cases ty <;> simp_all [parts, isVar]

theorem length_parts_of_form (h : a.form = b.form) : a.parts.length = b.parts.length := by
  cases a <;> cases b <;> simp_all [form, parts]

theorem eq_iff_parts (h : a.form = b.form) : a = b ↔ a.parts = b.parts := by
  cases a <;> cases b <;> simp_all [form, parts]

/-- Types of one form are made equal exactly if their parts are. -/
theorem subst_eq_iff_parts (ha : a.isVar = false) (hb : b.isVar = false) (h : a.form = b.form) :
    a.subst σ = b.subst σ ↔ a.parts.map (subst σ) = b.parts.map (subst σ) := by
  rw [eq_iff_parts (by rw [form_subst σ ha, form_subst σ hb, h]), parts_subst σ ha,
    parts_subst σ hb]

theorem mem_occurrences_parts (h : ty.isVar = false) : v ∈ ty.occurrences ↔
    ∃ a ∈ ty.parts, v ∈ a.occurrences := by
  cases ty with
  | var w => cases h
  | _ => simp [parts]

theorem sizeOf_lt_of_mem_parts (h : a ∈ ty.parts) : sizeOf a < sizeOf ty := by
  cases ty with
  | var w | con name => cases h
  | app name args =>
    have := List.sizeOf_lt_of_mem h
    simp only [parts, app.sizeOf_spec] at this ⊢
    omega
  | fn arg result =>
    simp only [parts, List.mem_cons, List.not_mem_nil, or_false] at h
    rcases h with rfl | rfl <;> simp only [fn.sizeOf_spec] <;> omega

/-- Induction on a term; what is not a variable is covered with its parts. -/
theorem parts_induction (var : ∀ v, motive (var v))
    (step : ∀ ty, ty.isVar = false → (∀ a ∈ ty.parts, motive a) → motive ty) (ty : Ty) :
    motive ty := by
  induction ty with
  | var v => exact var v
  | con name => exact step _ rfl (by simp [parts])
  | app name args ih => exact step _ rfl ih
  | fn arg result iharg ihresult => exact step _ rfl (by simp [parts, iharg, ihresult])

/-- What is put in for a variable is no larger than the whole. -/
theorem sizeOf_le_subst (h : v ∈ ty.occurrences) : sizeOf (σ v) ≤ sizeOf (ty.subst σ) := by
  induction ty using parts_induction with
  | var w => simp_all
  | step ty hty ih =>
    obtain ⟨a, ha, hv⟩ := (mem_occurrences_parts hty).1 h
    have hpart : a.subst σ ∈ (ty.subst σ).parts := parts_subst σ hty ▸ List.mem_map_of_mem ha
    exact Nat.le_trans (ih a ha hv) (Nat.le_of_lt (sizeOf_lt_of_mem_parts hpart))

/-- Inside a term that is not a variable it is strictly smaller. -/
theorem sizeOf_lt_subst (hty : ty.isVar = false) (h : v ∈ ty.occurrences) :
    sizeOf (σ v) < sizeOf (ty.subst σ) := by
  obtain ⟨a, ha, hv⟩ := (mem_occurrences_parts hty).1 h
  have hpart : a.subst σ ∈ (ty.subst σ).parts := parts_subst σ hty ▸ List.mem_map_of_mem ha
  exact Nat.lt_of_le_of_lt (sizeOf_le_subst hv) (sizeOf_lt_of_mem_parts hpart)

theorem pair_cases (a b : Ty) : (∃ v w, a = var v ∧ b = var w) ∨
    (∃ v, a = var v ∧ b.isVar = false) ∨ (∃ v, a.isVar = false ∧ b = var v) ∨ a.isVar = false ∧
    b.isVar = false := by
  cases a <;> cases b <;> simp [isVar]

end Parts

/-! ## Walks that may fail -/

section Walks

variable {ε : Type}

theorem bindVarsArgs_ok (h : ∀ a ∈ args, a.bindVars f = .ok (a.subst g)) :
    bindVarsArgs f args = .ok (args.map (subst g)) := by
  induction args with
  | nil => simp [bindVarsArgs]
  | cons a as ih =>
    have ha : a.bindVars f = .ok (a.subst g) := h a (List.mem_cons_self ..)
    have has : bindVarsArgs f as = .ok (as.map (subst g)) := ih fun x hx =>
      h x (List.mem_cons_of_mem _ hx)
    simp only [bindVarsArgs, ha, has]
    rfl

/-- If each variable has its type, replacing all of them is a substitution. -/
theorem bindVars_ok (h : ∀ v ∈ ty.occurrences, f v = .ok (g v)) :
    ty.bindVars f = .ok (ty.subst g) := by
  induction ty with
  | var v => simpa [bindVars] using h v
  | con name => simp [bindVars]
  | app name args ih =>
    have hargs : bindVarsArgs f args = .ok (args.map (subst g)) :=
      bindVarsArgs_ok fun a ha => ih a ha fun v hv => h v (mem_occurrences_app.2 ⟨a, ha, hv⟩)
    simp only [bindVars, hargs, subst_app]
    rfl
  | fn arg result iharg ihresult =>
    have harg := iharg fun v hv => h v (mem_occurrences_fn.2 (Or.inl hv))
    have hresult := ihresult fun v hv => h v (mem_occurrences_fn.2 (Or.inr hv))
    simp only [bindVars, harg, hresult, subst_fn]
    rfl

theorem exists_of_bindVarsArgs {args' : List Ty} (h : bindVarsArgs f args = .ok args') {a : Ty}
    (ha : a ∈ args) : ∃ a', a.bindVars f = .ok a' := by
  induction args generalizing args' with
  | nil => cases ha
  | cons x xs ih =>
    simp only [bindVarsArgs, bind_eq_ok] at h
    obtain ⟨x', hx, xs', hxs, -⟩ := h
    rcases List.mem_cons.1 ha with rfl | ha
    · exact ⟨x', hx⟩
    · exact ih hxs ha

/-- If all variables of a type can be replaced, each can. -/
theorem exists_of_bindVars {ty' : Ty} (h : ty.bindVars f = .ok ty') :
    ∀ v ∈ ty.occurrences, ∃ t, f v = .ok t := by
  induction ty generalizing ty' with
  | var v =>
    intro u hu
    rw [mem_occurrences_var.1 hu]
    exact ⟨ty', h⟩
  | con name => exact fun v hv => absurd hv not_mem_occurrences_con
  | app name args ih =>
    intro v hv
    obtain ⟨a, ha, hv⟩ := mem_occurrences_app.1 hv
    simp only [bindVars, bind_eq_ok] at h
    obtain ⟨args', hargs, -⟩ := h
    obtain ⟨a', ha'⟩ := exists_of_bindVarsArgs hargs ha
    exact ih a ha ha' v hv
  | fn arg result iharg ihresult =>
    intro v hv
    simp only [bindVars, bind_eq_ok] at h
    obtain ⟨arg', harg, result', hresult, -⟩ := h
    rcases mem_occurrences_fn.1 hv with hv | hv
    · exact iharg harg v hv
    · exact ihresult hresult v hv

/-- Replacing variables keeps the outermost form of what is none. -/
theorem form_of_bindVars {u : Ty} (hty : ty.isVar = false) (h : ty.bindVars f = .ok u) :
    u.form = ty.form := by
  let g (v : Nat) : Ty := (f v).toOption.getD (var v)
  have hg : ∀ v ∈ ty.occurrences, f v = .ok (g v) := fun v hv => by
    obtain ⟨t, ht⟩ := exists_of_bindVars h v hv
    simp [g, ht, Except.toOption]
  cases h.symm.trans (bindVars_ok hg)
  exact form_subst g hty

theorem anyVarArgs_ok {p : Ty → Bool} (h : ∀ a ∈ args, a.anyVar test = .ok (p a)) :
    anyVarArgs test args = .ok (args.any p) := by
  induction args with
  | nil => simp [anyVarArgs]
  | cons a as ih =>
    have ha : a.anyVar test = .ok (p a) := h a (List.mem_cons_self ..)
    have has : anyVarArgs test as = .ok (as.any p) := ih fun x hx => h x (List.mem_cons_of_mem _ hx)
    rw [anyVarArgs, has, ha, List.any_cons]
    cases as.any p <;> cases p a <;> rfl

/-- If each variable has its answer, the walk finds whether one of them is yes. -/
theorem anyVar_ok {p : Nat → Bool} (h : ∀ v ∈ ty.occurrences, test v = .ok (p v)) :
    ty.anyVar test = .ok (ty.occurrences.any p) := by
  induction ty with
  | var v => simpa [anyVar, occurrences] using h v
  | con name => simp [anyVar, occurrences]
  | app name args ih =>
    rw [anyVar, anyVarArgs_ok (p := fun a => a.occurrences.any p) fun a ha =>
      ih a ha fun v hv => h v (mem_occurrences_app.2 ⟨a, ha, hv⟩)]
    simp [occurrences, occurrencesArgs_eq, List.any_flatMap]
  | fn arg result iharg ihresult =>
    have harg := iharg fun v hv => h v (mem_occurrences_fn.2 (Or.inl hv))
    have hresult := ihresult fun v hv => h v (mem_occurrences_fn.2 (Or.inr hv))
    rw [anyVar, harg, hresult, occurrences, List.any_append]
    cases arg.occurrences.any p <;> rfl

theorem anyVarArgs_false (h : anyVarArgs test args = .ok false) :
    ∀ a ∈ args, a.anyVar test = .ok false := by
  induction args with
  | nil => simp
  | cons a as ih =>
    rw [anyVarArgs] at h
    cases hrest : anyVarArgs test as with
    | error e => rw [hrest] at h; cases h
    | ok found =>
      rw [hrest] at h
      cases found with
      | true => cases h
      | false =>
        intro x hx
        rcases List.mem_cons.1 hx with rfl | hx
        · exact h
        · exact ih hrest x hx

/-- A walk that finds nothing has tried every variable. -/
theorem anyVar_false (h : ty.anyVar test = .ok false) :
    ∀ v ∈ ty.occurrences, test v = .ok false := by
  induction ty with
  | var v =>
    intro w hw
    rw [mem_occurrences_var.1 hw]
    simpa [anyVar] using h
  | con name => simp
  | app name args ih =>
    intro v hv
    obtain ⟨a, ha, hva⟩ := mem_occurrences_app.1 hv
    rw [anyVar] at h
    exact ih a ha (anyVarArgs_false h a ha) v hva
  | fn arg result iharg ihresult =>
    rw [anyVar] at h
    cases hfirst : arg.anyVar test with
    | error e => rw [hfirst] at h; cases h
    | ok found =>
      rw [hfirst] at h
      cases found with
      | true => cases h
      | false =>
        intro v hv
        rcases mem_occurrences_fn.1 hv with hv | hv
        · exact iharg hfirst v hv
        · exact ihresult h v hv

end Walks

end BlockGraph.Ty
