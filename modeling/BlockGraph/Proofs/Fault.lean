import Mathlib.Data.List.Forall2
import BlockGraph.Workspace.Build

/-!
# Computations that may end in a fault

An operation is a chain of steps, each of which gives a value or a fault.  The lemmas here take such
a chain apart: one that gives a value has one at every step (`bind_eq_ok`), and what each step
of a fold keeps, the fold keeps (`foldlM_induction`, `exists_foldlM`).
-/

namespace BlockGraph

variable {ε α β : Type} {l : List α} {f : β → α → Except ε β} {x : Except ε α} {R : α → β → Prop}
  {P : β → Prop} {l' : List β} {b : β} {a : α}

@[simp] theorem ok_bind (a : α) (f : α → Except ε β) : (Except.ok a >>= f) = f a := rfl

@[simp] theorem error_bind (e : ε) (f : α → Except ε β) :
    ((Except.error e : Except ε α) >>= f) = .error e := rfl

@[simp] theorem pure_eq_ok (a : α) : (pure a : Except ε α) = .ok a := rfl

/-- A chain gives a value exactly if its first step does and the rest goes on from there. -/
theorem bind_eq_ok {f : α → Except ε β} : (x >>= f) = .ok b ↔ ∃ a, x = .ok a ∧ f a = .ok b := by
  cases x with
  | error e | ok a => simp

theorem bind_congr_ok {f g : α → Except ε β} (h : ∀ a, x = .ok a → f a = g a) :
    (x >>= f) = (x >>= g) := by
  cases x with
  | error e => rfl
  | ok a => exact h a rfl

theorem require_eq_ok {condition : Bool} {fault : Fault} {u : Unit} :
    require condition fault = .ok u ↔ condition = true := by
  cases condition <;> simp [require]

/-- What every step of a fold keeps, the fold keeps. -/
theorem foldlM_induction {b' : β} (hstep : ∀ a ∈ l, ∀ b b', P b → f b a = .ok b' → P b') (hb : P b)
    (h : l.foldlM f b = .ok b') : P b' := by
  induction l generalizing b with
  | nil =>
    cases h
    exact hb
  | cons a l ih =>
    rw [List.foldlM_cons, bind_eq_ok] at h
    obtain ⟨c, hc, h⟩ := h
    refine ih (fun x hx => hstep x (List.mem_cons_of_mem _ hx)) ?_ h
    exact hstep a (List.mem_cons_self ..) b c hb hc

/-- Every entry of a list has its step in a fold, from where the steps before it have led. -/
theorem exists_step_of_foldlM {b' : β} (hstep : ∀ a ∈ l, ∀ b b', P b → f b a = .ok b' → P b')
    (hb : P b) (h : l.foldlM f b = .ok b') (ha : a ∈ l) : ∃ c c', P c ∧ f c a = .ok c' := by
  induction l generalizing b with
  | nil => cases ha
  | cons x l ih =>
    rw [List.foldlM_cons, bind_eq_ok] at h
    obtain ⟨c, hc, h⟩ := h
    rcases List.mem_cons.1 ha with rfl | ha
    · exact ⟨b, c, hb, hc⟩
    · exact ih (fun y hy => hstep y (List.mem_cons_of_mem _ hy))
        (hstep x List.mem_cons_self b c hb hc) h ha

/-- If every step of a fold gives a value and keeps what the steps to come need, the fold gives a
value. -/
theorem exists_foldlM_rest {P : List α → β → Prop}
    (hstep : ∀ a l b, P (a :: l) b → ∃ b', f b a = .ok b' ∧ P l b') (hb : P l b) :
    ∃ b', l.foldlM f b = .ok b' ∧ P [] b' := by
  induction l generalizing b with
  | nil => exact ⟨b, rfl, hb⟩
  | cons a l ih =>
    obtain ⟨c, hc, hPc⟩ := hstep a l b hb
    obtain ⟨b', hb', hPb'⟩ := ih hPc
    exact ⟨b', by rw [List.foldlM_cons, hc, ok_bind, hb'], hPb'⟩

theorem exists_foldlM (hstep : ∀ a ∈ l, ∀ b, P b → ∃ b', f b a = .ok b' ∧ P b') (hb : P b) :
    ∃ b', l.foldlM f b = .ok b' ∧ P b' := by
  obtain ⟨b', hb', -, hPb'⟩ := exists_foldlM_rest (f := f) (P := fun rest b => rest ⊆ l ∧ P b)
      (fun a rest b h => by
    obtain ⟨c, hc, hPc⟩ := hstep a (h.1 List.mem_cons_self) b h.2
    exact ⟨c, hc, fun x hx => h.1 (List.mem_cons_of_mem a hx), hPc⟩) ⟨List.Subset.refl l, hb⟩
  exact ⟨b', hb', hPb'⟩

/-- What a map makes equal is there or not there together. -/
theorem exists_of_map_eq {f : α → β} {o o' : Option α} (h : o'.map f = o.map f) (ho : o = some a) :
    ∃ a', o' = some a' ∧ f a' = f a :=
  Option.map_eq_some_iff.1 (h.trans (congrArg _ ho))

/-- What one map makes equal, every coarser one does. -/
theorem map_eq_of_map_eq {γ : Type*} {f : α → β} {g : α → γ} {o o' : Option α}
    (hfg : ∀ {a a'}, f a' = f a → g a' = g a) (h : o'.map f = o.map f) : o'.map g = o.map g := by
  cases ho : o with
  | none =>
    rw [ho] at h
    rw [Option.map_eq_none_iff.1 h, Option.map_none]
  | some a =>
    obtain ⟨a', ha', heq⟩ := exists_of_map_eq h ho
    rw [ha', Option.map_some, Option.map_some, hfg heq]

theorem toOption_eq_some_iff : x.toOption = some a ↔ x = .ok a := by
  cases x <;> simp [Except.toOption]

theorem exists_ok_of_any {p : α → Prop} [DecidablePred p]
    (h : x.toOption.any (fun a => decide (p a)) = true) : ∃ a, x = .ok a ∧ p a := by
  cases x with
  | error e => cases h
  | ok a => exact ⟨a, rfl, of_decide_eq_true h⟩

theorem mapM_eq_ok_map {f : α → Except ε β} {g : α → β} (h : ∀ a ∈ l, f a = .ok (g a)) :
    l.mapM f = .ok (l.map g) := by
  induction l with
  | nil => rfl
  | cons a l ih =>
    rw [List.mapM_cons, h a List.mem_cons_self, ih fun x hx => h x (List.mem_cons_of_mem _ hx)]
    rfl

theorem filterM_eq_ok_filter {f : α → Except ε Bool} {g : α → Bool} (h : ∀ a ∈ l, f a = .ok (g a)) :
    l.filterM f = .ok (l.filter g) := by
  have haux : ∀ acc, List.filterAuxM f l acc = .ok ((l.filter g).reverse ++ acc) := by
    induction l with
    | nil => exact fun _ => rfl
    | cons a l ih =>
      intro acc
      rw [List.filterAuxM, h a List.mem_cons_self, ok_bind,
        ih fun x hx => h x (List.mem_cons_of_mem a hx), List.filter_cons]
      cases g a <;> simp
  rw [List.filterM, haux, List.append_nil]
  simp

/-- A map gives a list of values exactly if it gives each of them. -/
theorem mapM_eq_ok {f : α → Except ε β} :
    l.mapM f = .ok l' ↔ List.Forall₂ (fun a a' => f a = .ok a') l l' := by
  induction l generalizing l' with
  | nil =>
    rw [List.mapM_nil, List.forall₂_nil_left_iff, pure_eq_ok, Except.ok.injEq, eq_comm]
  | cons a l ih =>
    simp only [List.mapM_cons, bind_eq_ok, ih]
    constructor
    · rintro ⟨a', ha, rest, hrest, h⟩
      cases h
      exact .cons ha hrest
    · intro h
      cases h with
      | cons ha hrest => exact ⟨_, ha, _, hrest, rfl⟩

theorem exists_forall₂_iff : (∃ l', List.Forall₂ R l l') ↔ ∀ a ∈ l, ∃ a', R a a' := by
  induction l with
  | nil => simp
  | cons a l ih =>
    rw [List.forall_mem_cons, ← ih]
    constructor
    · rintro ⟨l', h⟩
      cases h with
      | cons ha hrest => exact ⟨⟨_, ha⟩, _, hrest⟩
    · rintro ⟨⟨a', ha⟩, rest, hrest⟩
      exact ⟨a' :: rest, .cons ha hrest⟩

/-- Lists that correspond by a key have the same keys. -/
theorem map_eq_map_of_forall₂ {γ : Type} {f : α → γ} {g : β → γ}
    (h : List.Forall₂ (fun a a' => f a = g a' ∧ R a a') l l') : l.map f = l'.map g := by
  induction h with
  | nil => rfl
  | cons hhead _ ih => rw [List.map_cons, List.map_cons, hhead.1, ih]

/-- Lists that correspond have entries that do. -/
theorem exists_mem_of_forall₂ (h : List.Forall₂ R l l') :
    (∀ a ∈ l, ∃ a' ∈ l', R a a') ∧ ∀ a' ∈ l', ∃ a ∈ l, R a a' := by
  induction h with
  | nil => simp
  | @cons a a' l l' hhead _ ih =>
    constructor
    · intro x hx
      rcases List.mem_cons.1 hx with rfl | hx
      · exact ⟨a', List.mem_cons_self, hhead⟩
      · obtain ⟨x', hx', hrel⟩ := ih.1 x hx
        exact ⟨x', List.mem_cons_of_mem _ hx', hrel⟩
    · intro x' hx'
      rcases List.mem_cons.1 hx' with rfl | hx'
      · exact ⟨a, List.mem_cons_self, hhead⟩
      · obtain ⟨x, hx, hrel⟩ := ih.2 x' hx'
        exact ⟨x, List.mem_cons_of_mem _ hx, hrel⟩

theorem exists_mapM_iff {f : α → Except ε β} :
    (∃ l', l.mapM f = .ok l') ↔ ∀ a ∈ l, ∃ a', f a = .ok a' := by
  simp only [mapM_eq_ok, exists_forall₂_iff]

end BlockGraph
