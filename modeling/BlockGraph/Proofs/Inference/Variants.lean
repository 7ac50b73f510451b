import BlockGraph.Proofs.Inference.Instances
import BlockGraph.Proofs.Upkeep.Current

/-!
# Typings that are instances of each other

A tree has many principal typings, and inference finds one or another of them.  Two that are
instances of each other differ in the numbers of their variables only: `Typing.exists_renaming`
gives one permutation for all types of the tree.  The resolved types of a workspace are over the
variables of its table (`Shows.lt_size`), so they have finitely many.
-/

namespace BlockGraph

namespace Ty

variable {σ ρ : Nat → Ty} {ty : Ty} {v : Nat}

/-- A substitution is known at the variables of a type from what it makes of the type. -/
theorem eq_of_subst_eq (h : ty.subst σ = ty.subst ρ) : ∀ v ∈ ty.occurrences, σ v = ρ v := by
  induction ty with
  | var v => simpa using h
  | con name => simp
  | app name args ih =>
    simp only [subst_app, app.injEq, true_and, List.map_inj_left] at h
    intro v hv
    obtain ⟨a, ha, hv⟩ := mem_occurrences_app.1 hv
    exact ih a ha (h a ha) v hv
  | fn arg result iharg ihresult =>
    simp only [subst_fn, fn.injEq] at h
    intro v hv
    rcases mem_occurrences_fn.1 hv with hv | hv
    · exact iharg h.1 v hv
    · exact ihresult h.2 v hv

/-- Only a variable has a variable as an instance. -/
theorem exists_var_of_subst (h : ty.subst σ = .var v) : ∃ u, ty = .var u ∧ σ u = .var v := by
  cases ty with
  | var u => exact ⟨u, rfl, by simpa using h⟩
  | con name | app name args | fn arg result => simp at h

/-- If two substitutions one after the other leave a type as it is, the first renames its
variables. -/
theorem exists_var_of_subst_subst (h : (ty.subst σ).subst ρ = ty) (hv : v ∈ ty.occurrences) :
    ∃ u, σ v = .var u ∧ ρ u = .var v := by
  rw [subst_subst] at h
  have hself := eq_of_subst_eq (h.trans (rename_id ty).symm) v hv
  exact exists_var_of_subst hself

end Ty

/-- What is known of a variable is in terms of variables of the table. -/
theorem Table.Sound.covers_image {t : Table} (ht : t.Sound) {v : Nat} (hv : v < t.size) :
    t.Covers (t.image v) := by
  refine ht.binding_induction (p := fun v => t.Covers (t.image v)) (fun v hv ih => ?_) hv
  cases hvalue : t.value v with
  | none =>
    rw [ht.image_of_none hv hvalue]
    exact covers_var (root_lt ht.forest hv)
  | some inner =>
    rw [ht.image_of_some hvalue]
    intro u hu
    obtain ⟨x, hx, hu⟩ := Ty.mem_occurrences_subst.1 hu
    exact ih inner hvalue x hx u hu

theorem Table.Sound.covers_of_resolve_eq {t : Table} (ht : t.Sound) {ty ty' : Ty}
    (h : t.resolve ty = .ok ty') :
    t.Covers ty' := by
  have hcovers := Table.covers_of_resolve h
  obtain rfl := Except.ok.inj ((ht.resolve_eq hcovers).symm.trans h)
  intro u hu
  obtain ⟨v, hv, hu⟩ := Ty.mem_occurrences_subst.1 hu
  exact ht.covers_image (hcovers v hv) u hu

namespace Typing

variable {τ τ' : Typing} {w : Workspace} {root : BlockId} {σ ρ : Nat → Ty} {v : Nat}

/-- The typing with other numbers for its variables. -/
def rename (τ : Typing) (f : Nat → Nat) : Typing := τ.subst fun v => .var (f v)

/-- A variable of the types that a typing gives to a tree. -/
def Mentions (τ : Typing) (w : Workspace) (root : BlockId) (v : Nat) : Prop :=
  (∃ c, w.SocketBelow root c ∧ v ∈ (τ.socket c).occurrences) ∨
    ∃ u, w.BinderBelow root u ∧ v ∈ (τ.binder u).occurrences

theorem Agrees.trans {τ'' : Typing} (h : τ.Agrees τ' w root) (h' : τ'.Agrees τ'' w root) :
    τ.Agrees τ'' w root :=
  ⟨fun hc => (h.socket hc).trans (h'.socket hc), fun hu => (h.binder hu).trans (h'.binder hu)⟩

/-- Substitutions that agree on the variables of the tree. -/
theorem agrees_subst (h : ∀ v, τ.Mentions w root v → σ v = ρ v) :
    (τ.subst σ).Agrees (τ.subst ρ) w root where
  socket hc := Ty.subst_congr fun v hv => h v (.inl ⟨_, hc, hv⟩)
  binder hu := Ty.subst_congr fun v hv => h v (.inr ⟨_, hu, hv⟩)

/-- **Principal typings differ by a renaming.**  Of two typings that are instances of each other on
a tree, one is the other with its variables permuted. -/
theorem exists_renaming {n : Nat} (hfinite : ∀ v, τ.Mentions w root v → v < n)
    (h : τ'.Agrees (τ.subst σ) w root) (h' : τ.Agrees (τ'.subst ρ) w root) :
    ∃ π : Equiv.Perm Nat, τ'.Agrees (τ.rename π) w root := by
  classical
  have hvar : ∀ v, ∃ u, τ.Mentions w root v → σ v = .var u ∧ ρ u = .var v := by
    intro v
    by_cases hv : τ.Mentions w root v
    · obtain ⟨u, hu⟩ : ∃ u, σ v = .var u ∧ ρ u = .var v := by
        rcases hv with ⟨c, hc, hv⟩ | ⟨x, hx, hv⟩
        · refine Ty.exists_var_of_subst_subst ?_ hv
          exact (congrArg (Ty.subst ρ) (h.socket hc)).symm.trans (h'.socket hc).symm
        · refine Ty.exists_var_of_subst_subst ?_ hv
          exact (congrArg (Ty.subst ρ) (h.binder hx)).symm.trans (h'.binder hx).symm
      exact ⟨u, fun _ => hu⟩
    · exact ⟨0, fun hv' => absurd hv' hv⟩
  choose g hg using hvar
  obtain ⟨π, hπ⟩ := Workspace.exists_perm_extending (g := g)
    (s := (Finset.range n).filter (τ.Mentions w root)) (by
    intro u hu v hv heq
    have hu := (hg u (Finset.mem_filter.1 hu).2).2
    have hv := (hg v (Finset.mem_filter.1 hv).2).2
    rw [heq, hv] at hu
    exact (Ty.var.inj hu).symm)
  refine ⟨π, h.trans (agrees_subst fun v hv => ?_)⟩
  rw [(hg v hv).1, hπ v (Finset.mem_filter.2 ⟨Finset.mem_range.2 (hfinite v hv), hv⟩)]

end Typing

/-- The resolved types of a tree are over the variables of the table. -/
theorem Workspace.Shows.lt_size {w : Workspace} {root : BlockId} {τ : Typing} (h : w.Shows root τ)
    (hw : w.types.Sound) {v : Nat} (hv : τ.Mentions w root v) : v < w.types.size := by
  rcases hv with ⟨c, hc, hv⟩ | ⟨u, hu, hv⟩
  · obtain ⟨expr, -, hresolve⟩ := slotType_of_typeOf? (h.socket hc)
    exact hw.covers_of_resolve_eq hresolve v hv
  · obtain ⟨expr, -, hresolve⟩ := h.binder hu
    exact hw.covers_of_resolve_eq hresolve v hv

end BlockGraph
