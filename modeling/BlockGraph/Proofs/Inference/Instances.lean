import BlockGraph.Proofs.Inference.Principal

/-!
# Instances of typings

Replacing the type variables of a typing that solves a tree gives another that does
(`Solves.subst`), and only its types on the tree count (`Agrees.solves`).  So once the resolved
types of a tree solve it, every solution of the type table does (`Shows.solves_reading`).
-/

namespace BlockGraph

/-! ## Types that resolve -/

/-- A type that can be resolved is over the variables of the table. -/
theorem Table.covers_of_resolve {t : Table} {ty ty' : Ty} (h : t.resolve ty = .ok ty') :
    t.Covers ty := by
  intro v hv
  obtain ⟨inner, hinner⟩ := Ty.exists_of_bindVars h v hv
  by_contra hlt
  simp [Table.probe, Table.find, hlt] at hinner

/-! ## Instances -/

namespace Typing

variable {τ τ' : Typing} {w w' : Workspace} {root b : BlockId} {block : Block}

theorem Fits.subst (h : τ.Fits w b block) (ρ : Nat → Ty) : (τ.subst ρ).Fits w b block := by
  obtain ⟨σ, hsocket, hbinder⟩ := h
  refine ⟨fun v => (σ v).subst ρ, fun c ty hc => ?_, fun v ty hty hv => ?_⟩
  · simp only [Typing.subst, hsocket c ty hc, Ty.subst_subst]
  · simp only [Typing.subst, hbinder v ty hty hv, Ty.subst_subst]

/-- An instance of a solution is a solution. -/
theorem Solves.subst (h : τ.Solves w root) (ρ : Nat → Ty) : (τ.subst ρ).Solves w root where
  link hb _ _ _ hc hkind hblock htarget := congrArg (Ty.subst ρ) (h.link hb hc hkind hblock htarget)
  use hb _ _ huse := congrArg (Ty.subst ρ) (h.use hb huse)
  shape hb hblock := (h.shape hb hblock).subst ρ

theorem Agrees.fits (h : τ.Agrees τ' w root) (hw : w.InOrder) (hkeeps : w.KeepsTree root)
    (hb : w.Below root b) (hblock : w.blocks[b]? = some block) (hfits : τ.Fits w b block) :
    τ'.Fits w b block := by
  have hlayout := hkeeps.layout hb hblock
  obtain ⟨σ, hσ⟩ := (hlayout.fits_iff hblock).1 hfits
  refine (hlayout.fits_iff hblock).2 ⟨σ, fun a ty hty => ?_⟩
  rw [← hσ a ty hty, agrees_iff.1 h a (hlayout.holderBelow hw hblock hb hty)]

/-- Only the types on the tree count. -/
theorem Agrees.solves (h : τ.Agrees τ' w root) (hw : w.InOrder) (hkeeps : w.KeepsTree root)
    (hsolves : τ.Solves w root) : τ'.Solves w root :=
  ⟨h.links hw hkeeps hsolves.toLinks,
    fun hb hblock => h.fits hw hkeeps hb hblock (hsolves.shape hb hblock)⟩

end Typing

namespace Workspace

variable {w w' : Workspace} {root : BlockId} {τ : Typing} {θ : Nat → Ty}

/-! ## Resolved types and readings -/

theorem subst_of_resolve (hsound : w.types.Sound) (hθ : w.types.Solution θ) {expr ty : Ty}
    (h : w.types.resolve expr = .ok ty) : ty.subst θ = expr.subst θ := by
  have hcovers := Table.covers_of_resolve h
  have hty : expr.subst w.types.image = ty :=
    Except.ok.inj ((hsound.resolve_eq hcovers).symm.trans h)
  rw [← hty, hθ.subst_image hsound hcovers]

/-- Under a solution of the table, the types of a tree are an instance of the resolved ones. -/
theorem Shows.agrees_reading (h : w.Shows root τ) (hsound : w.types.Sound)
    (hθ : w.types.Solution θ) : (τ.subst θ).Agrees (w.reading θ) w root :=
  Typing.agrees_iff.2 fun a ha => by
    obtain ⟨expr, hexpr, hresolve⟩ := shows_iff.1 h a ha
    rw [Typing.typeAt_subst, reading_typeAt hexpr, subst_of_resolve hsound hθ hresolve]

/-- If the resolved types of a tree solve it, every solution of the table does. -/
theorem Shows.solves_reading (h : w.Shows root τ) (hw : w.InOrder) (hkeeps : w.KeepsTree root)
    (hsolves : τ.Solves w root) (hθ : w.types.Solution θ) : (w.reading θ).Solves w root :=
  (h.agrees_reading hw.sound hθ).solves hw hkeeps (hsolves.subst θ)

end Workspace

end BlockGraph
