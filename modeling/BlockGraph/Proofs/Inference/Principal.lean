import BlockGraph.Proofs.Inference.Clearing
import BlockGraph.Proofs.Inference.Solving

/-!
# Inference finds principal types

A cleared tree is ready to be solved (`Cleared.ready`), and its typings are its readings: every
reading by a solution of the table gives the blocks instances of their signatures
(`Cleared.fits_reading`), and every typing that does so is such a reading on the tree
(`Cleared.exists_reading`).  With the two ways the solving passes can end this gives the two
directions of `reinfer_principal`: a tree with a solution is inferred without an error
(`errorFree_of_solves`), and a tree inferred without an error shows a solution, of which every other
is an instance (`exists_principal`).
-/

namespace BlockGraph.Workspace

variable {w w' v : Workspace} {root : BlockId} {τ : Typing} {S : (Nat → Ty) → Prop}

/-- Under a choice for the table's variables, a scheme takes the types chosen from its base on. -/
theorem subst_instantiate (base : Nat) (ty : Ty) (θ : Nat → Ty) :
    (instantiate base ty).subst θ = ty.subst fun i => θ (base + i) := by
  rw [instantiate, Ty.subst_subst]
  simp

theorem KeepsTree.retypes (h : w.KeepsTree root) (hr : Retypes w w') : w'.KeepsTree root where
  layout {b block} hbelow hblock := by
    rw [hr.sameGraph.below_eq] at hbelow
    rw [hr.sameGraph.blocks] at hblock
    exact (h.layout hbelow hblock).retypes hr
  bound {b c u} hbelow huse := by
    rw [hr.sameGraph.below_eq] at hbelow
    exact hr.sameGraph.binderBelow (h.bound hbelow (hr.sameGraph.symm.useAt huse))

/-! ## Cleared trees -/

namespace Cleared

variable {done : List BlockId} {base : BlockId → Nat} {a : Holder}

variable (h : Cleared w w' done base)
include h

/-- What has a type in a cleared tree has the scheme that its block gives it. -/
theorem covers (hw : w.InOrder)
    (hlayout : ∀ {b : BlockId} {block : Block}, w.Below root b → w.blocks[b]? = some block →
      w.KeepsLayout b block) (hdone : ∀ b, b ∈ done ↔ w.Below root b) (ha : w'.HolderBelow root a) :
    ∃ ty, w'.typeAt a = some ty ∧ w'.types.Covers ty := by
  obtain ⟨b, block, ty, hbelow, hblock, hty⟩ :=
    hw.exists_grants hlayout (h.retypes.sameGraph.symm.holderBelow ha)
  have hb := (hdone b).2 hbelow
  exact ⟨_, h.given hb hblock hty, covers_instantiate hty.mentions (h.room hb hblock)⟩

theorem errorFree (hdone : ∀ b, b ∈ done ↔ w.Below root b) : w'.ErrorFree root := by
  refine h.retypes.errorFree_iff.2 fun c connection hc hbelow => ?_
  exact h.error hc ((hdone _).2 hbelow)

/-- A cleared tree is ready to be solved. -/
theorem ready (hw : w.InOrder) (hkeeps : w.KeepsTree root)
    (hdone : ∀ b, b ∈ done ↔ w.Below root b) : w'.Ready root where
  inOrder := hw.keeps h.retypes.keeps
  keeps := hkeeps.retypes h.retypes
  held := h.covers hw hkeeps.layout hdone
  errorFree := h.errorFree hdone

/-- Every reading of a cleared tree gives its blocks instances of their signatures. -/
theorem fits_reading (hkeeps : w.KeepsTree root) (hdone : ∀ b, b ∈ done ↔ w.Below root b)
    (θ : Nat → Ty) {b : BlockId} {block : Block} (hbelow : w.Below root b)
    (hblock : w.blocks[b]? = some block) : (w'.reading θ).Fits w b block :=
  ((hkeeps.layout hbelow hblock).fits_iff hblock).2 ⟨fun i => θ (base b + i), fun a ty hty => by
    rw [reading_typeAt (h.given ((hdone b).2 hbelow) hblock hty), subst_instantiate]⟩

/-- A typing that gives the blocks instances of their signatures is a reading, as far as the tree
goes. -/
theorem exists_reading (hw : w.InOrder) (hkeeps : w.KeepsTree root)
    (hdone : ∀ b, b ∈ done ↔ w.Below root b)
    (hτ : ∀ {b : BlockId} {block : Block}, w.Below root b → w.blocks[b]? = some block →
      τ.Fits w b block) : ∃ θ, w'.types.Solution θ ∧ τ.Agrees (w'.reading θ) w root := by
  have hchoice : ∀ b, ∃ σ : Nat → Ty, ∀ block, w.Below root b → w.blocks[b]? = some block →
      ∀ a ty, block.Grants a ty → τ.typeAt a = ty.subst σ := by
    intro b
    by_cases hb : ∃ block, w.Below root b ∧ w.blocks[b]? = some block
    · obtain ⟨block, hbelow, hblock⟩ := hb
      obtain ⟨σ, hσ⟩ := ((hkeeps.layout hbelow hblock).fits_iff hblock).1 (hτ hbelow hblock)
      refine ⟨σ, fun block' _ hblock' => ?_⟩
      cases hblock.symm.trans hblock'
      exact hσ
    · exact ⟨Ty.var, fun block hbelow hblock => absurd ⟨block, hbelow, hblock⟩ hb⟩
  choose σ hσ using hchoice
  obtain ⟨θ, hθ, hfree⟩ := h.free σ
  refine ⟨θ, hθ, Typing.agrees_iff.2 fun a ha => ?_⟩
  obtain ⟨b, block, ty, hbelow, hblock, hty⟩ := hw.exists_grants hkeeps.layout ha
  have hb := (hdone b).2 hbelow
  rw [hσ b block hbelow hblock a ty hty, reading_typeAt (h.given hb hblock hty), subst_instantiate]
  exact (Ty.subst_congr fun i hi => hfree hb hblock
    (Kind.lt_fresh_of_mentions hty.mentions i hi)).symm

end Cleared

/-! ## Resolved types -/

theorem Ready.shows (hw : w.Ready root) (h : Solving w v root S) :
    v.Shows root (w.reading v.types.image) := by
  rw [← h.toKeepsSlots.reading]
  exact (h.toKeepsSlots.poised hw.poised).shows

/-- Of readings by solutions of the table, that by the resolved types is the most general. -/
theorem Ready.agrees_subst (hw : w.Ready root) (h : Solving w v root S) {θ : Nat → Ty}
    (hθ : v.types.Solution θ) :
    (w.reading θ).Agrees ((w.reading v.types.image).subst θ) w root := by
  refine Typing.agrees_iff.2 fun a ha => ?_
  obtain ⟨ty, hty, hcovers⟩ := hw.held ha
  rw [Typing.typeAt_subst, reading_typeAt hty, reading_typeAt hty,
    hθ.subst_image (h.retypes.sound hw.inOrder.sound) (h.covers hcovers)]

/-! ## Inferring a tree -/

section Reinfer

variable (hw : w.InOrder) (htyped : w.isTyped = true)
  (hroot : ∃ block, w.blocks[root]? = some block) (hkeeps : w.KeepsTree root)
include hw htyped hroot hkeeps

/-- Inferring a tree anew ends: the tree is cleared, and then solved. -/
theorem exists_reinfer : ∃ ty w' x done base, w.reinfer root = .ok (ty, w') ∧
    Cleared w x done base ∧
      (∀ b, b ∈ done ↔ w.Below root b) ∧ x.Ready root ∧
      Solving x w' root fun θ => (x.reading θ).Links x root := by
  obtain ⟨block, hblock⟩ := hroot
  obtain ⟨x, done, base, hclear, hdone, hcleared⟩ :=
    exists_clearTypes hw htyped hblock hkeeps.layout
  have hready := hcleared.ready hw hkeeps hdone
  obtain ⟨ty, v, hinfer, hsolving⟩ :=
    hready.exists_infer (by rw [hcleared.retypes.rest]; exact htyped)
      ⟨block, by rw [hcleared.retypes.sameGraph.blocks, hblock]⟩
  exact ⟨ty, v, x, done, base, by rw [reinfer, hclear, ok_bind, hinfer], hcleared, hdone, hready,
    hsolving⟩

variable {ty : Option Ty} (h : w.reinfer root = .ok (ty, w'))
include h

theorem exists_solving_of_reinfer :
    ∃ x done base, Cleared w x done base ∧ (∀ b, b ∈ done ↔ w.Below root b) ∧ x.Ready root ∧
      Solving x w' root fun θ => (x.reading θ).Links x root := by
  obtain ⟨ty', v, x, done, base, hreinfer, hrest⟩ := exists_reinfer hw htyped hroot hkeeps
  cases h.symm.trans hreinfer
  exact ⟨x, done, base, hrest⟩

/-- A tree with a solution is inferred without an error. -/
theorem errorFree_of_solves (hsolves : τ.Solves w root) : w'.ErrorFree root := by
  obtain ⟨x, done, base, hcleared, hdone, hready, hsolving⟩ :=
    exists_solving_of_reinfer hw htyped hroot hkeeps h
  obtain ⟨θ, hθ, hagrees⟩ := hcleared.exists_reading hw hkeeps hdone hsolves.shape
  have hlinks := hcleared.retypes.sameGraph.links (hagrees.links hw hkeeps hsolves.toLinks)
  exact (hsolving.errorFree_iff hready.inOrder.sound).2 ⟨θ, hθ, hlinks⟩

/-- A tree that is inferred without an error shows a solution, of which every other is an
instance. -/
theorem exists_principal (hfree : w'.ErrorFree root) : ∃ τ : Typing, τ.Solves w root ∧
    w'.Shows root τ ∧ ∀ τ' : Typing, τ'.Solves w root → ∃ σ, τ'.Agrees (τ.subst σ) w root := by
  obtain ⟨x, done, base, hcleared, hdone, hready, hsolving⟩ :=
    exists_solving_of_reinfer hw htyped hroot hkeeps h
  have hsame := hcleared.retypes.sameGraph
  rcases hsolving.outcome with ⟨-, hsol⟩ | ⟨herror, -⟩
  · have hsound : w'.types.Sound := hsolving.retypes.sound hready.inOrder.sound
    have hlinks := hsame.symm.links ((hsol _).1 hsound.solution_image).2
    refine ⟨_, ⟨hlinks, hcleared.fits_reading hkeeps hdone _⟩, hready.shows hsolving,
      fun τ' hτ' => ?_⟩
    obtain ⟨θ, hθ, hagrees⟩ := hcleared.exists_reading hw hkeeps hdone hτ'.shape
    have hlinks' := hsame.links (hagrees.links hw hkeeps hτ'.toLinks)
    have hinstance := hready.agrees_subst hsolving ((hsol θ).2 ⟨hθ, hlinks'⟩)
    exact ⟨θ, fun hc => (hagrees.socket hc).trans (hinstance.socket (hsame.socketBelow hc)),
      fun hu => (hagrees.binder hu).trans (hinstance.binder (hsame.binderBelow hu))⟩
  · exact absurd hfree herror

end Reinfer

/-! ## Functions whose uses are all bound by the function itself -/

/-- All blocks keep their layout, and a block declares what every use is bound to. -/
def DeclaresAll (w : Workspace) (root : BlockId) : Prop :=
  (∃ block ∈ w.blocks[root]?, block.kind.isBinder = true) ∧
    ∀ b ∈ w.blockIds, ∀ block ∈ w.blocks[b]?, w.KeepsLayout b block ∧
      (block.kind = .variablesGet → ∀ v ∈ (w.ownVariable b).toOption, ∀ use ∈ w.vars[v]?,
        ∀ u ∈ use.binding?, (w.ownVariable root).toOption = some u)

instance : Decidable (w.DeclaresAll root) := inferInstanceAs (Decidable (_ ∧ _))

theorem DeclaresAll.keepsTree (h : w.DeclaresAll root) : w.KeepsTree root where
  layout _ hblock := (h.2 _ (mem_blockIds.2 ⟨_, hblock⟩) _ hblock).1
  bound _ huse := by
    obtain ⟨block, v, use, hblock, hkind, -, hown, hlook, hbound⟩ := huse
    obtain ⟨rootBlock, hroot, hbinder⟩ := h.1
    have hdeclared := (h.2 _ (mem_blockIds.2 ⟨_, hblock⟩) _ hblock).2 hkind v
      (toOption_eq_some_iff.2 hown) use hlook _ hbound
    exact ⟨root, rootBlock, .refl, hroot, hbinder, toOption_eq_some_iff.1 hdeclared⟩

/-- The function that adds a number to its argument. -/
def successor : Except Fault Workspace :=
  [Call.newBlock .lambda, .newBlock .intArithmetic, .newBlock .variablesGet, .newBlock .intLiteral,
    .connect ⟨1⟩ ⟨2⟩, .connect ⟨3⟩ ⟨5⟩, .connect ⟨4⟩ ⟨6⟩].foldlM Call.run (Workspace.new {})

/-- The function that applies its argument to itself. -/
def selfApplication : Except Fault Workspace :=
  [Call.newBlock .lambda, .newBlock .lambdaApp, .newBlock .variablesGet, .newBlock .variablesGet,
    .connect ⟨1⟩ ⟨2⟩, .connect ⟨3⟩ ⟨5⟩, .connect ⟨4⟩ ⟨6⟩].foldlM Call.run (Workspace.new {})

theorem exists_successor : ∃ w r, successor = .ok w ∧ w.isTyped = true ∧
    w.containsBlock ⟨1⟩ = true ∧ w.DeclaresAll ⟨1⟩ ∧ w.reinfer ⟨1⟩ = .ok r ∧
    r.1.map Ty.text = some "(Int) -> Int" ∧ r.2.typeErrors = [] := by
  obtain ⟨w, hrun, htyped, hroot, hall, hinfer⟩ : ∃ w, successor = .ok w ∧ w.isTyped = true ∧
      w.containsBlock ⟨1⟩ = true ∧ w.DeclaresAll ⟨1⟩ ∧ (w.reinfer ⟨1⟩).toOption.any (fun r =>
        decide (r.1.map Ty.text = some "(Int) -> Int" ∧ r.2.typeErrors = [])) = true :=
    exists_ok_of_any (by decide +kernel)
  obtain ⟨r, hr, hchecks⟩ := exists_ok_of_any hinfer
  exact ⟨w, r, hrun, htyped, hroot, hall, hr, hchecks⟩

theorem exists_selfApplication : ∃ w r connection, selfApplication = .ok w ∧ w.isTyped = true ∧
    w.containsBlock ⟨1⟩ = true ∧ w.DeclaresAll ⟨1⟩ ∧ w.reinfer ⟨1⟩ = .ok r ∧
    r.2.connections[(⟨6⟩ : ConnectionId)]? = some connection ∧ r.2.Below ⟨1⟩ connection.block ∧
    connection.error ≠ none ∧ connection.kind = .output ∧ r.2.typeErrors.map Prod.fst = [⟨6⟩] := by
  obtain ⟨w, hrun, htyped, hroot, hall, hinfer⟩ : ∃ w, selfApplication = .ok w ∧
      w.isTyped = true ∧ w.containsBlock ⟨1⟩ = true ∧ w.DeclaresAll ⟨1⟩ ∧
      (w.reinfer ⟨1⟩).toOption.any (fun r => decide (
        (∃ connection ∈ r.2.connections[(⟨6⟩ : ConnectionId)]?, connection.block = ⟨4⟩ ∧
          connection.error ≠ none ∧ connection.kind = .output) ∧
          r.2.typeErrors.map Prod.fst = [⟨6⟩] ∧
        (∃ block ∈ r.2.blocks[(⟨4⟩ : BlockId)]?, block.parent = some ⟨2⟩) ∧
        ∃ block ∈ r.2.blocks[(⟨2⟩ : BlockId)]?, block.parent = some ⟨1⟩)) = true :=
    exists_ok_of_any (by decide +kernel)
  obtain ⟨r, hr, ⟨connection, hconnection, hblock, herror, hout⟩, hlisted, hfour, htwo⟩ :=
    exists_ok_of_any hinfer
  refine ⟨w, r, connection, hrun, htyped, hroot, hall, hr, hconnection, ?_, herror, hout, hlisted⟩
  rw [hblock]
  exact (Relation.ReflTransGen.single htwo).tail hfour

/-! ## Principal types -/

/-- **Inference finds principal types.**  Inferring a tree anew, whose blocks keep their layout and
whose uses of variables are bound within it, ends without a fault.  No connection of the tree has an
error exactly if the equations of the tree have a solution; and then the resolved types are a
solution, of which every other is an instance. -/
theorem reinfer_principal (hw : w.Reachable) (htyped : w.isTyped = true)
    (hroot : w.containsBlock root = true) (hkeeps : w.KeepsTree root) :
    ∃ ty w', w.reinfer root = .ok (ty, w') ∧ (w'.ErrorFree root ↔ ∃ τ : Typing, τ.Solves w root) ∧
      (w'.ErrorFree root → ∃ τ : Typing, τ.Solves w root ∧ w'.Shows root τ ∧
        ∀ τ' : Typing, τ'.Solves w root → ∃ σ, τ'.Agrees (τ.subst σ) w root) := by
  have horder := hw.inOrder
  have hlive := containsBlock_iff.1 hroot
  obtain ⟨ty, w', -, -, -, hreinfer, -⟩ := exists_reinfer horder htyped hlive hkeeps
  have hprincipal := exists_principal horder htyped hlive hkeeps hreinfer
  refine ⟨ty, w', hreinfer, ⟨fun hfree => ?_, ?_⟩, hprincipal⟩
  · obtain ⟨τ, hτ, -⟩ := hprincipal hfree
    exact ⟨τ, hτ⟩
  · rintro ⟨τ, hτ⟩
    exact errorFree_of_solves horder htyped hlive hkeeps hreinfer hτ

theorem reinfer_principal_successor :
    (∃ w ty w', successor = .ok w ∧ w.KeepsTree ⟨1⟩ ∧ w.reinfer ⟨1⟩ = .ok (ty, w') ∧
      ty.map Ty.text = some "(Int) -> Int" ∧ w'.ErrorFree ⟨1⟩ ∧
      ∃ τ : Typing, τ.Solves w ⟨1⟩ ∧ w'.Shows ⟨1⟩ τ ∧
        ∀ τ' : Typing, τ'.Solves w ⟨1⟩ → ∃ σ, τ'.Agrees (τ.subst σ) w ⟨1⟩) ∧
    ∃ w, selfApplication = .ok w ∧ w.KeepsTree ⟨1⟩ ∧ ¬∃ τ : Typing, τ.Solves w ⟨1⟩ := by
  constructor
  · obtain ⟨w, r, hrun, htyped, hroot, hall, hr, htext, herrors⟩ := exists_successor
    have hreachable := (Reachable.new {}).foldlM (by simp [Call.Permitted]) hrun
    obtain ⟨ty, w', hinfer, -, hprincipal⟩ :=
      reinfer_principal hreachable htyped hroot hall.keepsTree
    cases hr.symm.trans hinfer
    have hfree := errorFree_of_typeErrors herrors ⟨1⟩
    exact ⟨w, ty, w', hrun, hall.keepsTree, hinfer, htext, hfree, hprincipal hfree⟩
  · obtain ⟨w, r, connection, hrun, htyped, hroot, hall, hr, hconnection, hbelow, herror, -⟩ :=
      exists_selfApplication
    have hreachable := (Reachable.new {}).foldlM (by simp [Call.Permitted]) hrun
    obtain ⟨ty, w', hinfer, hiff, -⟩ := reinfer_principal hreachable htyped hroot hall.keepsTree
    cases hr.symm.trans hinfer
    exact ⟨w, hrun, hall.keepsTree, fun hsolves =>
      herror (hiff.2 hsolves _ _ hconnection hbelow)⟩

end BlockGraph.Workspace
