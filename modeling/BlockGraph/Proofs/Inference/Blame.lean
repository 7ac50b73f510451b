import BlockGraph.Proofs.Inference.Principal

/-!
# Where conflicts are reported

The equations of a tree are of three sorts: each block has the shape of its kind, sockets have the
types of what is plugged in, and uses of variables have the types of their declarations.  The last
are put up after all the others, so a conflict between them and the rest is reported at a use.

`reinfer_blames_uses` says so: a socket has an error exactly if the tree has no typing even when its
uses are not looked at (`Typing.Coheres`), and every other error stands at the output of a use that
is bound.
-/

namespace BlockGraph

variable {τ τ' : Typing} {w w' : Workspace} {root b : BlockId} {order : List BlockId}

/-- The equations of a tree hold, but for those between uses and their declarations. -/
structure Typing.Coheres (τ : Typing) (w : Workspace) (root : BlockId) : Prop where
  shape : ∀ {b : BlockId} {block : Block}, w.Below root b → w.blocks[b]? = some block →
    τ.Fits w b block
  link : ∀ {b : BlockId}, w.Below root b → τ.LinksAt w b

namespace Workspace

/-- A cleared tree can be typed, uses apart, exactly if some reading of it satisfies its links. -/
theorem Cleared.coheres_iff {done : List BlockId} {base : BlockId → Nat}
    (h : Cleared w w' done base) (hw : w.InOrder) (hkeeps : w.KeepsTree root)
    (hdone : ∀ b, b ∈ done ↔ w.Below root b) :
    (∃ τ : Typing, τ.Coheres w root) ↔
      ∃ θ, w'.types.Solution θ ∧ ∀ b, w.Below root b → (w'.reading θ).LinksAt w' b := by
  have hsame := h.retypes.sameGraph
  constructor
  · rintro ⟨τ, hτ⟩
    obtain ⟨θ, hθ, hagrees⟩ := h.exists_reading hw hkeeps hdone hτ.shape
    exact ⟨θ, hθ, fun b hb => hsame.linksAt (hagrees.linksAt hw hb (hτ.link hb))⟩
  · rintro ⟨θ, -, hlinks⟩
    exact ⟨w'.reading θ, h.fits_reading hkeeps hdone θ,
      fun {b} hb => hsame.symm.linksAt (hlinks b hb)⟩

/-- After the pass over the inputs no connection has an error exactly if the links can be
satisfied. -/
theorem Ready.errorFree_unifyInputs {v : Workspace} (hw : w.Ready root) {block : Block}
    (hroot : w.blocks[root]? = some block) (hmem : ∀ x, x ∈ order ↔ w.Below root x)
    (h : order.reverse.foldlM unifyInputs w = .ok v) : v.ErrorFree root ↔
      ∃ θ, w.types.Solution θ ∧ ∀ b, w.Below root b → (w.reading θ).LinksAt w b := by
  have hbelow : ∀ x ∈ order.reverse, w.Below root x := fun x hx =>
    (hmem x).1 (List.mem_reverse.1 hx)
  rw [(hw.poised.passes_eq hroot fun x hx => (hmem x).1 hx).1] at h
  obtain ⟨v', h', hposed⟩ := exists_poseAll hw.inOrder.sound fun e he => by
    obtain ⟨x, hx, he⟩ := List.mem_flatMap.1 he
    exact hw.poised.knows (hbelow x hx) (.inl he)
  cases h.symm.trans h'
  have hsolving := hposed.solving hw.inOrder.sound hw.errorFree fun e he => by
    obtain ⟨x, hx, he⟩ := List.mem_flatMap.1 he
    exact hw.inOrder.below_of_equation (hbelow x hx) (.inl he)
  rw [hsolving.errorFree_iff hw.inOrder.sound]
  refine exists_congr fun θ => and_congr_right fun _ => ?_
  constructor
  · intro hall b hb
    exact (hw.poised.linksAt_reading_iff hb).2 fun e he =>
      hall e (List.mem_flatMap.2 ⟨b, List.mem_reverse.2 ((hmem b).2 hb), he⟩)
  · intro hlinks e he
    obtain ⟨x, hx, he⟩ := List.mem_flatMap.1 he
    exact (hw.poised.linksAt_reading_iff (hbelow x hx)).1 (hlinks x (hbelow x hx)) e he

/-! ## Which connections have errors -/

/-- A connection of a tree has an error. -/
def ErrorAt (w : Workspace) (root : BlockId) (c : ConnectionId) (connection : Connection) : Prop :=
  w.connections[c]? = some connection ∧ w.Below root connection.block ∧ connection.error ≠ none

theorem not_errorFree_iff : ¬ w.ErrorFree root ↔ ∃ c connection, w.ErrorAt root c connection := by
  simp only [ErrorFree, ErrorAt, not_forall, exists_prop]

variable {v : Workspace} {es : List Equation} {c : ConnectionId} {connection : Connection}

/-- Every error is listed. -/
theorem mem_typeErrors (hc : w.connections[c]? = some connection)
    (herror : connection.error ≠ none) :
    c ∈ w.typeErrors.map Prod.fst := by
  obtain ⟨error, herror⟩ := Option.ne_none_iff_exists'.1 herror
  have hmem : (c, connection) ∈ w.connections.toList :=
    Std.ExtTreeMap.mem_toList_iff_getElem?_eq_some.2 hc
  exact List.mem_map.2 ⟨(c, error), List.mem_filterMap.2 ⟨_, hmem, by simp [herror]⟩, rfl⟩

/-- Errors are not forgotten when further equations are put up. -/
theorem Posed.errorAt (h : Posed es w v) (herror : w.ErrorAt root c connection) :
    ∃ new, v.ErrorAt root c new ∧ new.kind = connection.kind := by
  obtain ⟨hc, hb, herror⟩ := herror
  obtain ⟨new, hnew, hblock, hkind, -⟩ := h.retypes.sameGraph.connection hc
  refine ⟨new, ⟨hnew, by rw [h.retypes.sameGraph.below_eq, hblock]; exact hb, ?_⟩, hkind⟩
  rw [← slotError_eq hnew]
  rw [← slotError_eq hc] at herror
  exact (h.error c).2 (.inl herror)

/-- An error was there before, or stands where an equation was put up. -/
theorem Posed.errorAt_cases (h : Posed es w v) (herror : v.ErrorAt root c connection) :
    ∃ old, w.connections[c]? = some old ∧ old.block = connection.block ∧
      old.kind = connection.kind ∧ (w.ErrorAt root c old ∨ ∃ e ∈ es, e.socket = c) := by
  obtain ⟨hc, hb, herror⟩ := herror
  obtain ⟨old, hold, hblock, hkind, -⟩ := h.retypes.sameGraph.symm.connection hc
  refine ⟨old, hold, hblock, hkind, ?_⟩
  rw [← slotError_eq hc] at herror
  rw [h.retypes.sameGraph.below_eq] at hb
  rcases (h.error c).1 herror with herror | ⟨e, he, heq, -⟩
  · exact .inl ⟨hold, hblock ▸ hb, slotError_eq hold ▸ herror⟩
  · exact .inr ⟨e, he, heq⟩

/-- The first pass reports errors at sockets. -/
theorem Ready.kind_of_errorAt (hw : w.Ready root) (h : Posed (order.flatMap w.inputEquations) w v)
    (herror : v.ErrorAt root c connection) : connection.kind = .inputValue := by
  obtain ⟨old, hold, -, hkind, ⟨-, hb, herror⟩ | ⟨e, he, rfl⟩⟩ := h.errorAt_cases herror
  · exact absurd (hw.errorFree c old hold hb) herror
  · obtain ⟨x, -, he⟩ := List.mem_flatMap.1 he
    obtain ⟨socket, hsocket, -, hvalue⟩ := hw.inOrder.socket_of_inputEquations he
    cases hold.symm.trans hsocket
    exact hkind.symm.trans hvalue

/-- The second pass reports further errors at uses. -/
theorem InOrder.errorAt_of_uses (hw : w.InOrder)
    (h : Posed (order.flatMap fun b => (w.useEquation? b).toList) w v)
    (herror : v.ErrorAt root c connection) :
    (∃ old, w.ErrorAt root c old ∧ old.kind = connection.kind) ∨
      connection.kind = .output ∧ ∃ u, v.UseAt connection.block c u := by
  obtain ⟨old, hold, hblock, hkind, herror | ⟨e, he, rfl⟩⟩ := h.errorAt_cases herror
  · exact .inl ⟨old, herror, hkind⟩
  · obtain ⟨x, -, he⟩ := List.mem_flatMap.1 he
    have he := Option.mem_toList.1 he
    obtain ⟨output, houtput, rfl, hout⟩ := hw.socket_of_useEquation he
    cases hold.symm.trans houtput
    obtain ⟨u, hu, -⟩ := useEquation?_eq_some he
    exact .inr ⟨hkind.symm.trans hout, u, hblock ▸ h.retypes.sameGraph.useAt hu⟩

/-- **Conflicts are reported at uses.**  After a tree is inferred anew, whose blocks keep their
layout and whose uses of variables are bound within it, some socket of the tree has an error exactly
if the shapes of the blocks and the links between them cannot be typed, uses left aside.  Any other
connection of the tree with an error is the output of a use that is bound to a declaration. -/
theorem reinfer_blames_uses (hw : w.Reachable) (htyped : w.isTyped = true)
    (hroot : w.containsBlock root = true) (hkeeps : w.KeepsTree root) :
    ∃ ty w', w.reinfer root = .ok (ty, w') ∧
      ((∃ c connection, w'.ErrorAt root c connection ∧ connection.kind = .inputValue) ↔
        ¬ ∃ τ : Typing, τ.Coheres w root) ∧
      ∀ c connection, w'.ErrorAt root c connection → connection.kind = .inputValue ∨
        connection.kind = .output ∧ ∃ u, w'.UseAt connection.block c u := by
  have horder := hw.inOrder
  obtain ⟨block, hblock⟩ := containsBlock_iff.1 hroot
  obtain ⟨w1, done, base, hclear, hdone, hcleared⟩ :=
    exists_clearTypes horder htyped hblock hkeeps.layout
  have hsame := hcleared.retypes.sameGraph
  have hready := hcleared.ready horder hkeeps hdone
  have hblock1 : w1.blocks[root]? = some block := by rw [hsame.blocks, hblock]
  obtain ⟨order, v1, ty, v, hmem, hinputs, hfirst, hsecond, hinfer, -⟩ :=
    hready.poised.exists_passes (by rw [hcleared.retypes.rest]; exact htyped) hblock1
  simp only [← hfirst.toKeepsSlots.useEquation?] at hsecond
  have hfirstOrder : v1.InOrder := hready.inOrder.keeps hfirst.retypes.keeps
  refine ⟨ty, v, by simp [reinfer, hclear, hinfer], ?_, fun c connection herror => ?_⟩
  · rw [hcleared.coheres_iff horder hkeeps hdone]
    simp only [← hsame.below_eq]
    rw [← hready.errorFree_unifyInputs hblock1 hmem hinputs, not_errorFree_iff]
    constructor
    · rintro ⟨c, connection, herror, hkind⟩
      rcases hfirstOrder.errorAt_of_uses hsecond herror with ⟨old, hold, -⟩ | ⟨hout, -⟩
      · exact ⟨c, old, hold⟩
      · cases hkind.symm.trans hout
    · rintro ⟨c, old, hold⟩
      obtain ⟨new, hnew, hkind⟩ := hsecond.errorAt hold
      exact ⟨c, new, hnew, hkind.trans (hready.kind_of_errorAt hfirst hold)⟩
  · rcases hfirstOrder.errorAt_of_uses hsecond herror with ⟨old, hold, hkind⟩ | huse
    · exact .inl (hkind.symm.trans (hready.kind_of_errorAt hfirst hold))
    · exact .inr huse

/-- A function that applies its argument to itself could be typed but for its uses, and the error
stands at the second of them. -/
theorem reinfer_blames_uses_selfApplication : ∃ w ty w', selfApplication = .ok w ∧ w.KeepsTree ⟨1⟩ ∧
    w.reinfer ⟨1⟩ = .ok (ty, w') ∧ (∃ τ : Typing, τ.Coheres w ⟨1⟩) ∧
    ∃ connection, w'.ErrorAt ⟨1⟩ ⟨6⟩ connection ∧ connection.kind = .output ∧
      ∃ u, w'.UseAt connection.block ⟨6⟩ u := by
  obtain ⟨w, r, connection, hrun, htyped, hroot, hall, hr, hconnection, hbelow, herror, hout,
    hlisted⟩ := exists_selfApplication
  have hreachable := (Reachable.new {}).foldlM (by simp [Call.Permitted]) hrun
  obtain ⟨ty, w', hinfer, hiff, huses⟩ := reinfer_blames_uses hreachable htyped hroot hall.keepsTree
  cases hr.symm.trans hinfer
  have hat : w'.ErrorAt ⟨1⟩ ⟨6⟩ connection := ⟨hconnection, hbelow, herror⟩
  refine ⟨w, ty, w', hrun, hall.keepsTree, hinfer, ?_, connection, hat, hout, ?_⟩
  · by_contra hnone
    obtain ⟨c, socket, ⟨hc, -, hwrong⟩, hkind⟩ := hiff.2 hnone
    have hmem : c ∈ w'.typeErrors.map Prod.fst := mem_typeErrors hc hwrong
    rw [hlisted, List.mem_singleton] at hmem
    subst hmem
    cases hconnection.symm.trans hc
    cases hout.symm.trans hkind
  · rcases huses ⟨6⟩ connection hat with hin | ⟨-, huse⟩
    · cases hout.symm.trans hin
    · exact huse

end Workspace

end BlockGraph
