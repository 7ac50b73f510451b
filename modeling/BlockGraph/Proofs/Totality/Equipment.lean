import BlockGraph.Proofs.Scope.Forecast
import BlockGraph.Proofs.Upkeep.Tended
import BlockGraph.Proofs.Workspace.Making

/-!
# What a block needs to be typed

Giving a block the types of its kind looks up the inputs that the signature names, the items of a
list and the output.  `Block.Equipped` says that all of them are there; a block may well have more
inputs than that, and may lack others.

A tree of equipped blocks can be inferred (`exists_reinferTree_of_equipped`), and a tree that could
be brought up to date was one of equipped blocks (`equipped_of_refresh`).
-/

namespace BlockGraph

open Relation

namespace Block

variable {block b b' : Block} {name : String}

theorem takes_of_socket? {c : ConnectionId} (h : block.socket? name = some c)
    (hfitted : ∀ input ∈ block.inputs, input.slot.Fitted) : block.Takes name := by
  obtain ⟨input, hinput, hc⟩ := Option.bind_eq_some_iff.1 h
  refine ⟨input, hinput, fun hdummy => ?_⟩
  have hnone : input.connection = none :=
    (hfitted input (List.mem_of_find?_eq_some hinput)).2 hdummy
  rw [hc] at hnone
  cases hnone

theorem takes_of_innards (h : b'.innards = b.innards) : b'.Takes name ↔ b.Takes name := by
  have hfind : ∀ x : Block, (x.input? name).map (fun i => i.kind) =
      (x.essence.input? name).map fun i => i.kind := by
    intro x
    simp [input?, essence, List.find?_map, Function.comp_def, Input.essence]
  have hkinds : (b'.input? name).map (fun i => i.kind) = (b.input? name).map fun i => i.kind := by
    rw [hfind b', hfind b]
    simp only [input?, inputs_of_innards h]
  have hiff : ∀ x : Block, x.Takes name ↔
      ∃ kind, (x.input? name).map (fun i => i.kind) = some kind ∧ kind ≠ .dummy := by
    intro x
    simp [Takes]
  rw [hiff, hiff, hkinds]

theorem Equipped.of_innards (h : b'.innards = b.innards) (hb : b.Equipped) : b'.Equipped where
  inputs p hp := (takes_of_innards h).2 (hb.inputs p (by rwa [kind_of_innards h] at hp))
  items hitems name hname := (takes_of_innards h).2
    (hb.items (by rwa [kind_of_innards h] at hitems) name
      (by rwa [itemNames_of_innards h] at hname))
  output houtput := by
    rw [output_of_innards h]
    exact hb.output (by rwa [kind_of_innards h] at houtput)

end Block

namespace Workspace

variable {w w' v : Workspace} {b r : BlockId} {block : Block} {c : ConnectionId}
  {connection : Connection} {name : String}

/-! ## Giving types -/

namespace InOrder

variable (hw : w.InOrder)
include hw

/-- A block that was given types has all that they are given to. -/
theorem equipped_of_declareTypes (hblock : w.blocks[b]? = some block)
    (h : w.declareTypes b = .ok w') : block.Equipped := by
  rw [declareTypes_eq hblock] at h
  have hholder : ∀ {seat ty}, (seat, ty) ∈ block.grants → ∃ a, block.holder? seat = some a :=
      fun hg => by
    obtain ⟨v, v', hv, hstep⟩ := exists_step_of_foldlM (P := fun v => v.blocks = w.blocks)
      (fun _ _ _ _ hv hstep => (retypes_grant hstep).sameGraph.blocks.trans hv) rfl h hg
    obtain ⟨a, ha, -⟩ := (grant_eq_ok (by rw [hv, hblock])).1 hstep
    exact ⟨a, ha⟩
  have htakes : ∀ {name ty}, (.input name, ty) ∈ block.grants → block.Takes name := fun hg => by
    obtain ⟨a, ha⟩ := hholder hg
    obtain ⟨c, hc, -⟩ := Option.map_eq_some_iff.1 ha
    exact Block.takes_of_socket? hc (hw.fitted hblock)
  refine ⟨fun p hp => ?_, fun hitems name hname => ?_, fun houtput => ?_⟩
  · exact htakes (Block.mem_grants.2 (.inr (.inl ⟨_, rfl, .inl hp⟩)))
  · obtain ⟨ty, hty⟩ := Option.isSome_iff_exists.1 hitems
    exact htakes (Block.mem_grants.2 (.inr (.inl ⟨_, rfl, .inr ⟨hty, hname⟩⟩)))
  · rw [← Kind.isSome_output] at houtput
    obtain ⟨ty, hty⟩ := Option.isSome_iff_exists.1 houtput
    obtain ⟨a, ha⟩ := hholder (Block.mem_grants.2 (.inr (.inr ⟨rfl, hty⟩)))
    exact Option.isSome_map.symm.trans (Option.isSome_of_eq_some ha)

/-- An equipped block can be given the types of its kind. -/
theorem exists_declareTypes (ho : w.Owned) (hblock : w.blocks[b]? = some block)
    (h : block.Equipped) : ∃ w', w.declareTypes b = .ok w' := by
  have hown : block.kind.isBinder = true → ∃ v found, block.own? = some v ∧
      w.vars[v]? = some found ∧ (found.isReference = true ↔ block.kind = .variablesGet) := by
    intro hkind
    obtain ⟨v, hv⟩ := Option.isSome_iff_exists.1 ((ho.tidy hblock).own.2 (.inl hkind))
    obtain ⟨found, hfound, -, hreference⟩ := ho.var hblock hv
    exact ⟨v, found, hv, hfound, hreference⟩
  obtain ⟨w', hrun, -⟩ :=
    Workspace.exists_grants
      (w := { w with types := (w.types.freshMany block.kind.signature.fresh).2 }) block.grants
      (instantiate w.types.size) hblock fun g hg => hw.exists_holder hblock h hown hg
  exact ⟨w', (declareTypes_eq hblock).trans hrun⟩

/-- A block can be made under a number that is not in use. -/
theorem exists_newBlockWithId (ho : w.Owned) (hnone : w.blocks[b]? = none) (kind : Kind) :
    ∃ w', w.newBlockWithId kind b = .ok w' := by
  obtain ⟨w1, block, hlayout, h⟩ :=
    Making.exists_layout hw ho.counted hnone kind (max w.nextBlock (b.index + 1))
  obtain ⟨w2, htypes⟩ : ∃ w2, w1.declareTypesIfTyped b = .ok w2 := by
    unfold declareTypesIfTyped
    split
    · exact h.inOrder.exists_declareTypes (h.owned ho) h.lookup h.laid.equipped
    · exact ⟨w1, rfl⟩
  refine ⟨w2.fire (.create b kind), ?_⟩
  simp only [Workspace.newBlockWithId, containsBlock_eq_false_iff.2 hnone, require, Bool.not_false,
    if_true, ok_bind, hlayout, htypes]
  rfl

end InOrder

/-! ## Clearing a tree -/

/-- A workspace whose blocks are those of another, in the course of an inference. -/
structure Retyping (w v : Workspace) : Prop where
  retypes : Retypes w v
  inOrder : v.InOrder
  owned : v.Owned

theorem Retyping.start (hw : w.InOrder) (ho : w.Owned) : Retyping w w := ⟨.refl w, hw, ho⟩

theorem Retyping.step (h : Retyping w v) (hr : Retypes v w') : Retyping w w' :=
  ⟨h.retypes.trans hr, h.inOrder.keeps hr.keeps, h.owned.keeps hr.keepsInnards⟩

theorem Retyping.lookup (h : Retyping w v) (hblock : w.blocks[b]? = some block) :
    v.blocks[b]? = some block := by
  rw [h.retypes.sameGraph.blocks, hblock]

theorem Retyping.exists_clearBlock (h : Retyping w v) (hblock : w.blocks[b]? = some block)
    (hequipped : block.Equipped) : ∃ v', v.clearBlock b = .ok v' := by
  have hcleared := h.step (retypes_clearConnections block.connections v)
  obtain ⟨v', hv'⟩ := hcleared.inOrder.exists_declareTypes hcleared.owned
    (hcleared.lookup hblock) hequipped
  exact ⟨v', by simp only [clearBlock, getBlock_eq_ok.2 (h.lookup hblock), ok_bind, hv']⟩

theorem exists_clearBlocks (hw : w.InOrder) (ho : w.Owned) (order : List BlockId)
    (hlive : ∀ b ∈ order, ∃ block, w.blocks[b]? = some block ∧ block.Equipped) :
    ∃ w', order.foldlM clearBlock w = .ok w' := by
  have hstep : ∀ b ∈ order, ∀ v, Retyping w v → ∃ v', v.clearBlock b = .ok v' ∧ Retyping w v' := by
    intro b hb v hv
    obtain ⟨block, hblock, hequipped⟩ := hlive b hb
    obtain ⟨v', hv'⟩ := hv.exists_clearBlock hblock hequipped
    exact ⟨v', hv', hv.step (retypes_clearBlock hv')⟩
  obtain ⟨w', hw', -⟩ := exists_foldlM hstep (.start hw ho)
  exact ⟨w', hw'⟩

/-! ## Solving a tree -/

/-- A tree of equipped blocks, whose uses are bound within the tree, can be inferred. -/
theorem exists_reinferTree_of_equipped (hw : w.InOrder) (ho : w.Owned) (htyped : w.isTyped = true)
    (hblock : w.blocks[r]? = some block) (hlocal : w.Local r)
    (hequipped : ∀ {b : BlockId} {block : Block}, w.Below r b → w.blocks[b]? = some block →
      block.Equipped) :
    ∃ w', w.reinferTree r = .ok w' := by
  obtain ⟨order, horder, -, hmem⟩ := hw.exists_descendants hblock
  obtain ⟨v, hv⟩ := exists_clearBlocks hw ho order fun b hb => by
    obtain ⟨found, hfound⟩ := ((hmem b).1 hb).live hblock
    exact ⟨found, hfound, hequipped ((hmem b).1 hb) hfound⟩
  have hr : Retypes w v := .of_foldlM (fun _ _ _ => retypes_clearBlock) hv
  have hretyping := (Retyping.start hw ho).step hr
  rw [clearBlock_eq] at hv
  obtain ⟨y, f, S, -, hmirror⟩ := (Twins.mk hw hw ho ho (.refl _ w r)).exists_renewed hblock horder
    (fun h => by cases h) (fun _ _ => .inr ⟨rfl, .inl rfl⟩) hv
  have haskable := hmirror.askable (fun _ ha => hr.sameGraph.symm.holderIn ha)
    (Local.same hlocal (hr.sameGraph.same (by rw [hr.rest]) r) ho hretyping.owned)
  obtain ⟨order', ty, w', -, hinfer, -⟩ :=
    haskable.exists_infer (by rw [isTyped, hr.rest]; exact htyped) (hretyping.lookup hblock)
  exact ⟨w', by simp [reinferTree, reinfer, clearTypes, htyped, horder, clearBlock_eq, hv, hinfer]⟩

/-! ## What a refresh shows -/

/-- A tree that could be inferred consists of equipped blocks. -/
theorem InOrder.equipped_of_reinferTree (hw : w.InOrder) (htyped : w.isTyped = true) {root : Block}
    (hroot : w.blocks[r]? = some root) (h : w.reinferTree r = .ok w') (hb : w.Below r b)
    (hblock : w.blocks[b]? = some block) : block.Equipped := by
  obtain ⟨order, horder, -, hmem⟩ := hw.exists_descendants hroot
  simp only [reinferTree, reinfer, clearTypes, htyped, Bool.not_true, Bool.false_eq_true, if_false,
    horder, ok_bind, bind_eq_ok] at h
  obtain ⟨-, ⟨v, hclear, -⟩, -⟩ := h
  have hlive : ∀ {y}, Retypes w y → y.blocks[b]? = some block := fun hy => by
    rw [hy.sameGraph.blocks, hblock]
  obtain ⟨y, y', hy, hrun⟩ := exists_step_of_foldlM (P := Retypes w)
    (fun _ _ _ _ hx hstep => hx.trans (retypes_clearBlock hstep)) (.refl w) hclear ((hmem b).2 hb)
  simp only [clearBlock, getBlock_eq_ok.2 (hlive hy), ok_bind] at hrun
  have hwiped := hy.trans (retypes_clearConnections block.connections y)
  exact (hw.keeps hwiped.keeps).equipped_of_declareTypes (hlive hwiped) hrun

/-- Blocks of a tree that could be brought up to date are equipped. -/
theorem InOrder.equipped_of_refresh (hw : w.InOrder) (htyped : w.isTyped = true) {bs : List BlockId}
    (h : w.refresh bs = .ok w') {a : BlockId} (ha : a ∈ bs) (hr : r ∈ w.top) (hra : w.Below r a)
    (hb : w.Below r b) (hblock : w.blocks[b]? = some block) : block.Equipped := by
  rcases refresh_cases h with ⟨huntyped, -⟩ | ⟨-, roots, w1, hroots, hrefresh, -⟩
  · rw [htyped] at huntyped
    cases huntyped
  · have hmem : r ∈ roots := ((hw.rootsOf_spec hroots List.nodup_nil).2 r).2 (.inr ⟨hr, a, ha, hra⟩)
    obtain ⟨y, y', hy, hrun⟩ := exists_step_of_foldlM (P := Retouches w)
      (fun _ _ _ _ hx hstep => hx.trans (retouches_refreshTree hstep)) (.refl w) hrefresh hmem
    simp only [refreshTree, bind_eq_ok] at hrun
    obtain ⟨⟨all, z⟩, hresolve, hrun⟩ := hrun
    have hz : Retouches w z := hy.trans (retouches_resolveReferences hresolve)
    have htyped' : z.isTyped = true := by
      rw [isTyped, hz.rest]
      exact htyped
    have hblocks : z.blocks = w.blocks := by rw [hz.rest]
    obtain ⟨root, hroot⟩ := hw.live_of_top hr
    exact (hw.keeps hz.keeps).equipped_of_reinferTree htyped' (by rw [hblocks, hroot]) hrun
      (hz.keeps.below_iff.2 hb) (by rw [hblocks, hblock])

end Workspace

end BlockGraph
