import BlockGraph.Proofs.Workspace.Links

/-!
# Disposal and changes of inputs keep a workspace in order

A block is released in many steps: it is parted from its parent, its connections are freed one by
one, and then the block itself goes.  Only a free connection can be disposed of, so a block that is
released at all has no child left; to the skeleton the steps after the parting are one removal
(`Skeleton.removeBlock`).  In the same way an input and its connection go together.
-/

namespace BlockGraph

variable {b : BlockId} {heal : Bool} {input : Input} {source target index : Nat} {block : Block}

namespace Skeleton

/-- Frees some connections that are joined to nothing. -/
def freeAll (s : Skeleton) (cs : List ConnectionId) : Skeleton :=
  { s with
    joint := fun c => if c ∈ cs then none else s.joint c
    free := fun c => if c ∈ cs then false else s.free c }

theorem freeAll_nil (s : Skeleton) : s.freeAll [] = s := by
  simp [freeAll]

theorem freeAll_singleton (s : Skeleton) (b : BlockId) (f : Frame) (c : ConnectionId) :
    (s.setFrame b (some f)).freeAll [c] = s.removePlace b f c := by
  refine Skeleton.ext rfl (funext fun d => ?_) (funext fun d => ?_) rfl rfl
  · simp [freeAll, setFrame, removePlace, Function.update_apply]
  · simp [freeAll, setFrame, removePlace, Function.update_apply]

end Skeleton

/-- The places of a block are those of one input and those of the others. -/
theorem Block.perm_places_eraseIdx
    (hinput : block.inputs[index]? = some input) :
      block.frame.places.Perm (input.slot.place?.toList ++
        { block with inputs := block.inputs.eraseIdx index }.frame.places) := by
  obtain ⟨hlt, hget⟩ := List.getElem?_eq_some_iff.1 hinput
  have hinputs : block.inputs.Perm (input :: block.inputs.eraseIdx index) := by
    rw [← hget]
    exact (List.getElem_cons_eraseIdx_perm hlt).symm
  refine Frame.places_slots { block with inputs := block.inputs.eraseIdx index }.frame _
    block.frame.slots ?_
  refine ((hinputs.map Input.slot).filterMap Slot.place?).trans ?_
  rw [List.map_cons, List.filterMap_cons]
  cases input.slot.place? <;> exact List.Perm.refl _

namespace Workspace

variable {w w' : Workspace}

/-! ## Connections -/

theorem skeleton_disposeConnection {c : ConnectionId} (h : w.disposeConnection c = .ok w') :
    (∃ j, w.skeleton.joint c = some j ∧ j.target = none) ∧
      w'.skeleton = (w.skeleton.setFree c false).setJoint c none ∧ w'.types = w.types := by
  simp only [disposeConnection, bind_eq_ok, getConnection_eq_ok, require_eq_ok] at h
  obtain ⟨connection, hc, _, hfree, h⟩ := h
  cases h
  refine ⟨⟨connection.joint, joint_of_connection hc, Option.isNone_iff_eq_none.1 hfree⟩, ?_, rfl⟩
  rw [skeleton_eraseConnection, skeleton_unregister]

/-- Connections that can be disposed of are joined to nothing, and are gone afterwards. -/
theorem skeleton_disposeConnections {cs : List ConnectionId} :
    ∀ {w w' : Workspace}, cs.foldlM disposeConnection w = .ok w' →
      (∀ c ∈ cs, ∀ j, w.skeleton.joint c = some j → j.target = none) ∧
        w'.skeleton = w.skeleton.freeAll cs ∧ w'.types = w.types := by
  induction cs with
  | nil =>
    intro w w' h
    cases h
    exact ⟨by simp, (Skeleton.freeAll_nil _).symm, rfl⟩
  | cons c cs ih =>
    intro w w' h
    rw [List.foldlM_cons, bind_eq_ok] at h
    obtain ⟨w1, h1, h⟩ := h
    obtain ⟨⟨j0, hj0, hnone⟩, hskel1, htypes1⟩ := skeleton_disposeConnection h1
    obtain ⟨hfree, hskel, htypes⟩ := ih h
    refine ⟨fun d hd j hj => ?_, ?_, htypes.trans htypes1⟩
    · by_cases hdc : d = c
      · rw [hdc, hj0] at hj
        cases hj
        exact hnone
      · refine hfree d ((List.mem_cons.1 hd).resolve_left hdc) j ?_
        rw [hskel1]
        simpa [Skeleton.setJoint, Skeleton.setFree, Function.update_apply, hdc] using hj
    · rw [hskel, hskel1]
      refine Skeleton.ext rfl (funext fun d => ?_) (funext fun d => ?_) rfl rfl
      · by_cases hdc : d = c <;> simp [Skeleton.freeAll, Skeleton.setJoint, Skeleton.setFree,
          Function.update_apply, hdc]
      · by_cases hdc : d = c <;> simp [Skeleton.freeAll, Skeleton.setJoint, Skeleton.setFree,
          Function.update_apply, hdc]

/-! ## Blocks -/

theorem InOrder.sever (hw : w.InOrder) (h : w.sever b = .ok w') : w'.InOrder := by
  rcases sever_cases h with ⟨-, rfl⟩ | ⟨-, c, joined, -, -, hunlink⟩
  · exact hw
  · exact hw.unlink hunlink

/-- Once it is parted from its parent, a block goes in one change of the skeleton. -/
theorem skeleton_release (h : w.release b = .ok w') :
    ∃ w1 block, w.sever b = .ok w1 ∧ w1.blocks[b]? = some block ∧
      (∀ c ∈ block.frame.connections, ∀ j, w1.skeleton.joint c = some j → j.target = none) ∧
      w'.skeleton = w1.skeleton.removeBlock b block.frame.connections ∧
      (w1.types.Sound → w'.types.Sound) := by
  simp only [Workspace.release, bind_eq_ok, getBlock_eq_ok] at h
  obtain ⟨w1, h1, block, hblock, w2, h2, w3, h3, h⟩ := h
  cases h
  obtain ⟨hfree, hskel2, htypes2⟩ := skeleton_disposeConnections h2
  have hkeeps : Keeps w2 w3 := .of_foldlM (fun _ _ _ => keeps_disposeVariable) h3
  refine ⟨w1, block, h1, hblock, ?_, ?_, fun hsound => hkeeps.sound (htypes2 ▸ hsound)⟩
  · rw [Block.connections_frame]
    exact hfree
  · rw [skeleton_eraseBlock, skeleton_removeTop, hkeeps.skeleton_eq, hskel2,
      Block.connections_frame]
    rfl

theorem InOrder.release (hw : w.InOrder) (h : w.release b = .ok w') : w'.InOrder := by
  obtain ⟨w1, block, h1, hblock, hfree, hskel, hsound⟩ := skeleton_release h
  have hw1 := hw.sever h1
  refine ⟨?_, ?_, hsound hw1.sound⟩
  · rw [hskel]
    exact hw1.formed.removeBlock (frame_of_block hblock) hfree
  · rw [hskel]
    exact hw1.checked.of_sameJoined hw1.formed.wired (Skeleton.sameJoined_removeBlock hfree)

theorem checkClosed_inOrder : CheckClosed InOrder where
  refresh hw h := hw.keeps (keeps_refresh h)
  join hw hgate _ _ horient h := by
    obtain ⟨i, o, socket, plug, horient', hpair, hcheck, hcycle⟩ := hw.linkable hgate
    cases horient.symm.trans horient'
    exact hw.link hpair hcheck hcycle h
  part hw h := hw.unlink h
  recheck hw hc h hpass := hw.recheck hc h hpass
  expel hw h1 h := by
    obtain ⟨connection, hc, rfl⟩ := modifyConnection_eq_ok.1 h1
    exact (hw.unlink_recheck hc h).2
  heal hw habove _ h := hw.unplugHealing habove h
  erase hw h := by
    have hreleased := foldlM_induction (fun _ _ _ _ hv hstep => InOrder.release hv hstep) hw h
    exact hreleased.keeps (.of_fire _ _)

theorem InOrder.unplug (hw : w.InOrder) (h : w.unplug b heal = .ok w') :
    w'.InOrder := checkClosed_inOrder.unplug hw h

/-! ## Inputs -/

/-- An input and its connection go in one change of the skeleton. -/
theorem InOrder.dropInput (hw : w.InOrder) (hblock : w.blocks[b]? = some block)
    (hinput : block.inputs[index]? = some input) {w1 w2 : Workspace}
    (h1 : w.modifyBlock b (fun block => { block with inputs := block.inputs.eraseIdx index }) =
      .ok w1)
    (h2 : Keeps w1 w2) (h3 : input.connection.toList.foldlM disposeConnection w2 = .ok w') :
    w'.InOrder := by
  obtain ⟨block', hblock', rfl⟩ := modifyBlock_eq_ok.1 h1
  rw [hblock] at hblock'
  cases hblock'
  have hf := frame_of_block hblock
  have hwired := hw.formed.wired
  obtain ⟨hfree, hskel, htypes⟩ := skeleton_disposeConnections h3
  have hskel2 := h2.skeleton_eq
  rw [skeleton_insertBlock] at hskel2
  rw [hskel2] at hskel hfree
  have hsound : w'.types.Sound := htypes ▸ h2.sound hw.sound
  have hperm := Block.perm_places_eraseIdx hinput
  have hfit : ∀ x ∈ (block.inputs.eraseIdx index).map Input.slot, x.Fitted := by
    intro x hx
    obtain ⟨i, hi, rfl⟩ := List.mem_map.1 hx
    exact hwired.fitted hf _ (List.mem_map.2 ⟨i, List.mem_of_mem_eraseIdx hi, rfl⟩)
  have hplace : input.slot.place?.map Prod.fst = input.connection := Frame.map_fst_place?
      (hwired.fitted hf _ (List.mem_map.2 ⟨input, List.mem_of_getElem? hinput, rfl⟩))
  cases hc : input.connection with
  | none =>
    rw [hc, Option.map_eq_none_iff] at hplace
    rw [hc, Option.toList_none, Skeleton.freeAll_nil] at hskel
    rw [hplace] at hperm
    refine ⟨?_, ?_, hsound⟩
    · rw [hskel]
      exact hw.formed.reframe hf hperm.symm rfl hfit (hw.stem hblock)
    · rw [hskel]
      exact hw.checked
  | some c =>
    rw [hc, Option.map_eq_some_iff] at hplace
    obtain ⟨⟨_, k⟩, hplace, rfl⟩ := hplace
    rw [hc, Option.toList_some] at hskel hfree
    rw [Skeleton.freeAll_singleton] at hskel
    rw [hplace] at hperm
    have hnone := hfree _ List.mem_cons_self
    refine ⟨?_, ?_, hsound⟩
    · rw [hskel]
      exact hw.formed.removePlace hf hnone hperm rfl hfit (hw.stem hblock)
    · rw [hskel]
      exact hw.checked.of_sameJoined hwired (Skeleton.sameJoined_removePlace hnone)

theorem keeps_extendFields {fields : List FieldDescriptor} {errors : List DescriptorError}
    (h : w.extendFields b index fields = .ok (errors, w')) : Keeps w w' :=
  extendFields_induction (fun _ _ _ _ _ _ hkeeps hrun => hkeeps.trans (keeps_appendField hrun))
    (.refl w) h

theorem inputClosed_inOrder : InputClosed InOrder where
  toCheckClosed := checkClosed_inOrder
  appendInput hw h := hw.appendInput h
  extend hw h1 h := (hw.appendInput h1).keeps (keeps_extendFields h)
  dropInput {w w1 w2 w' b block index} hw hblock h1 h2 h := by
    have hkeeps : Keeps w1 w2 := .of_foldlM (fun _ _ _ => keeps_disposeVariable) h2
    cases hinput : block.inputs[index]? with
    | some input =>
      rw [hinput] at h
      exact hw.dropInput hblock hinput h1 hkeeps h
    | none =>
      rw [hinput] at h
      cases h
      have hsame : Keeps w w1 := by
        refine .of_modifyBlock h1 fun block' hblock' => ?_
        cases hblock.symm.trans hblock'
        rw [List.eraseIdx_of_length_le (List.getElem?_eq_none_iff.1 hinput)]
      exact (hw.keeps hsame).keeps hkeeps

theorem InOrder.moveNumberedInput (hw : w.InOrder)
    (h : w.moveNumberedInput b source target = .ok w') : w'.InOrder := by
  obtain ⟨block, inputs, hblock, hperm, rfl⟩ := moveNumberedInput_cases h
  have hf := frame_of_block hblock
  refine ⟨?_, hw.checked, hw.sound⟩
  rw [skeleton_insertBlock]
  refine hw.formed.reframe hf ?_ rfl ?_ (hw.stem hblock)
  · exact Frame.places_slots block.frame [] _ ((hperm.map Input.slot).filterMap Slot.place?)
  · intro x hx
    exact hw.formed.wired.fitted hf x ((hperm.map Input.slot).mem_iff.1 hx)

theorem InOrder.moveInput (hw : w.InOrder) {name : String} {before : Option String}
    (h : w.moveInput b name before = .ok w') : w'.InOrder := by
  rcases moveInput_cases h with rfl | ⟨source, target, h⟩
  · exact hw
  · exact hw.moveNumberedInput h

end Workspace

end BlockGraph
