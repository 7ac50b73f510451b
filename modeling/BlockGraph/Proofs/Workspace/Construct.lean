import BlockGraph.Proofs.Workspace.Order

/-!
# Construction keeps a workspace in order

Making a connection and entering it at its block is one change of the skeleton (`skeleton_create`):
between the two the connection is listed nowhere.  From it follow the operations that make
connections and inputs, and from these the construction of whole blocks.

An output, a previous or a next connection may be declared only where there is none yet; a second
declaration would leave the first connection without a place.
-/

namespace BlockGraph

variable {b id : BlockId} {check : Check} {f : Frame} {kind : InputKind} {g : Block → Block}

/-! ## Frames with one more place -/

namespace Frame

open List

theorem places_output (h : f.output = none) (c : ConnectionId) :
    ({ f with output := some c } : Frame).places ~ (c, .output) :: f.places := by
  simp [places, h]

theorem places_previous (h : f.previous = none) (c : ConnectionId) :
    ({ f with previous := some c } : Frame).places ~ (c, .previousStatement) :: f.places := by
  simp only [places, h, Option.toList_none, Option.toList_some, map_nil, map_cons, append_nil,
    append_assoc, singleton_append]
  exact perm_middle

theorem places_next (h : f.next = none) (c : ConnectionId) :
    ({ f with next := some c } : Frame).places ~ (c, .nextStatement) :: f.places := by
  simp only [places, h, Option.toList_none, Option.toList_some, map_nil, map_cons, append_nil]
  exact perm_append_singleton _ _

/-- Replacing the slots changes only their part of the places. -/
theorem places_slots (f : Frame) (added : List (ConnectionId × ConnectionKind)) (slots : List Slot)
    (h : slots.filterMap Slot.place? ~ added ++ f.slots.filterMap Slot.place?) :
    ({ f with slots } : Frame).places ~ added ++ f.places := by
  simp only [places, append_assoc]
  refine ((h.append_right _).append_left _).append_left _ |>.trans ?_
  simp only [append_assoc]
  refine (perm_append_comm_assoc _ _ _).symm.append_left _ |>.symm.trans ?_
  exact (perm_append_comm_assoc _ _ _)

/-- A frame with one more place, otherwise as it was. -/
structure Gains (f f' : Frame) (c : ConnectionId) (k : ConnectionKind) : Prop where
  places : f'.places ~ (c, k) :: f.places
  family : Skeleton.family f' = Skeleton.family f
  fitted : (∀ x ∈ f.slots, x.Fitted) → ∀ x ∈ f'.slots, x.Fitted
  stem : f'.output = none ∨ f'.previous = none

theorem gains_output (hout : f.output = none) (hprev : f.previous = none)
    (c : ConnectionId) : f.Gains { f with output := some c } c .output :=
  ⟨places_output hout c, rfl, fun h => h, Or.inr hprev⟩

theorem gains_previous (hprev : f.previous = none) (hout : f.output = none)
    (c : ConnectionId) : f.Gains { f with previous := some c } c .previousStatement :=
  ⟨places_previous hprev c, rfl, fun h => h, Or.inl hout⟩

theorem gains_next (hnext : f.next = none) (hstem : f.output = none ∨ f.previous = none)
    (c : ConnectionId) : f.Gains { f with next := some c } c .nextStatement :=
  ⟨places_next hnext c, rfl, fun h => h, hstem⟩

theorem gains_slot (hstem : f.output = none ∨ f.previous = none) {x : Slot} {c : ConnectionId}
    {k : ConnectionKind} (hx : x.place? = some (c, k)) (hfit : x.Fitted) :
    f.Gains { f with slots := f.slots ++ [x] } c k := by
  refine ⟨f.places_slots [(c, k)] _ ?_, rfl, fun h y hy => ?_, hstem⟩
  · simp only [filterMap_append, filterMap_cons, hx, filterMap_nil]
    exact perm_append_singleton _ _
  · rcases mem_append.1 hy with hy | hy
    · exact h y hy
    · rw [mem_singleton.1 hy]
      exact hfit

end Frame

namespace Workspace

variable {w w' : Workspace} {name : String} {block : Block} {index : Nat}

/-! ## Making a connection -/

/-- Making a connection and entering it at its block is one change of the skeleton. -/
theorem skeleton_create {kind : ConnectionKind}
    (h : (w.createConnection b kind check).2.modifyBlock b g = .ok w') :
      ∃ block, w.blocks[b]? = some block ∧
      w'.skeleton = w.skeleton.addPlace b (g block).frame ⟨w.connectionCount⟩ ⟨b, kind, check,
        none⟩ ∧ (w.types.Sound → w'.types.Sound) := by
  obtain ⟨block, hblock, rfl⟩ := modifyBlock_eq_ok.1 h
  refine ⟨block, hblock, ?_, fun ht => ?_⟩
  · rw [skeleton_insertBlock]
    refine Skeleton.ext rfl (funext fun c => ?_) (funext fun c => ?_) rfl rfl
    · simp only [skeleton, createConnection, Skeleton.setFrame, Skeleton.addPlace,
        getElem?_insert_eq, Function.update_apply]
      split <;> rfl
    · simp only [skeleton, createConnection, Skeleton.setFrame, Skeleton.addPlace,
        Registry.contains_register, Function.update_apply]
  · simp only [createConnection]
    split
    · exact ht.fresh
    · exact ht

namespace InOrder

variable (hw : w.InOrder)
include hw

/-- A new connection at a new place keeps the workspace in order. -/
theorem create {kind : ConnectionKind}
    (h : (w.createConnection b kind check).2.modifyBlock b g = .ok w')
    (hgains : ∀ block, w.blocks[b]? = some block →
      block.frame.Gains (g block).frame ⟨w.connectionCount⟩ kind) :
    w'.InOrder ∧ ∃ block, w.blocks[b]? = some block ∧
    w'.skeleton.frame b = some (g block).frame := by
  obtain ⟨block, hblock, hskel, hsound⟩ := skeleton_create h
  have hf := frame_of_block hblock
  have hg := hgains block hblock
  have hwired := hw.formed.wired
  refine ⟨⟨?_, ?_, hsound hw.sound⟩, block, hblock, ?_⟩
  · rw [hskel]
    exact hw.formed.addPlace hf rfl rfl rfl hg.places hg.family
      (hg.fitted (hwired.fitted hf)) hg.stem
  · rw [hskel]
    exact hw.checked.of_sameJoined hwired (Skeleton.sameJoined_addPlace hwired rfl rfl)
  · rw [hskel]
    exact Function.update_self ..

theorem stem (hblock : w.blocks[b]? = some block) : block.output = none ∨ block.previous = none :=
  hw.formed.wired.stem (frame_of_block hblock)

theorem declareOutput (hnone : ∀ block, w.blocks[b]? = some block → block.output = none)
    (h : w.declareOutput b check = .ok w') : w'.InOrder := by
  simp only [Workspace.declareOutput, bind_eq_ok, getBlock_eq_ok, require_eq_ok] at h
  obtain ⟨block, hblock, -, hprev, h⟩ := h
  refine (hw.create h fun block' hblock' => ?_).1
  rw [hblock] at hblock'
  cases hblock'
  exact Frame.gains_output (hnone block hblock) (Option.isNone_iff_eq_none.1 hprev) _

theorem declarePrevious (hnone : ∀ block, w.blocks[b]? = some block → block.previous = none)
    (h : w.declarePrevious b check = .ok w') :
    w'.InOrder ∧ ∃ block block', w.blocks[b]? = some block ∧ w'.blocks[b]? = some block' ∧
      block'.next = block.next := by
  simp only [Workspace.declarePrevious, bind_eq_ok, getBlock_eq_ok, require_eq_ok] at h
  obtain ⟨block, hblock, -, hout, h⟩ := h
  obtain ⟨hw', block1, hblock1, hframe⟩ := hw.create h fun block' hblock' => by
    rw [hblock] at hblock'
    cases hblock'
    exact Frame.gains_previous (hnone block hblock) (Option.isNone_iff_eq_none.1 hout) _
  obtain ⟨block2, hblock2, heq⟩ := frame_eq_some_iff.1 hframe
  exact ⟨hw', block1, block2, hblock1, hblock2, congrArg Frame.next heq⟩

theorem declareNext (hnone : ∀ block, w.blocks[b]? = some block → block.next = none)
    (h : w.declareNext b check = .ok w') : w'.InOrder :=
  (hw.create h fun block hblock =>
    Frame.gains_next (hnone block hblock) (hw.stem hblock) _).1

/-! ## Inputs -/

/-- Entering an input whose socket has just been made. -/
theorem enterInput (h : (w.createSocket b kind check).2.modifyBlock b (fun block => { block with
      inputs := block.inputs ++ [{ name, kind, connection := (w.createSocket b kind check).1 }] }) =
        .ok w') : w'.InOrder := by
  cases kind with
  | value =>
    refine (hw.create h fun block hblock => ?_).1
    simpa [Block.frame, createSocket, createConnection, Input.slot] using
      Frame.gains_slot (f := block.frame) (hw.stem hblock)
        (x := ⟨name, .value, some ⟨w.connectionCount⟩⟩) rfl (by simp [Slot.Fitted])
  | statement =>
    refine (hw.create h fun block hblock => ?_).1
    simpa [Block.frame, createSocket, createConnection, Input.slot] using
      Frame.gains_slot (f := block.frame) (hw.stem hblock)
        (x := ⟨name, .statement, some ⟨w.connectionCount⟩⟩) rfl (by simp [Slot.Fitted])
  | dummy =>
    obtain ⟨block, hblock, rfl⟩ := modifyBlock_eq_ok.1 h
    have hf := frame_of_block hblock
    refine ⟨?_, hw.checked, hw.sound⟩
    rw [skeleton_insertBlock]
    refine hw.formed.reframe hf ?_ rfl ?_ (hw.stem hblock)
    · simp [Block.frame, Frame.places, Input.slot, Slot.place?, List.filterMap_cons]
    · intro x hx
      simp only [Block.frame, List.map_append, List.mem_append, List.map_cons, List.map_nil,
        List.mem_singleton] at hx
      rcases hx with hx | rfl
      · exact hw.formed.wired.fitted hf x hx
      · simp [Input.slot, Slot.Fitted, createSocket]

end InOrder

theorem blocks_createSocket (w : Workspace) (b : BlockId) (kind : InputKind) (check : Check) :
    (w.createSocket b kind check).2.blocks = w.blocks := by
  cases kind <;> rfl

/-- What appending an input does: its socket is made, and it is entered behind the others. -/
theorem appendInput_cases (h : w.appendInput b kind name check = .ok (index, w')) :
    ∃ block, w.blocks[b]? = some block ∧ index = block.inputs.length ∧
      (name.isEmpty = false → block.input? name = none) ∧
      (w.createSocket b kind check).2.modifyBlock b (fun block => { block with
        inputs := block.inputs ++ [{ name, kind, connection := (w.createSocket b kind check).1 }]
          }) = .ok w' := by
  simp only [appendInput] at h
  split at h
  · simp only [bind_eq_ok, getBlock_eq_ok, require_eq_ok, blocks_createSocket] at h
    obtain ⟨block, hblock, _, hnone, block', hblock', w1, hmodify, h⟩ := h
    cases hblock.symm.trans hblock'
    cases h
    exact ⟨block, hblock, rfl, fun _ => Option.isNone_iff_eq_none.1 hnone, hmodify⟩
  · rename_i hempty
    simp only [bind_eq_ok, getBlock_eq_ok, blocks_createSocket] at h
    obtain ⟨block, hblock, w1, hmodify, h⟩ := h
    cases h
    exact ⟨block, hblock, rfl, fun hfalse => by simp [hfalse] at hempty, hmodify⟩

theorem InOrder.appendInput (hw : w.InOrder)
    (h : w.appendInput b kind name check = .ok (index, w')) : w'.InOrder := by
  obtain ⟨-, -, -, -, hmodify⟩ := appendInput_cases h
  exact hw.enterInput hmodify

theorem InOrder.appendPlannedInput (hw : w.InOrder) {plan : Kind.InputPlan}
    (h : w.appendPlannedInput b plan = .ok w') : w'.InOrder := by
  simp only [Workspace.appendPlannedInput, bind_eq_ok] at h
  obtain ⟨⟨index, w1⟩, h1, h⟩ := h
  exact (hw.appendInput h1).keeps (.of_foldlM (fun _ _ _ => keeps_appendPlannedField) h)

/-! ## Blocks -/

theorem InOrder.applyStem (hw : w.InOrder) {stem : Kind.Stem} (hblock : w.blocks[b]? = some block)
    (hout : block.output = none) (hprev : block.previous = none) (hnext : block.next = none)
    (h : w.applyStem b stem = .ok w') : w'.InOrder := by
  have honly : ∀ block', w.blocks[b]? = some block' → block' = block := by
    intro block' hblock'
    rw [hblock] at hblock'
    cases hblock'
    rfl
  cases stem with
  | output check => exact hw.declareOutput (fun block' hb => by rw [honly block' hb, hout]) h
  | statement =>
    simp only [Workspace.applyStem, bind_eq_ok] at h
    obtain ⟨w1, h1, h⟩ := h
    obtain ⟨hw1, block0, block1, hblock0, hblock1, hsame⟩ :=
      hw.declarePrevious (fun block' hb => by rw [honly block' hb, hprev]) h1
    refine hw1.declareNext (fun block' hb => ?_) h
    rw [hblock1] at hb
    cases hb
    rw [hsame, honly block0 hblock0, hnext]

/-- A block is entered without connections. -/
theorem skeleton_enterBlock (w : Workspace) (kind : Kind) (id : BlockId) (next : Nat) :
    { w with
      nextBlock := next
      blocks := w.blocks.insert id { kind }
      top := w.top ++ [id] }.skeleton = w.skeleton.addBlock id kind := by
  refine Skeleton.ext (funext fun b => ?_) rfl rfl rfl rfl
  simp only [skeleton, Skeleton.addBlock, getElem?_insert_eq, Function.update_apply]
  split <;> rfl

/-- A block entered without connections stands alone. -/
theorem InOrder.enterBlock (hw : w.InOrder) {kind : Kind} (hnone : w.blocks[id]? = none)
    (next : Nat) :
    { w with
      nextBlock := next
      blocks := w.blocks.insert id { kind }
      top := w.top ++ [id] }.InOrder := by
  have hnew := hw.formed.addBlock kind (b := id) (by simp [skeleton, hnone])
  rw [← skeleton_enterBlock w kind id next] at hnew
  exact ⟨hnew, hw.checked, hw.sound⟩

theorem InOrder.newBlockWithId (hw : w.InOrder) {kind : Kind}
    (h : w.newBlockWithId kind id = .ok w') : w'.InOrder := by
  simp only [Workspace.newBlockWithId, applyLayout, bind_eq_ok, require_eq_ok] at h
  obtain ⟨_, hunused, w1, ⟨w0, h0, h1⟩, w2, h2, h⟩ := h
  cases h
  have hnone : w.blocks[id]? = none := containsBlock_eq_false_iff.1 (by simpa using hunused)
  have hself : (w.blocks.insert id { kind })[id]? = some ({ kind } : Block) := by
    rw [getElem?_insert_eq, if_pos rfl]
  have hstem := (hw.enterBlock hnone _).applyStem hself rfl rfl rfl h0
  have hinputs : w1.InOrder :=
    foldlM_induction (fun _ _ _ _ hv hstep => hv.appendPlannedInput hstep) hstem h1
  exact (hinputs.keeps (retypes_declareTypesIfTyped h2).keeps).keeps (.of_fire w2 _)

end Workspace

end BlockGraph
