import BlockGraph.Proofs.Scope.Holders
import BlockGraph.Proofs.Upkeep.Runs

/-!
# Housing along a run

Binding the uses below one block by hand leaves them as it likes, so of a run with such calls there
is less to say than of edits: uses may be bound in a workspace without types, and to what their
names do not denote.  Still the workspace is in order, every variable is housed, and a block holds
variables where its kind does (`Orderly`).  What changes only bindings cannot break that, and what
changes blocks is an edit.

* `checkClosed_orderly`, `fileClosed_orderly`: the steps of edits keep a workspace orderly.
* `Call.IsRebinding`, `ReachableBy.orderly`: so does a run of edits, of calls that move inputs, and
  of calls that bind uses.
-/

namespace BlockGraph.Workspace

variable {w w1 w' : Workspace} {b : BlockId} {block : Block} {Q : BlockId → Block → Prop}
  {c : ConnectionId}

/-- In order, with every variable in its place and a property of each block. -/
structure Orderly (Q : BlockId → Block → Prop) (w : Workspace) : Prop where
  inOrder : w.InOrder
  housed : w.Housed
  block : ∀ {b : BlockId} {block : Block}, w.blocks[b]? = some block → Q b block

/-- A property of what a block is made of. -/
def Intrinsic (Q : BlockId → Block → Prop) : Prop :=
  ∀ (b : BlockId) (block block' : Block), block'.innards = block.innards → Q b block → Q b block'

/-! ## Steps -/

namespace Orderly

theorem new (options : Options) : Orderly Q (Workspace.new options) :=
  ⟨.new options, .new options, fun h => by simp [Workspace.new] at h⟩

theorem keepsInnards (hQ : Intrinsic Q) (h : Orderly Q w) (hw' : w'.InOrder)
    (hkeeps : KeepsInnards w w') :
    Orderly Q w' where
  inOrder := hw'
  housed := h.housed.keeps hkeeps
  block hb := by
    obtain ⟨old, hold, hinnards⟩ := hkeeps.exists_block hb
    exact hQ _ _ _ hinnards (h.block hold)

/-- Types and bindings do not matter. -/
theorem of_bare (h : Orderly Q w) (hw' : w'.InOrder) (hblocks : w'.blocks = w.blocks)
    (hcount : w'.variableCount = w.variableCount) (hbare : KeepsBare w w') : Orderly Q w' :=
  ⟨hw', h.housed.of_bare hblocks hcount hbare, fun hb => h.block (hblocks ▸ hb)⟩

theorem refresh (h : Orderly Q w) {bs : List BlockId} (hrun : w.refresh bs = .ok w') :
    Orderly Q w' := by
  have hrebound := h.inOrder.rebound_refresh hrun
  exact h.of_bare (h.inOrder.keeps (keeps_refresh hrun)) hrebound.blocks
    (by rw [(retouches_refresh hrun).rest]) hrebound.bare

theorem binds (h : Orderly Q w) (hbinds : Binds w w') : Orderly Q w' :=
  h.of_bare (hbinds.inOrder h.inOrder) (by rw [hbinds.rest]) (by rw [hbinds.rest]) hbinds.bare

section

variable (hQ : Intrinsic Q) (h : Orderly Q w)
include hQ h

theorem unlink {announce : Bool} {joined : BlockId × BlockId}
    (hrun : w.unlink c announce = .ok (joined, w')) : Orderly Q w' :=
  h.keepsInnards hQ (h.inOrder.unlink hrun) (h.inOrder.unlinked hrun).rewires.innards

theorem link {a i o : ConnectionId} (hgate : w.checkStructure a c = .ok none)
    (horient : w.orient a c = .ok (i, o)) (hrun : w.link i o = .ok w') : Orderly Q w' := by
  obtain ⟨socket, plug, -, -, -, hlinked⟩ := exists_linked h.inOrder hgate horient hrun
  exact h.keepsInnards hQ hlinked.inOrder hlinked.rewires.innards

theorem release (hrun : w.release b = .ok w') : Orderly Q w' where
  inOrder := h.inOrder.release hrun
  housed := h.housed.release h.inOrder hrun
  block hb := by
    obtain ⟨old, hold, hinnards⟩ := (h.inOrder.released hrun).sheds.block hb
    exact hQ _ _ _ hinnards (h.block hold)

theorem withEvents (events : Bus) : Orderly Q { w with events } :=
  h.keepsInnards hQ ⟨h.inOrder.formed, h.inOrder.checked, h.inOrder.sound⟩ (.of_eq rfl rfl rfl rfl)

theorem fire (event : Event) : Orderly Q (w.fire event) :=
  h.withEvents hQ _

end

theorem reshape (h : Orderly Q w) {block' : Block} (hreshaped : Reshaped b block block' w w')
    (hq : Q b block') :
    Orderly Q w' where
  inOrder := hreshaped.inOrder
  housed := hreshaped.housed h.housed
  block {x found} hx := by
    by_cases hne : x = b
    · subst hne
      cases hreshaped.new.symm.trans hx
      exact hq
    · exact h.block (hreshaped.other hne ▸ hx)

end Orderly

theorem checkClosed_orderly (hQ : Intrinsic Q) : CheckClosed (Orderly Q) where
  refresh h hrun := h.refresh hrun
  join h hgate _ _ horient hrun := h.link hQ hgate horient hrun
  part h hrun := h.unlink hQ hrun
  heal h habove _ hrun := by
    obtain ⟨joined1, w1, joined2, w2, answer, h1, h2, hanswer, hcases⟩ :=
      h.inOrder.healing_cases habove hrun
    have hparted := (h.unlink hQ h1).unlink hQ h2
    rcases hcases with ⟨-, rfl⟩ | ⟨rfl, horient, hlink⟩
    · exact hparted
    · exact hparted.link hQ hanswer horient hlink
  erase h hrun :=
    (foldlM_induction (fun _ _ _ _ hv hstep => Orderly.release hQ hv hstep) h hrun).fire hQ _
  recheck h hc hrun hpass :=
    h.keepsInnards hQ (checkClosed_inOrder.recheck h.inOrder hc hrun hpass) (.modifyConnection hrun)
  expel h h1 hrun := by
    have hinnards := KeepsInnards.modifyConnection h1
    obtain ⟨connection, hc, rfl⟩ := modifyConnection_eq_ok.1 h1
    obtain ⟨hformed, hw'⟩ := h.inOrder.unlink_recheck hc hrun
    obtain ⟨-, -, -, -, -, -, -, -, -, -, -, -, -, hrewires⟩ := exists_unlinked hformed hrun
    exact h.keepsInnards hQ hw' (hinnards.trans hrewires.innards)

/-! ## Items -/

theorem intrinsic_marked : Intrinsic fun _ => Block.Marked := fun _ _ _ h hb => hb.of_innards h

/-- What is asked of every block, and that one of them is a list. -/
def ListAt (b x : BlockId) (block : Block) : Prop := block.Marked ∧
  (x = b → block.kind = .listCreateWith)

theorem intrinsic_listAt (b : BlockId) : Intrinsic (ListAt b) := fun _ _ _ h hb =>
  ⟨hb.1.of_innards h, fun hx => (Block.kind_of_innards h).trans (hb.2 hx)⟩

theorem itemClosed_orderly (b : BlockId) : ItemClosed b (Orderly (ListAt b)) where
  toCheckClosed := checkClosed_orderly (intrinsic_listAt b)
  appendInput h hrun := by
    obtain ⟨block, connection, -, -, -, hreshaped⟩ := h.inOrder.exists_appended hrun
    obtain ⟨hmarked, hlist⟩ := h.block hreshaped.old
    exact h.reshape hreshaped ⟨hmarked.append rfl, hlist⟩
  dropInput {w w1 w2 w' block index} h hblock h1 h2 hrun := by
    obtain ⟨hmarked, hlist⟩ := h.block hblock
    have hw' := inputClosed_inOrder.dropInput h.inOrder hblock h1 h2 hrun
    have hbare : ¬ (block.kind.isBinder = true ∨ block.kind = .variablesGet) :=
      by simp [hlist rfl, Kind.isBinder]
    cases hinput : block.inputs[index]? with
    | none =>
      rw [hinput] at h2 hrun
      cases h2
      cases hrun
      refine h.keepsInnards (intrinsic_listAt b) hw' (.modifyBlock h1 fun block' hblock' => ?_)
      cases hblock.symm.trans hblock'
      rw [List.eraseIdx_of_length_le (List.getElem?_eq_none_iff.1 hinput)]
    | some input =>
      have htidy := h.housed.tidy hblock
      have hheld : input.fields.filterMap (·.value.heldVariable?) = [] :=
        List.filterMap_eq_nil_iff.2 fun field hfield => htidy.held_eq_none hbare field
          (List.mem_flatMap.2 ⟨input, List.mem_of_getElem? hinput, hfield⟩)
      rw [hinput, Option.getD_some] at h2 hrun
      rw [hheld] at h2
      cases h2
      exact h.reshape (h.inOrder.drop hblock htidy hbare hinput h1 hrun)
        ⟨hmarked.eraseIdx index, hlist⟩

/-- The number of items is changed only of a list. -/
theorem Orderly.setItemCount (h : Orderly (fun _ => Block.Marked) w) {count : Nat}
    (hrun : w.setItemCount b count = .ok w') : Orderly (fun _ => Block.Marked) w' := by
  have hlist : Orderly (ListAt b) w := by
    refine ⟨h.inOrder, h.housed, fun {x block} hx => ⟨h.block hx, ?_⟩⟩
    rintro rfl
    simp only [Workspace.setItemCount, bind_eq_ok, getBlock_eq_ok, require_eq_ok,
      beq_iff_eq] at hrun
    obtain ⟨block', hblock', _, hkind, -⟩ := hrun
    cases hx.symm.trans hblock'
    exact hkind
  have h' := (itemClosed_orderly b).setItemCount hlist hrun
  exact ⟨h'.inOrder, h'.housed, fun hx => (h'.block hx).1⟩

/-! ## Blocks and records -/

namespace Orderly

variable (hQ : Intrinsic Q) (h : Orderly Q w)
include hQ h

/-- What a block shows is changed, but not what it is made of. -/
theorem restyle {f : Block → Block} (hrun : w.modifyBlock b f = .ok w')
    (hf : ∀ block, w.blocks[b]? = some block → (f block).essence = block.essence ∧
      (f block).frame = block.frame) : Orderly Q w' :=
  h.keepsInnards hQ (h.inOrder.keeps (.of_modifyBlock hrun fun block hblock => (hf block hblock).2))
    (.modifyBlock hrun fun block hblock => Block.innards_of_essence (hf block hblock).1)

theorem rename {v : VariableId} {name : String}
    (hrun : w.modifyVariable v ({ · with name }) = .ok w') :
    Orderly Q w' :=
  h.keepsInnards hQ (h.inOrder.keeps (.of_modifyVariable hrun))
    (.modifyVariable hrun (fun _ => rfl) (fun _ => rfl) fun _ _ => rfl)

end Orderly

theorem styleClosed_orderly (hQ : Intrinsic Q) : StyleClosed (fun _ => True) (Orderly Q) where
  restyle _ h hrun hf := h.restyle hQ hrun hf
  fire event h := h.fire hQ event

theorem fileClosed_orderly : FileClosed (Orderly fun _ => Block.Marked) where
  toCheckClosed := checkClosed_orderly intrinsic_marked
  setItemCount h hrun := h.setItemCount hrun
  events events h := h.withEvents intrinsic_marked events
  rename h hrun := h.rename intrinsic_marked hrun
  newBlockWithId {w w' kind b} h hrun := by
    obtain ⟨x, block, z, -, hmaking, hdeclare, rfl⟩ := exists_making h.inOrder h.housed.counted hrun
    have hretypes := retypes_declareTypesIfTyped hdeclare
    have hmade : Orderly (fun _ => Block.Marked) x := by
      refine ⟨hmaking.inOrder, hmaking.housed h.housed, fun {y found} hy => ?_⟩
      by_cases hne : y = b
      · subst hne
        cases hmaking.lookup.symm.trans hy
        exact hmaking.plain.holds
      · exact h.block (hmaking.other hne ▸ hy)
    exact (hmade.keepsInnards intrinsic_marked (hmade.inOrder.keeps hretypes.keeps)
      hretypes.keepsInnards).fire intrinsic_marked _
  loadField h hrun := by
    rcases loadField_cases hrun with
      rfl | ⟨block, hblock, ⟨v, text, -, h1⟩ | ⟨loaded, hloaded, hold, h1⟩⟩
    · exact h
    · exact h.rename intrinsic_marked h1
    · refine h.restyle intrinsic_marked h1 fun block' hblock' => ?_
      cases hblock.symm.trans hblock'
      exact ⟨Block.essence_setField hloaded hold, block.frame_setField _ loaded⟩
  loadProperties h hrun := h.restyle intrinsic_marked hrun fun _ _ => ⟨rfl, rfl⟩
  attach h hrun := by
    rcases h.inOrder.attach_cases hrun with ⟨-, rfl⟩ | ⟨-, superior, inferior, plug, hgate, horient,
      -, -, hlink⟩
    · exact h
    · exact h.link intrinsic_marked hgate horient hlink

/-! ## Runs -/

theorem Orderly.moveNumberedInput (h : Orderly (fun _ => Block.Marked) w) {source target : Nat}
    (hrun : w.moveNumberedInput b source target = .ok w') : Orderly (fun _ => Block.Marked) w' := by
  obtain ⟨block, inputs, hblock, hperm, -, hmoved⟩ := h.inOrder.moved hrun
  exact h.reshape (hmoved (h.housed.tidy hblock) (h.block hblock))
    (Block.marked_of_perm hperm (h.block hblock))

/-- Edits, calls that move inputs, and calls that bind the uses below a block. -/
def Call.IsRebinding (call : Call) : Prop :=
  call.IsReordering ∨ ∃ b at?, call = .resolveReferences b at?

theorem Orderly.run (h : Orderly (fun _ => Block.Marked) w) {call : Call} (hcall : call.IsRebinding)
    (hrun : call.run w = .ok w') : Orderly (fun _ => Block.Marked) w' := by
  have hclosed := fileClosed_orderly
  have hstyle := styleClosed_orderly intrinsic_marked
  rcases hcall with (hcall | ⟨b, name, before, rfl⟩ | ⟨b, source, target, rfl⟩) | ⟨b, at?, rfl⟩
  · cases call with
    | newBlock kind => exact hclosed.newBlockWithId h (newBlockWithId_of_newBlock hrun)
    | newBlockWithId kind id => exact hclosed.newBlockWithId h hrun
    | setItemCount b count => exact h.setItemCount hrun
    | connect a b => exact (exists_answer hrun).elim fun _ => hclosed.connect h
    | disconnect c => exact hclosed.disconnect h hrun
    | setCheck c check => exact hclosed.setCheck h hrun
    | unplug b heal => exact hclosed.unplug h hrun
    | dispose b heal | delete b => exact hclosed.dispose h hrun
    | setFieldValue b name value => exact hstyle.setFieldValue trivial h hrun
    | renameVariable b field name => exact hclosed.renameVariable h hrun
    | setDisabled b value | setCollapsed b value | setComment b value =>
      exact hstyle.restyled trivial h (.of_change hrun) fun _ => ⟨rfl, rfl⟩
    | moveBy b dx dy => exact hstyle.moveBy trivial h hrun
    | fromRecord record => exact (exists_answer hrun).elim fun _ => hclosed.fromRecord h
    | subscribe | setEventsEnabled | fire | beginBatch | endBatch =>
      obtain ⟨events, rfl⟩ := Call.ConcernsBus.exists_events (by trivial) hrun
      exact h.withEvents intrinsic_marked events
    | _ => cases hcall
  · rcases moveInput_cases hrun with rfl | ⟨source, target, hrun⟩
    · exact h
    · exact h.moveNumberedInput hrun
  · exact h.moveNumberedInput hrun
  · obtain ⟨all, hrun⟩ := exists_answer hrun
    exact h.binds (binds_resolveReferences hrun)

theorem ReachableBy.orderly (hw : w.ReachableBy Call.IsRebinding) :
    Orderly (fun _ => Block.Marked) w := by
  induction hw with
  | new options => exact .new options
  | call call _ hcall hrun ih => exact ih.run hcall hrun

end BlockGraph.Workspace
