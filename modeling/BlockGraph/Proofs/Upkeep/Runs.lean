import BlockGraph.Proofs.Upkeep.Loading

/-!
# Types and bindings along a run

Calls that make, join, part, load, delete and restyle blocks are edits.  An extension may also apply
a descriptor to a block, and a reordering may also move the inputs of a block.

* `Block.steady_true`, `Block.steady_laid`, `Block.steady_distinct`, `Block.steady_plain`: what all
  edits keep of each block.
* `Upheld.run`: one edit leaves every tree up to date.
* `ReachableBy.upheld`, `ReachableBy.upheld_extending`, `ReachableBy.upheld_reordering`: so does a
  run of edits, of extensions, and, as far as bindings are concerned, of reorderings.
-/

namespace BlockGraph

open Workspace

/-! ## What edits keep of a block -/

namespace Block

variable {block : Block} {input : Input}

theorem steady_true : Steady fun _ => True where
  innards _ _ := trivial
  made _ := trivial
  grown _ _ _ _ := trivial
  shrunk _ _ _ _ _ := trivial

/-- The inputs of a list with one item more. -/
theorem plannedInputs_succ (n : Nat) : (Kind.listCreateWith.plannedInputs (n + 1)).Perm
      ((Kind.itemName n, .value) :: Kind.listCreateWith.plannedInputs n) := by
  simp only [Kind.plannedInputs, if_true, List.range_succ, List.map_append, List.map_cons,
    List.map_nil]
  rw [← List.cons_append]
  exact List.perm_append_singleton _ _

theorem kind_of_itemName {n i : Nat} {kind : InputKind}
    (h : (Kind.itemName i, kind) ∈ Kind.listCreateWith.plannedInputs n) : kind = .value :=
  (Kind.value_iff_of_mem_plannedInputs h).2 ⟨.var 0, .inr ⟨Kind.isPrefixOf_itemName i, rfl⟩⟩

theorem steady_laid : Steady Laid where
  innards {b b'} h hlaid := by
    have hinputs := congrArg (List.map fun input => (input.name, input.kind)) (inputs_of_innards h)
    have hkinds : b'.inputs.map (fun input => (input.name, input.kind)) =
        b.inputs.map fun input => (input.name, input.kind) := by
      simpa [essence, Function.comp_def, Input.essence] using hinputs
    refine ⟨?_, by rw [output_of_innards h, kind_of_innards h, hlaid.output]⟩
    rw [hkinds, kind_of_innards h, itemNames_of_innards h]
    exact hlaid.inputs
  made hmaking := hmaking.laid
  grown {block} c hkind _ hlaid := by
    refine ⟨?_, hlaid.output⟩
    have hinputs := hlaid.inputs
    rw [hkind] at hinputs
    rw [length_itemNames_append, hkind, List.map_append]
    exact (List.perm_append_singleton _ _).trans
      ((hinputs.cons (Kind.itemName block.itemNames.length, .value)).trans
        (plannedInputs_succ _).symm)
  shrunk {block index input} hkind hinput hname hpos hlaid := by
    refine ⟨?_, hlaid.output⟩
    obtain ⟨n, hn⟩ : ∃ n, block.itemNames.length = n + 1 := ⟨_, (Nat.succ_pred_eq_of_pos hpos).symm⟩
    have hlength := length_itemNames_eraseIdx hinput hname
    have hinputs := hlaid.inputs
    rw [hkind, hn] at hinputs
    have hitem : (input.name, input.kind) = (Kind.itemName n, .value) := by
      have hmem := hinputs.subset (List.mem_map_of_mem (List.mem_of_getElem? hinput))
      rw [hname, hn, Nat.add_sub_cancel] at hmem ⊢
      rw [kind_of_itemName hmem]
    have hperm := ((perm_cons_eraseIdx hinput).map fun input => (input.name, input.kind)).symm.trans
      (hinputs.trans (plannedInputs_succ n))
    rw [List.map_cons, hitem] at hperm
    have hlast : (itemNames { block with inputs := block.inputs.eraseIdx index }).length = n :=
      by omega
    rw [hlast, hkind]
    exact hperm.cons_inv

/-- No two inputs share a name, unless they have none. -/
def Distinct (block : Block) : Prop :=
  ((block.inputs.map Input.name).filter fun name => name ≠ "").Nodup

theorem Distinct.eq_of_name (h : block.Distinct) {x y : Input} (hx : x ∈ block.inputs)
    (hy : y ∈ block.inputs) (hname : x.name = y.name) (hne : x.name ≠ "") : x = y := by
  rw [Distinct, List.filter_map] at h
  refine List.inj_on_of_nodup_map h (List.mem_filter.2 ⟨hx, ?_⟩) (List.mem_filter.2 ⟨hy, ?_⟩) hname
  · simpa using hne
  · simpa [← hname] using hne

/-- An input is added under a name that is new or empty. -/
theorem Distinct.append (h : block.Distinct)
    (hname : input.name.isEmpty = false → block.input? input.name = none) :
    Distinct { block with inputs := block.inputs ++ [input] } := by
  rw [Distinct, List.map_append, List.filter_append]
  refine List.Nodup.append h ((List.nodup_singleton _).filter _) fun name hold hnew => ?_
  obtain ⟨hmem, hne⟩ := List.mem_filter.1 hnew
  obtain rfl := List.mem_singleton.1 hmem
  obtain ⟨found, hfound, heq⟩ := List.mem_map.1 (List.mem_of_mem_filter hold)
  have hnone := hname (by simpa using hne)
  exact List.find?_eq_none.1 hnone found hfound (by simpa using heq)

theorem Distinct.eraseIdx (h : block.Distinct) (index : Nat) :
    Distinct { block with inputs := block.inputs.eraseIdx index } :=
  h.sublist (((block.inputs.eraseIdx_sublist index).map _).filter _)

theorem steady_distinct : Steady Distinct where
  innards {b b'} h hb := by
    have hnames := congrArg (List.map Input.name) (inputs_of_innards h)
    have : b'.inputs.map Input.name = b.inputs.map Input.name := by
      simpa [essence, Function.comp_def, Input.essence] using hnames
    rw [Distinct, this]
    exact hb
  made hmaking := hmaking.plain.names
  grown _ _ hnone hb := hb.append fun _ => hnone
  shrunk {_ index _} _ _ _ _ hb := hb.eraseIdx index

theorem Marked.of_innards {block' : Block} (hb : block.Marked)
    (h : block'.innards = block.innards) :
    block'.Marked := by
  intro field hfield hname
  have hmem : field.essence ∈ block.essence.fields := by
    rw [show block.essence.fields = block'.essence.fields by simp only [Block.fields,
      inputs_of_innards h], fields_essence]
    exact List.mem_map_of_mem hfield
  rw [fields_essence] at hmem
  obtain ⟨old, hold, hessence⟩ := List.mem_map.1 hmem
  have hheld := congrArg (fun f : Field => f.value.heldVariable?) hessence
  simp only [Field.essence, FieldValue.heldVariable?_essence] at hheld
  rw [← hheld]
  exact hb old hold ((congrArg Field.name hessence).trans hname)

theorem Marked.append (hb : block.Marked) (hinput : input.fields = []) :
    Marked { block with inputs := block.inputs ++ [input] } :=
  fun field hfield => hb field (by simpa [Block.fields, hinput] using hfield)

theorem Marked.eraseIdx (hb : block.Marked) (index : Nat) :
    Marked { block with inputs := block.inputs.eraseIdx index } :=
  fun field hfield => hb field (mem_fields_of_eraseIdx hfield)

theorem steady_plain : Steady Plain where
  innards h hplain := ⟨hplain.holds.of_innards h, steady_distinct.innards h hplain.names⟩
  made hmaking := hmaking.plain
  grown c hkind hnone hplain :=
    ⟨hplain.holds.append rfl, steady_distinct.grown c hkind hnone hplain.names⟩
  shrunk {_ index _} hkind hinput hname hpos hplain :=
    ⟨hplain.holds.eraseIdx index, steady_distinct.shrunk hkind hinput hname hpos hplain.names⟩

/-- A block that has the inputs of its kind, in some order, and holds variables only where its kind
does. -/
structure Regular (block : Block) : Prop where
  laid : block.Laid
  plain : block.Plain

theorem steady_regular : Steady Regular where
  innards h hb := ⟨steady_laid.innards h hb.laid, steady_plain.innards h hb.plain⟩
  made h := ⟨steady_laid.made h, steady_plain.made h⟩
  grown c hkind hnone hb :=
    ⟨steady_laid.grown c hkind hnone hb.laid, steady_plain.grown c hkind hnone hb.plain⟩
  shrunk hkind hinput hname hpos hb :=
    ⟨steady_laid.shrunk hkind hinput hname hpos hb.laid,
      steady_plain.shrunk hkind hinput hname hpos hb.plain⟩

theorem unordered_regular : Unordered Regular where
  plain hb := hb.plain
  perm {block inputs} hperm hb := by
    have hnames : (itemNames { block with inputs }).Perm block.itemNames := (hperm.map _).filter _
    refine ⟨⟨(hperm.map _).trans ?_, hb.laid.output⟩, plain_of_perm hperm hb.plain⟩
    rw [hnames.length_eq]
    exact hb.laid.inputs

end Block

namespace Workspace

variable {w w' : Workspace} {Q : Block → Prop} {tracked : Prop} {P : Call → Prop}

/-- A property of blocks that edits keep, and that gives a block the layout of its kind. -/
structure Serviceable (Q : Block → Prop) : Prop extends Steady Q where
  laid : ∀ {block : Block}, Q block → block.Laid

theorem serviceable_regular : Serviceable Block.Regular :=
  ⟨Block.steady_regular, Block.Regular.laid⟩

/-! ## Edits -/

/-- Calls that make, join, part, load, delete, rename and restyle blocks, and those that concern
listeners. -/
def Call.IsEdit : Call → Prop
  | newBlock _ | newBlockWithId _ _ | setItemCount _ _ | connect _ _ | disconnect _ | setCheck _ _
  | unplug _ _ | dispose _ _ | delete _ | setFieldValue _ _ _ | renameVariable _ _ _
  | setDisabled _ _ | setCollapsed _ _ | setComment _ _ | moveBy _ _ _ | fromRecord _ | subscribe
  | setEventsEnabled _ | fire _ | beginBatch | endBatch _ => True
  | _ => False

/-- Edits, and calls that add inputs and fields to a block. -/
def Call.IsExtension (call : Call) : Prop := call.IsEdit ∨ ∃ b d, call = .applyDescriptor b d

/-- Edits, and calls that move inputs. -/
def Call.IsReordering (call : Call) : Prop :=
  call.IsEdit ∨ (∃ b name before, call = .moveInput b name before) ∨
    ∃ b source target, call = .moveNumberedInput b source target

/-- The workspaces that calls of some sort lead to from an empty one. -/
inductive ReachableBy (P : Call → Prop) : Workspace → Prop where
  | new (options : Options) : ReachableBy P (Workspace.new options)
  | call {w w' : Workspace} (call : Call) (hw : ReachableBy P w) (hcall : P call)
      (hrun : call.run w = .ok w') : ReachableBy P w'

theorem ReachableBy.foldlM (hw : w.ReachableBy P) {calls : List Call}
    (hcalls : ∀ call ∈ calls, P call) (h : calls.foldlM Call.run w = .ok w') : w'.ReachableBy P :=
  foldlM_induction (fun call hcall _ _ hv hrun => hv.call call (hcalls call hcall) hrun) hw h

/-! ## Trees along a run -/

theorem Upheld.new (options : Options) : Upheld Q tracked (Workspace.new options) where
  standing := ⟨.new options, .new options, fun h => by simp [Workspace.new] at h⟩
  here _ r hr := by cases hr
  current _ := ⟨fun _ => default, fun r hr => by cases hr⟩
  covered _ r hr := by cases hr

/-- One edit leaves every tree up to date. -/
theorem Upheld.run (hQ : Steady Q) (h : Upheld Q tracked w) {call : Call} (hcall : call.IsEdit)
    (hrun : call.run w = .ok w') : Upheld Q tracked w' := by
  have hkept : ∀ {w'}, Kept Q tracked (fun _ => True) w (fun _ => False) w' → Upheld Q tracked w' :=
    fun h => h.upheld fun _ _ => id
  have hstyle : StyleClosed (fun _ => True) (Kept Q tracked (fun _ => True) w fun _ => False) :=
    styleClosed_kept hQ
  cases call with
  | newBlock kind =>
    exact hkept (h.kept.newBlockWithId hQ trivial (newBlockWithId_of_newBlock hrun)).1
  | newBlockWithId kind id => exact hkept (h.kept.newBlockWithId hQ trivial hrun).1
  | setItemCount b count => exact hkept (h.kept.setItemCount hQ trivial hrun).1
  | connect a b =>
    obtain ⟨answer, hrun⟩ := exists_answer hrun
    exact h.connect hQ hrun
  | disconnect c => exact h.disconnect hQ hrun
  | setCheck c check => exact h.setCheck hQ hrun
  | unplug b heal => exact hkept (h.kept.unplug hQ trivial hrun).1
  | dispose b heal => exact hkept (h.kept.dispose hQ trivial hrun).1
  | delete b => exact hkept (h.kept.delete hQ trivial hrun)
  | setFieldValue b name value => exact hkept (hstyle.setFieldValue trivial h.kept hrun)
  | renameVariable b field name => exact hkept (h.kept.renameVariable hQ trivial hrun)
  | setDisabled b value | setCollapsed b value | setComment b value =>
    exact hkept (hstyle.restyled trivial h.kept (.of_change hrun) fun _ => ⟨rfl, rfl⟩)
  | moveBy b dx dy => exact hkept (hstyle.moveBy trivial h.kept hrun)
  | fromRecord record =>
    obtain ⟨answer, hrun⟩ := exists_answer hrun
    exact (h.fromRecord hQ hrun).1
  | subscribe | setEventsEnabled | fire | beginBatch | endBatch =>
    obtain ⟨events, rfl⟩ := Call.ConcernsBus.exists_events (by trivial) hrun
    exact h.withEvents hQ events
  | _ => cases hcall

theorem ReachableBy.upheld (hQ : Steady Q) (hw : w.ReachableBy Call.IsEdit) :
    Upheld Q tracked w := by
  induction hw with
  | new options => exact .new options
  | call call _ hcall hrun ih => exact ih.run hQ hcall hrun

theorem ReachableBy.upheld_extending (hw : w.ReachableBy Call.IsExtension) :
    Upheld (fun _ => True) tracked w := by
  induction hw with
  | new options => exact .new options
  | call call _ hcall hrun ih =>
    rcases hcall with hcall | ⟨b, d, rfl⟩
    · exact ih.run Block.steady_true hcall hrun
    · obtain ⟨errors, hrun⟩ := exists_answer hrun
      exact (ih.kept.applyDescriptor trivial hrun fun _ _ => trivial).upheld fun _ _ => id

theorem ReachableBy.upheld_reordering (hQ : Steady Q) (hperm : Unordered Q)
    (hw : w.ReachableBy Call.IsReordering) : Upheld Q False w := by
  induction hw with
  | new options => exact .new options
  | call call _ hcall hrun ih =>
    rcases hcall with hcall | ⟨b, name, before, rfl⟩ | ⟨b, source, target, rfl⟩
    · exact ih.run hQ hcall hrun
    · exact ih.moveInput hperm hrun
    · exact ih.moveNumberedInput hperm hrun

end Workspace

end BlockGraph
