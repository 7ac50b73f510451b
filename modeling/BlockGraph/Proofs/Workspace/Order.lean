import BlockGraph.Proofs.Workspace.Places
import BlockGraph.Proofs.Workspace.Procedures
import BlockGraph.Proofs.Workspace.Retype

/-!
# Workspaces in order

A workspace is in order (`Workspace.InOrder`) if its skeleton is formed, joined connections pass
each other's checks, and its type table is sound.  Every operation keeps it in order.

Most operations, and most steps of the others, do not touch the skeleton at all (`Workspace.Keeps`):
they are about fields, properties, variables, bindings, types or events.  This file goes through
them.
-/

namespace BlockGraph

variable {b : BlockId} {v : VariableId} {blocks : List BlockId} {at? : Option ConnectionId}
  {α : Type} {f : Block → Block}

/-! ## Fields are no part of a frame -/

theorem Input.map_slot_appendField (inputs : List Input) (index : Nat) (field : Field) :
    (inputs.modify index fun i => { i with fields := i.fields ++ [field] }).map Input.slot =
      inputs.map Input.slot := by
  apply List.ext_getElem?
  intro n
  simp only [List.getElem?_map, List.getElem?_modify]
  cases inputs[n]? with
  | none => rfl
  | some i =>
    simp only [Option.map_eq_map, Option.map_some]
    split <;> rfl

theorem Block.frame_setField (block : Block) (name : String) (value : FieldValue) :
    (block.setField name value).frame = block.frame := by
  have hslots : ∀ inputs : List Input,
      (setInInputs name value inputs).map Input.slot = inputs.map Input.slot := by
    intro inputs
    induction inputs with
    | nil => rfl
    | cons i is ih =>
      unfold setInInputs
      split
      · rfl
      · simp [ih]
  simp [frame, setField, hslots]

namespace Variable

theorem bindTo_bindTo (v : Variable) (a b : Option VariableId) :
    (v.bindTo a).bindTo b = v.bindTo b := by
  obtain ⟨name, block, role⟩ := v
  cases role <;> rfl

end Variable

namespace Workspace

variable {w w' w'' : Workspace} {all : Bool} {index : Nat} {name : String}
  {error : Option RecordError} {root : BlockId}

/-- The skeleton is formed, joined connections pass each other's checks, and the type table is
sound. -/
structure InOrder (w : Workspace) : Prop where
  formed : w.skeleton.Formed
  checked : w.skeleton.Checked
  sound : w.types.Sound

/-- The skeleton is untouched, and the type table is as sound as it was. -/
structure Keeps (w w' : Workspace) : Prop where
  skeleton_eq : w'.skeleton = w.skeleton
  sound : w.types.Sound → w'.types.Sound

theorem InOrder.keeps (hw : w.InOrder) (h : Keeps w w') : w'.InOrder where
  formed := h.skeleton_eq ▸ hw.formed
  checked := h.skeleton_eq ▸ hw.checked
  sound := h.sound hw.sound

theorem Retouches.keeps (h : Retouches w w') : Keeps w w' := ⟨h.skeleton_eq, h.sound⟩

theorem Retypes.keeps (h : Retypes w w') : Keeps w w' := h.retouches.keeps

namespace Keeps

theorem refl (w : Workspace) : Keeps w w := ⟨rfl, fun h => h⟩

theorem trans (h : Keeps w w') (h' : Keeps w' w'') : Keeps w w'' :=
  ⟨h'.skeleton_eq.trans h.skeleton_eq, fun hw => h'.sound (h.sound hw)⟩

theorem of_modifyBlock (h : w.modifyBlock b f = .ok w')
    (hf : ∀ block, w.blocks[b]? = some block → (f block).frame = block.frame) : Keeps w w' := by
  obtain ⟨block, hblock, rfl⟩ := modifyBlock_eq_ok.1 h
  refine ⟨?_, fun h => h⟩
  rw [skeleton_insertBlock, hf block hblock, ← frame_of_block hblock]
  exact Skeleton.ext (Function.update_eq_self b _) rfl rfl rfl rfl

theorem of_modifyVariable {f : Variable → Variable} (h : w.modifyVariable v f = .ok w') :
    Keeps w w' := by
  obtain ⟨found, -, rfl⟩ := modifyVariable_eq_ok.1 h
  exact ⟨rfl, fun h => h⟩

theorem of_fire (w : Workspace) (event : Event) : Keeps w (w.fire event) := ⟨rfl, fun h => h⟩

theorem of_foldlM {f : Workspace → α → Except Fault Workspace} {l : List α}
    (hf : ∀ a w w', f w a = .ok w' → Keeps w w') (h : l.foldlM f w = .ok w') : Keeps w w' :=
  foldlM_induction (P := Keeps w) (fun a _ v v' hv hstep => hv.trans (hf a v v' hstep)) (refl w) h

end Keeps

/-! ## Variables and fields -/

theorem keeps_newValue (w : Workspace) (b : BlockId) (name : String) :
    Keeps w (w.newValue b name).2 := by
  unfold newValue
  split
  · exact (retypes_freshType w).keeps.trans ⟨rfl, fun h => h⟩
  · exact ⟨rfl, fun h => h⟩

theorem keeps_newReference (w : Workspace) (b : BlockId) (name : String) :
    Keeps w (w.newReference b name).2 := ⟨rfl, fun h => h⟩

theorem keeps_appendField {field : Field} (h : w.appendField b index field = .ok w') :
    Keeps w w' := by
  simp only [appendField, bind_eq_ok] at h
  obtain ⟨block, -, _, -, h⟩ := h
  refine .of_modifyBlock h fun block _ => ?_
  simp [Block.frame, Input.map_slot_appendField]

theorem keeps_appendPlannedField {plan : Kind.FieldPlan}
    (h : w.appendPlannedField b index plan = .ok w') : Keeps w w' := by
  cases plan with
  | binder name => exact (keeps_newValue w b _).trans (keeps_appendField h)
  | reference name => exact (keeps_newReference w b _).trans (keeps_appendField h)
  | _ => exact keeps_appendField h

/-! ## Properties -/

theorem Restyled.keeps (h : Restyled b f w w') (hf : ∀ block, (f block).frame = block.frame) :
    Keeps w w' := by
  obtain ⟨w1, h1, hw'⟩ := h
  have hkeeps : Keeps w w1 := .of_modifyBlock h1 fun block _ => hf block
  rcases hw' with rfl | ⟨_, _, _, rfl⟩
  · exact hkeeps
  · exact hkeeps.trans (.of_fire w1 _)

theorem keeps_moveBy {dx dy : Float} (h : w.moveBy b dx dy = .ok w') : Keeps w w' := by
  simp only [moveBy, bind_eq_ok] at h
  obtain ⟨block, -, _, -, w1, h1, h⟩ := h
  cases h
  exact (Keeps.of_modifyBlock h1 fun _ _ => rfl).trans (.of_fire w1 _)

theorem keeps_loadProperties {saved : SavedBlock} (h : w.loadProperties saved = .ok w') :
    Keeps w w' :=
  .of_modifyBlock h fun _ _ => rfl

theorem keeps_loadField {value : Json} (h : w.loadField b name value = .ok (error, w')) :
    Keeps w w' := by
  rcases loadField_cases h with rfl | ⟨block, -, ⟨v, text, -, h⟩ | ⟨loaded, -, -, h⟩⟩
  · exact .refl w'
  · exact .of_modifyVariable h
  · exact .of_modifyBlock h fun block _ => block.frame_setField name loaded

theorem keeps_loadFields {fields : List (String × Json)}
    (h : w.loadFields b fields = .ok (error, w')) : Keeps w w' :=
  loadFields_induction (fun hkeeps hrun => hkeeps.trans (keeps_loadField hrun)) (.refl w) h

/-! ## Binding -/

/-- Nothing but bindings differs. -/
structure Binds (w w' : Workspace) : Prop where
  rest : w' = { w with vars := w'.vars }
  var : ∀ v : VariableId, w'.vars[v]?.map (·.bindTo none) = w.vars[v]?.map (·.bindTo none)

namespace Binds

theorem refl (w : Workspace) : Binds w w := ⟨rfl, fun _ => rfl⟩

theorem trans (h : Binds w w') (h' : Binds w' w'') : Binds w w'' where
  rest := by rw [h'.rest, h.rest]
  var v := (h'.var v).trans (h.var v)

theorem of_bindTo {target : Option VariableId} (h : w.modifyVariable v (·.bindTo target) = .ok w') :
    Binds w w' := by
  obtain ⟨found, hfound, rfl⟩ := modifyVariable_eq_ok.1 h
  refine ⟨rfl, congr_getElem?_insert (Option.map fun x : Variable => x.bindTo none) ?_⟩
  rw [hfound, Option.map_some, Option.map_some, Variable.bindTo_bindTo]

theorem retouches (h : Binds w w') : Retouches w w' where
  rest := by rw [h.rest]
  joint c := by rw [h.rest]
  sound := by
    rw [h.rest]
    exact fun ht => ht

end Binds

theorem binds_bindReferences {env : Env} {references : List (VariableId × String)} :
    ∀ {w w' : Workspace} {all : Bool}, w.bindReferences env references = .ok (all, w') →
    Binds w w' := by
  induction references with
  | nil =>
    intro w w' all h
    cases h
    exact .refl w
  | cons entry rest ih =>
    intro w w' all h
    simp only [bindReferences, bind_eq_ok] at h
    obtain ⟨w1, h1, ⟨all', w2⟩, h2, h⟩ := h
    cases h
    exact (Binds.of_bindTo h1).trans (ih h2)

theorem binds_bindLevel {level : List (BlockId × Env)} :
    ∀ {w w' : Workspace} {all : Bool} {below : List (BlockId × Env)},
      w.bindLevel level = .ok (all, below, w') → Binds w w' := by
  induction level with
  | nil =>
    intro w w' all below h
    cases h
    exact .refl w
  | cons entry rest ih =>
    intro w w' all below h
    simp only [bindLevel, bind_eq_ok] at h
    obtain ⟨references, -, ⟨here, w1⟩, h1, children, -, ⟨others, more, w2⟩, h2, h⟩ := h
    cases h
    exact (binds_bindReferences h1).trans (ih h2)

theorem binds_bindLevels {depth : Nat} :
    ∀ {w w' : Workspace} {level : List (BlockId × Env)} {all : Bool},
      w.bindLevels depth level = .ok (all, w') → Binds w w' := by
  induction depth with
  | zero =>
    intro w w' level all h
    cases h
    exact .refl w
  | succ depth ih =>
    intro w w' level all h
    unfold bindLevels at h
    split at h
    · cases h
      exact .refl w
    · simp only [bind_eq_ok] at h
      obtain ⟨⟨here, below, w1⟩, h1, ⟨others, w2⟩, h2, h⟩ := h
      cases h
      exact (binds_bindLevel h1).trans (ih h2)

theorem binds_resolveReferences (h : w.resolveReferences b at? = .ok (all, w')) : Binds w w' := by
  simp only [resolveReferences, bind_eq_ok] at h
  obtain ⟨env, -, h⟩ := h
  exact binds_bindLevels h

theorem binds_rebind (h : w.rebind b = .ok (all, w')) : Binds w w' := by
  simp only [rebind, bind_eq_ok] at h
  obtain ⟨at?, -, h⟩ := h
  exact binds_resolveReferences h

theorem retouches_resolveReferences (h : w.resolveReferences b at? = .ok (all, w')) :
    Retouches w w' :=
  (binds_resolveReferences h).retouches

theorem retouches_rebind (h : w.rebind b = .ok (all, w')) :
    Retouches w w' := (binds_rebind h).retouches

theorem retouches_refreshTree (h : w.refreshTree root = .ok w') : Retouches w w' := by
  simp only [refreshTree, bind_eq_ok] at h
  obtain ⟨⟨all, w1⟩, h1, h⟩ := h
  exact (retouches_resolveReferences h1).trans (retypes_reinferTree h).retouches

theorem retouches_refresh (h : w.refresh blocks = .ok w') : Retouches w w' := by
  unfold refresh at h
  split at h
  · cases h
    exact .refl w
  · simp only [bind_eq_ok] at h
    obtain ⟨roots, -, w1, h1, h⟩ := h
    exact (Retouches.of_foldlM (fun _ _ _ => retouches_refreshTree) h1).trans
      (retypes_compactTypes h).retouches

/-- A refresh is about types and bindings. -/
theorem rest_refresh (h : w.refresh blocks = .ok w') : w'.options = w.options ∧
    w'.blocks = w.blocks := by
  rw [(retouches_refresh h).rest]
  exact ⟨rfl, rfl⟩

theorem events_refresh (h : w.refresh blocks = .ok w') : w'.events = w.events := by
  rw [(retouches_refresh h).rest]

theorem keeps_resolveReferences
    (h : w.resolveReferences b at? = .ok (all, w')) : Keeps w w' :=
  (retouches_resolveReferences h).keeps

theorem keeps_rebind (h : w.rebind b = .ok (all, w')) : Keeps w w' := (retouches_rebind h).keeps

theorem keeps_refreshTree (h : w.refreshTree root = .ok w') : Keeps w w' :=
  (retouches_refreshTree h).keeps

theorem keeps_refresh (h : w.refresh blocks = .ok w') : Keeps w w' := (retouches_refresh h).keeps

theorem keeps_disposeVariable (h : w.disposeVariable v = .ok w') : Keeps w w' := by
  simp only [disposeVariable, bind_eq_ok] at h
  obtain ⟨found, -, h⟩ := h
  cases h
  exact ⟨rfl, fun h => h⟩

/-! ## Batches -/

theorem keeps_endBatch {token : BatchToken} (h : w.endBatch token = .ok w') : Keeps w w' := by
  simp only [endBatch, bind_eq_ok] at h
  obtain ⟨events, -, h⟩ := h
  cases h
  exact ⟨rfl, fun h => h⟩

end Workspace

end BlockGraph
