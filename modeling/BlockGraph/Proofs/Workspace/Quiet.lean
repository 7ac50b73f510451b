import BlockGraph.Proofs.Workspace.Loading

/-!
# Steps that announce nothing

Most steps of an operation fire no event, number no block and leave the settings alone
(`Workspace.Quiet`): those that change fields and variables, those that make and free connections,
and those that part blocks silently.  This file goes through them; the steps that announce something
are put together from these.
-/

namespace BlockGraph.Workspace

variable {child b : BlockId} {c : ConnectionId} {v : VariableId} {check : Check} {f : Block → Block}
  {w w' w'' : Workspace} {index : Nat} {name : String} {error : Option RecordError} {all : Bool}

/-- The options, and the size of the type table when it was last rebuilt. -/
def settings (w : Workspace) : Options × Nat := (w.options, w.baseline)

/-- No event is fired, and the next number and the settings are the same. -/
structure Quiet (w w' : Workspace) : Prop where
  events : w'.events = w.events
  nextBlock : w'.nextBlock = w.nextBlock
  settings : w'.settings = w.settings

namespace Quiet

theorem refl (w : Workspace) : Quiet w w := ⟨rfl, rfl, rfl⟩

theorem trans (h : Quiet w w') (h' : Quiet w' w'') : Quiet w w'' :=
  ⟨h'.events.trans h.events, h'.nextBlock.trans h.nextBlock, h'.settings.trans h.settings⟩

theorem of_modifyBlock (h : w.modifyBlock b f = .ok w') : Quiet w w' := by
  obtain ⟨block, -, rfl⟩ := modifyBlock_eq_ok.1 h
  exact ⟨rfl, rfl, rfl⟩

theorem of_modifyConnection {f : Connection → Connection}
    (h : w.modifyConnection c f = .ok w') : Quiet w w' := by
  obtain ⟨connection, -, rfl⟩ := modifyConnection_eq_ok.1 h
  exact ⟨rfl, rfl, rfl⟩

theorem of_modifyVariable {f : Variable → Variable} (h : w.modifyVariable v f = .ok w') :
    Quiet w w' := by
  obtain ⟨found, -, rfl⟩ := modifyVariable_eq_ok.1 h
  exact ⟨rfl, rfl, rfl⟩

theorem of_foldlM {α : Type} {f : Workspace → α → Except Fault Workspace} {l : List α}
    (hf : ∀ a w w', f w a = .ok w' → Quiet w w') (h : l.foldlM f w = .ok w') : Quiet w w' :=
  foldlM_induction (fun a _ _ _ hv hstep => hv.trans (hf a _ _ hstep)) (refl w) h

end Quiet

/-! ## Construction -/

theorem quiet_createConnection (w : Workspace) (b : BlockId) (kind : ConnectionKind)
    (check : Check) :
    Quiet w (w.createConnection b kind check).2 := ⟨rfl, rfl, rfl⟩

theorem quiet_createSocket (w : Workspace) (b : BlockId) (kind : InputKind) (check : Check) :
    Quiet w (w.createSocket b kind check).2 := by
  cases kind with
  | value | statement => exact quiet_createConnection w b _ check
  | dummy => exact .refl w

theorem quiet_declareOutput (h : w.declareOutput b check = .ok w') : Quiet w w' := by
  simp only [declareOutput, bind_eq_ok] at h
  obtain ⟨block, -, _, -, h⟩ := h
  exact (quiet_createConnection w b _ check).trans (.of_modifyBlock h)

theorem quiet_declarePrevious (h : w.declarePrevious b check = .ok w') : Quiet w w' := by
  simp only [declarePrevious, bind_eq_ok] at h
  obtain ⟨block, -, _, -, h⟩ := h
  exact (quiet_createConnection w b _ check).trans (.of_modifyBlock h)

theorem quiet_declareNext (h : w.declareNext b check = .ok w') : Quiet w w' :=
  (quiet_createConnection w b _ check).trans (.of_modifyBlock h)

theorem quiet_newValue (w : Workspace) (b : BlockId) (name : String) :
    Quiet w (w.newValue b name).2 := by
  unfold newValue
  split <;> exact ⟨rfl, rfl, rfl⟩

theorem quiet_newReference (w : Workspace) (b : BlockId) (name : String) :
    Quiet w (w.newReference b name).2 := ⟨rfl, rfl, rfl⟩

theorem quiet_appendInput {kind : InputKind}
    (h : w.appendInput b kind name check = .ok (index, w')) : Quiet w w' := by
  obtain ⟨-, -, -, -, hmodify⟩ := appendInput_cases h
  exact (quiet_createSocket w b kind check).trans (.of_modifyBlock hmodify)

theorem quiet_appendField {field : Field} (h : w.appendField b index field = .ok w') :
    Quiet w w' := by
  simp only [appendField, bind_eq_ok] at h
  obtain ⟨block, -, _, -, h⟩ := h
  exact .of_modifyBlock h

theorem quiet_appendPlannedField {plan : Kind.FieldPlan}
    (h : w.appendPlannedField b index plan = .ok w') : Quiet w w' := by
  cases plan with
  | binder name => exact (quiet_newValue w b _).trans (quiet_appendField h)
  | reference name => exact (quiet_newReference w b _).trans (quiet_appendField h)
  | _ => exact quiet_appendField h

theorem quiet_appendPlannedInput {plan : Kind.InputPlan}
    (h : w.appendPlannedInput b plan = .ok w') :
    Quiet w w' := by
  simp only [appendPlannedInput, bind_eq_ok] at h
  obtain ⟨⟨index, w1⟩, h1, h⟩ := h
  exact (quiet_appendInput h1).trans (.of_foldlM (fun _ _ _ => quiet_appendPlannedField) h)

theorem quiet_applyStem {stem : Kind.Stem} (h : w.applyStem b stem = .ok w') : Quiet w w' := by
  cases stem with
  | output check => exact quiet_declareOutput h
  | statement =>
    simp only [applyStem, bind_eq_ok] at h
    obtain ⟨w1, h1, h⟩ := h
    exact (quiet_declarePrevious h1).trans (quiet_declareNext h)

theorem quiet_applyLayout {layout : Kind.Layout} (h : w.applyLayout b layout = .ok w') :
    Quiet w w' := by
  simp only [applyLayout, bind_eq_ok] at h
  obtain ⟨w1, h1, h⟩ := h
  exact (quiet_applyStem h1).trans (.of_foldlM (fun _ _ _ => quiet_appendPlannedInput) h)

theorem quiet_extendFields {fields : List FieldDescriptor} {errors : List DescriptorError}
    (h : w.extendFields b index fields = .ok (errors, w')) : Quiet w w' :=
  extendFields_induction (fun _ _ _ _ _ _ hquiet hrun => hquiet.trans (quiet_appendField hrun))
    (.refl w) h

theorem quiet_moveNumberedInput {source target : Nat}
    (h : w.moveNumberedInput b source target = .ok w') : Quiet w w' := by
  obtain ⟨_, _, -, -, rfl⟩ := moveNumberedInput_cases h
  exact ⟨rfl, rfl, rfl⟩

theorem quiet_moveInput {before : Option String} (h : w.moveInput b name before = .ok w') :
    Quiet w w' := by
  rcases moveInput_cases h with rfl | ⟨source, target, h⟩
  · exact .refl w'
  · exact quiet_moveNumberedInput h

/-! ## Loading -/

theorem quiet_loadField {value : Json} (h : w.loadField b name value = .ok (error, w')) :
    Quiet w w' := by
  rcases loadField_cases h with rfl | ⟨block, -, ⟨v, text, -, h⟩ | ⟨loaded, -, -, h⟩⟩
  · exact .refl w'
  · exact .of_modifyVariable h
  · exact .of_modifyBlock h

theorem quiet_loadFields {fields : List (String × Json)}
    (h : w.loadFields b fields = .ok (error, w')) : Quiet w w' :=
  loadFields_induction (fun hquiet hrun => hquiet.trans (quiet_loadField hrun)) (.refl w) h

theorem quiet_loadProperties {saved : SavedBlock} (h : w.loadProperties saved = .ok w') :
    Quiet w w' :=
  .of_modifyBlock h

/-! ## Types -/

theorem typesClosed_quiet (w : Workspace) : TypesClosed (Quiet w) where
  slot h hrun := h.trans (.of_modifyConnection hrun)
  bound h hrun := by
    simp only [setVariableType, bind_eq_ok] at hrun
    obtain ⟨_, -, _, -, hrun⟩ := hrun
    exact h.trans (.of_modifyVariable hrun)

theorem quiet_declareTypesIfTyped (h : w.declareTypesIfTyped b = .ok w') : Quiet w w' := by
  unfold declareTypesIfTyped at h
  split at h
  · exact (typesClosed_quiet w).declareTypes (fun _ _ => ⟨rfl, rfl, rfl⟩) h
  · cases h
    exact .refl w

/-! ## Parting and releasing -/

theorem placeClosed_quiet (w : Workspace) : PlaceClosed (Quiet w) where
  place h hrun _ := h.trans (.of_modifyBlock hrun)
  aim h hrun := h.trans (.of_modifyConnection hrun)
  list _ _ h := h.trans ⟨rfl, rfl, rfl⟩

theorem quiet_setParent {parent : Option BlockId} (h : w.setParent child parent = .ok w') :
    Quiet w w' :=
  (placeClosed_quiet w).setParent (.refl w) h

theorem quiet_disposeConnection (h : w.disposeConnection c = .ok w') : Quiet w w' := by
  simp only [disposeConnection, bind_eq_ok] at h
  obtain ⟨connection, -, _, -, h⟩ := h
  cases h
  exact ⟨rfl, rfl, rfl⟩

theorem quiet_disposeVariable (h : w.disposeVariable v = .ok w') : Quiet w w' := by
  simp only [disposeVariable, bind_eq_ok] at h
  obtain ⟨found, -, h⟩ := h
  cases h
  exact ⟨rfl, rfl, rfl⟩

theorem quiet_dropInput {w1 w2 : Workspace} {vs : List VariableId} {cs : List ConnectionId}
    (h1 : w.modifyBlock b f = .ok w1) (h2 : vs.foldlM disposeVariable w1 = .ok w2)
    (h : cs.foldlM disposeConnection w2 = .ok w') : Quiet w w' :=
  (Quiet.of_modifyBlock h1).trans ((Quiet.of_foldlM (fun _ _ _ => quiet_disposeVariable) h2).trans
    (.of_foldlM (fun _ _ _ => quiet_disposeConnection) h))

/-- Two connections are parted before it is announced, if it is. -/
theorem exists_parted {announce : Bool} {parent : BlockId}
    (h : w.unlink c announce = .ok ((parent, child), w')) :
    ∃ w1, Quiet w w1 ∧ ((announce = false ∧ w' = w1) ∨ (announce = true ∧
      ∃ t i o socket plug above offset, (w.connections[c]?.bind Connection.target) = some t ∧
        w.orient c t = .ok (i, o) ∧ w.connections[i]? = some socket ∧ socket.block = parent ∧
        w.connections[o]? = some plug ∧ plug.block = child ∧ w.blocks[parent]? = some above ∧
        w' = w1.fire (.move child { parent := some parent, input := above.inputNameOf? i }
          { coordinate := some offset }))) := by
  simp only [Workspace.unlink, bind_eq_ok, getConnection_eq_ok] at h
  obtain ⟨connection, hc, h⟩ := h
  split at h
  · cases h
  · rename_i t ht
    simp only [bind_eq_ok, getConnection_eq_ok, getBlock_eq_ok] at h
    obtain ⟨⟨i, o⟩, horient, socket, hi, plug, ho, above, habove, w1, h1, w2, h2, w3, h3, h⟩ := h
    have hregister : Quiet w2 ((w2.register i).register o) := ⟨rfl, rfl, rfl⟩
    have hquiet : Quiet w w3 := (Quiet.of_modifyConnection h1).trans
      ((Quiet.of_modifyConnection h2).trans (hregister.trans (quiet_setParent h3)))
    split at h
    · rename_i hannounce
      obtain ⟨block, -, h⟩ := bind_eq_ok.1 h
      cases h
      exact ⟨w3, hquiet,
        .inr ⟨hannounce, t, i, o, socket, plug, above, block.offset, by simp [hc, ht], horient, hi,
          rfl, ho, rfl, habove, rfl⟩⟩
    · rename_i hannounce
      cases h
      exact ⟨_, hquiet, .inl ⟨by simpa using hannounce, rfl⟩⟩

theorem quiet_sever (h : w.sever b = .ok w') : Quiet w w' := by
  rcases sever_cases h with ⟨-, rfl⟩ | ⟨-, c, ⟨parent, child⟩, -, -, hunlink⟩
  · exact .refl w'
  · obtain ⟨w2, hquiet, ⟨-, rfl⟩ | ⟨hannounce, -⟩⟩ := exists_parted hunlink
    · exact hquiet
    · cases hannounce

theorem quiet_release (h : w.release b = .ok w') : Quiet w w' := by
  simp only [release, bind_eq_ok] at h
  obtain ⟨w1, h1, block, -, w2, h2, w3, h3, h⟩ := h
  cases h
  have hquiet : Quiet w w3 := (quiet_sever h1).trans
    ((Quiet.of_foldlM (fun _ _ _ => quiet_disposeConnection) h2).trans
      (.of_foldlM (fun _ _ _ => quiet_disposeVariable) h3))
  exact hquiet.trans ⟨rfl, rfl, rfl⟩

end BlockGraph.Workspace
