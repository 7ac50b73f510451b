import BlockGraph.Proofs.Workspace.Quiet
import BlockGraph.Proofs.Workspace.Runs

/-!
# Options

The options of a workspace are chosen when it is made.  No call changes them (`options_run`), so
that along a run either every workspace is typed or none is.  Between two refreshes also the size
that the type table had when it was last rebuilt stays (`settings_stride`).
-/

namespace BlockGraph.Workspace

variable {w w' : Workspace} {b : BlockId} {call : Call}

theorem settings_fire (w : Workspace) (event : Event) : (w.fire event).settings = w.settings := rfl

theorem linkClosed_settings (s : Options × Nat) : LinkClosed fun w => w.settings = s where
  place h hrun _ := (Quiet.of_modifyBlock hrun).settings.trans h
  aim h hrun := (Quiet.of_modifyConnection hrun).settings.trans h
  list _ _ h := h
  fire _ _ _ h := h

theorem settings_newBlockWithId {kind : Kind} {id : BlockId}
    (h : w.newBlockWithId kind id = .ok w') :
    w'.settings = w.settings := by
  simp only [newBlockWithId, bind_eq_ok] at h
  obtain ⟨_, -, w1, h1, w2, h2, h⟩ := h
  cases h
  exact ((quiet_applyLayout h1).trans (quiet_declareTypesIfTyped h2)).settings.trans rfl

/-! ## Strides -/

theorem settings_stride (h : w.Stride w') : w'.settings = w.settings := by
  have hlink := linkClosed_settings w.settings
  cases h with
  | join hgate hca hapart horient hrun => exact hlink.link rfl hrun
  | part hrun => exact hlink.unlink rfl hrun
  | heal habove hbelow hrun => exact unplugHealing_induction hlink.link hlink.unlink rfl hrun
  | erase hrun =>
    exact (settings_fire _ _).trans (Quiet.of_foldlM (fun _ _ _ => quiet_release) hrun).settings
  | recheck hc hrun hpasses => exact (Quiet.of_modifyConnection hrun).settings
  | expel h1 hrun => exact hlink.unlink (Quiet.of_modifyConnection h1).settings hrun
  | appendInput hrun => exact (quiet_appendInput hrun).settings
  | extend h1 hrun => exact ((quiet_appendInput h1).trans (quiet_extendFields hrun)).settings
  | dropInput hblock h1 h2 hrun => exact (quiet_dropInput h1 h2 hrun).settings
  | events events => rfl
  | rename hrun => exact (Quiet.of_modifyVariable hrun).settings
  | newBlockWithId hrun => exact settings_newBlockWithId hrun
  | loadField hrun => exact (quiet_loadField hrun).settings
  | loadProperties hrun => exact (quiet_loadProperties hrun).settings
  | attach hrun =>
    rcases attach_cases hrun with ⟨-, rfl⟩ | ⟨-, _, _, -, -, -, hrun⟩
    · rfl
    · exact hlink.link rfl hrun

theorem loadClosed_options (o : Options) : LoadClosed fun w => w.options = o :=
  .of_strides (fun h hrun => (rest_refresh hrun).1.trans h) fun h hs =>
    (congrArg Prod.fst (settings_stride hs)).trans h

/-! ## Calls -/

theorem Restyled.settings {f : Block → Block} (h : Restyled b f w w') :
    w'.settings = w.settings := by
  obtain ⟨w1, h1, rfl | ⟨_, _, _, rfl⟩⟩ := h
  · exact (Quiet.of_modifyBlock h1).settings
  · exact (settings_fire w1 _).trans (Quiet.of_modifyBlock h1).settings

theorem Call.Restyles.settings (hcall : call.Restyles) (h : call.run w = .ok w') :
    w'.settings = w.settings := by
  cases call with
  | newValue b name =>
    cases h
    exact (quiet_newValue w b name).settings
  | newReference b name =>
    cases h
    rfl
  | appendField b index field => exact (quiet_appendField h).settings
  | setFieldValue b name value => exact Restyled.settings (.of_setFieldValue h)
  | setDisabled b value | setCollapsed b value | setComment b value =>
    exact Restyled.settings (.of_change h)
  | moveBy b dx dy =>
    simp only [run, Workspace.moveBy, bind_eq_ok] at h
    obtain ⟨_, -, _, -, w1, h1, h⟩ := h
    cases h
    exact (settings_fire w1 _).trans (Quiet.of_modifyBlock h1).settings
  | resolveReferences b at? =>
    obtain ⟨_, h⟩ := exists_answer h
    rw [(binds_resolveReferences h).rest]
    rfl
  | rebind b =>
    obtain ⟨_, h⟩ := exists_answer h
    rw [(binds_rebind h).rest]
    rfl
  | _ => exact hcall.elim

/-- No call changes the options. -/
theorem options_run (h : call.run w = .ok w') : w'.options = w.options := by
  rcases call.sorts with hsort | hsort | hsort | hsort
  · exact (loadClosed_options w.options).run hsort rfl h
  · rw [(hsort.retypes h).rest]
  · exact congrArg Prod.fst (hsort.settings h)
  cases call with
  | declareOutput b check => exact congrArg Prod.fst (quiet_declareOutput h).settings
  | declarePrevious b check => exact congrArg Prod.fst (quiet_declarePrevious h).settings
  | declareNext b check => exact congrArg Prod.fst (quiet_declareNext h).settings
  | moveInput b name before => exact congrArg Prod.fst (quiet_moveInput h).settings
  | moveNumberedInput b source target =>
    exact congrArg Prod.fst (quiet_moveNumberedInput h).settings
  | _ => exact hsort.elim

theorem isTyped_run (h : call.run w = .ok w') : w'.isTyped = w.isTyped := by
  rw [isTyped, options_run h, isTyped]

end BlockGraph.Workspace
