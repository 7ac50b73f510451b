import BlockGraph.Proofs.Workspace.Loading

/-!
# Runs

`Workspace.Call` lists the calls that change a workspace, and `Workspace.Reachable` the workspaces
that they lead to from an empty one.  A call that ends in a fault ends the run; the only restriction
beside that is that an output, a previous or a next connection is declared only for a block that has
none.

`InOrder.run` puts the operations together: one call keeps the order of a workspace.  So every
reachable workspace is in order (`Reachable.inOrder`).
-/

namespace BlockGraph.Workspace

/-- A call that changes a workspace. -/
inductive Call where
  | newBlock (kind : Kind)
  | newBlockWithId (kind : Kind) (id : BlockId)
  | declareOutput (b : BlockId) (check : Check)
  | declarePrevious (b : BlockId) (check : Check)
  | declareNext (b : BlockId) (check : Check)
  | newValue (b : BlockId) (name : String)
  | newReference (b : BlockId) (name : String)
  | appendInput (b : BlockId) (kind : InputKind) (name : String) (check : Check)
  | appendField (b : BlockId) (index : Nat) (field : Field)
  | removeInput (b : BlockId) (name : String)
  | moveInput (b : BlockId) (name : String) (before : Option String)
  | moveNumberedInput (b : BlockId) (source target : Nat)
  | setItemCount (b : BlockId) (count : Nat)
  | applyDescriptor (b : BlockId) (d : Descriptor)
  | connect (a b : ConnectionId)
  | disconnect (c : ConnectionId)
  | setCheck (c : ConnectionId) (check : Check)
  | unplug (b : BlockId) (heal : Bool)
  | dispose (b : BlockId) (heal : Bool)
  | delete (b : BlockId)
  | setFieldValue (b : BlockId) (name : String) (value : FieldValue)
  | renameVariable (b : BlockId) (field name : String)
  | setDisabled (b : BlockId) (value : Bool)
  | setCollapsed (b : BlockId) (value : Bool)
  | setComment (b : BlockId) (comment : Option String)
  | moveBy (b : BlockId) (dx dy : Float)
  | fromRecord (record : Record)
  | resolveReferences (b : BlockId) (at? : Option ConnectionId)
  | rebind (b : BlockId)
  | freshType
  | setOutputType (b : BlockId) (ty : Ty)
  | setInputType (b : BlockId) (name : String) (ty : Ty)
  | setVariableType (v : VariableId) (ty : Ty)
  | clearTypes (root : BlockId)
  | infer (root : BlockId)
  | reinfer (root : BlockId)
  | unifyInputs (b : BlockId)
  | recordUnify (c : ConnectionId) (expected found : Ty) (origin : Origin)
  | transplantTypes (this other : BlockId)
  | refresh (blocks : List BlockId)
  | subscribe
  | setEventsEnabled (enabled : Bool)
  | fire (event : Event)
  | beginBatch
  | endBatch (token : BatchToken)

/-- The workspace after a call, whatever the call answers. -/
def Call.run (w : Workspace) : Call → Except Fault Workspace
  | newBlock kind => do return (← w.newBlock kind).2
  | newBlockWithId kind id => w.newBlockWithId kind id
  | declareOutput b check => w.declareOutput b check
  | declarePrevious b check => w.declarePrevious b check
  | declareNext b check => w.declareNext b check
  | newValue b name => .ok (w.newValue b name).2
  | newReference b name => .ok (w.newReference b name).2
  | appendInput b kind name check => do return (← w.appendInput b kind name check).2
  | appendField b index field => w.appendField b index field
  | removeInput b name => w.removeInput b name
  | moveInput b name before => w.moveInput b name before
  | moveNumberedInput b source target => w.moveNumberedInput b source target
  | setItemCount b count => w.setItemCount b count
  | applyDescriptor b d => do return (← w.applyDescriptor b d).2
  | connect a b => do return (← w.connect a b).2
  | disconnect c => w.disconnect c
  | setCheck c check => w.setCheck c check
  | unplug b heal => w.unplug b heal
  | dispose b heal => w.dispose b heal
  | delete b => w.delete b
  | setFieldValue b name value => w.setFieldValue b name value
  | renameVariable b field name => w.renameVariable b field name
  | setDisabled b value => w.setDisabled b value
  | setCollapsed b value => w.setCollapsed b value
  | setComment b comment => w.setComment b comment
  | moveBy b dx dy => w.moveBy b dx dy
  | fromRecord record => do return (← w.fromRecord record).2
  | resolveReferences b at? => do return (← w.resolveReferences b at?).2
  | rebind b => do return (← w.rebind b).2
  | freshType => .ok w.freshType.2
  | setOutputType b ty => w.setOutputType b ty
  | setInputType b name ty => w.setInputType b name ty
  | setVariableType v ty => w.setVariableType v ty
  | clearTypes root => w.clearTypes root
  | infer root => do return (← w.infer root).2
  | reinfer root => do return (← w.reinfer root).2
  | unifyInputs b => w.unifyInputs b
  | recordUnify c expected found origin => w.recordUnify c expected found origin
  | transplantTypes this other => w.transplantTypes this other
  | refresh blocks => w.refresh blocks
  | subscribe => .ok w.subscribe.2
  | setEventsEnabled enabled => .ok (w.setEventsEnabled enabled)
  | fire event => .ok (w.fire event)
  | beginBatch => .ok w.beginBatch.2
  | endBatch token => w.endBatch token

/-- An output, a previous or a next connection is declared only where there is none. -/
def Call.Permitted (w : Workspace) : Call → Prop
  | declareOutput b _ => ∀ block, w.blocks[b]? = some block → block.output = none
  | declarePrevious b _ => ∀ block, w.blocks[b]? = some block → block.previous = none
  | declareNext b _ => ∀ block, w.blocks[b]? = some block → block.next = none
  | _ => True

/-- The workspaces that calls lead to from an empty one. -/
inductive Reachable : Workspace → Prop where
  | new (options : Options) : Reachable (Workspace.new options)
  | call {w w' : Workspace} (call : Call) (hw : Reachable w) (hcall : call.Permitted w)
      (hrun : call.run w = .ok w') : Reachable w'

variable {w w' : Workspace} {call : Call} {P : Workspace → Prop}

/-! ## Sorts of calls -/

/-- Whatever a call answers, it ends. -/
theorem exists_answer {α : Type} {x : Except Fault (α × Workspace)}
    (h : (do return (← x).2) = Except.ok (ε := Fault) w') : ∃ a, x = .ok (a, w') := by
  obtain ⟨⟨a, v⟩, hx, hv⟩ := bind_eq_ok.1 h
  cases hv
  exact ⟨a, hx⟩

/-- A new block has the next number. -/
theorem newBlockWithId_of_newBlock {kind : Kind} (h : (Call.newBlock kind).run w = .ok w') :
    w.newBlockWithId kind ⟨w.nextBlock⟩ = .ok w' := by
  obtain ⟨id, h⟩ := exists_answer h
  obtain ⟨v, hv, h⟩ := bind_eq_ok.1 h
  cases h
  exact hv

/-- Calls on the bus. -/
def Call.ConcernsBus : Call → Prop
  | subscribe | setEventsEnabled _ | fire _ | beginBatch | endBatch _ => True
  | _ => False

/-- Calls on the bus change nothing else. -/
theorem Call.ConcernsBus.exists_events (hbus : call.ConcernsBus) (h : call.run w = .ok w') :
    ∃ events, w' = { w with events } := by
  cases call with
  | subscribe | setEventsEnabled enabled | fire event | beginBatch =>
    cases h
    exact ⟨_, rfl⟩
  | endBatch token =>
    obtain ⟨events, -, h⟩ := bind_eq_ok.1 h
    cases h
    exact ⟨events, rfl⟩
  | _ => exact hbus.elim

/-- Calls that change types only. -/
def Call.ConcernsTypes : Call → Prop
  | freshType | setOutputType _ _ | setInputType _ _ _ | setVariableType _ _ | clearTypes
    _ | infer _
  | reinfer _ | unifyInputs _ | recordUnify _ _ _ _ | transplantTypes _ _ => True
  | _ => False

theorem Call.ConcernsTypes.retypes (hcall : call.ConcernsTypes) (h : call.run w = .ok w') :
    Retypes w w' := by
  cases call with
  | freshType =>
    cases h
    exact retypes_freshType w
  | setOutputType b ty => exact retypes_setOutputType h
  | setInputType b name ty => exact retypes_setInputType h
  | setVariableType v ty => exact retypes_setVariableType h
  | clearTypes root => exact retypes_clearTypes h
  | infer root => exact (exists_answer h).elim fun _ => retypes_infer
  | reinfer root => exact (exists_answer h).elim fun _ => retypes_reinfer
  | unifyInputs b => exact retypes_unifyInputs h
  | recordUnify c expected found origin => exact retypes_recordUnify h
  | transplantTypes this other => exact retypes_transplantTypes h
  | _ => exact hcall.elim

/-- Calls that join, part and dispose of blocks and their inputs. -/
def Call.Reshapes : Call → Prop
  | appendInput _ _ _ _ | removeInput _ _ | setItemCount _ _ | applyDescriptor _ _ | connect _ _
  | disconnect _ | setCheck _ _ | unplug _ _ | dispose _ _ | delete _ | refresh _ => True
  | _ => False

theorem InputClosed.run (hP : InputClosed P) (hcall : call.Reshapes) (hw : P w)
    (h : call.run w = .ok w') :
    P w' := by
  cases call with
  | appendInput b kind name check => exact (exists_answer h).elim fun _ => hP.appendInput hw
  | removeInput b name => exact hP.removeInput hw h
  | setItemCount b count => exact hP.setItemCount hw h
  | applyDescriptor b d => exact (exists_answer h).elim fun _ => hP.applyDescriptor hw
  | connect a b => exact (exists_answer h).elim fun _ => hP.connect hw
  | disconnect c => exact hP.disconnect hw h
  | setCheck c check => exact hP.setCheck hw h
  | unplug b heal => exact hP.unplug hw h
  | dispose b heal | delete b => exact hP.dispose hw h
  | refresh blocks => exact hP.refresh hw h
  | _ => exact hcall.elim

/-- Calls that make blocks and name variables. -/
def Call.Loads : Call → Prop
  | newBlock _ | newBlockWithId _ _ | renameVariable _ _ _ | fromRecord _ => True
  | _ => False

theorem LoadClosed.run (hP : LoadClosed P) (hcall : call.Reshapes ∨ call.Loads ∨ call.ConcernsBus)
    (hw : P w) (h : call.run w = .ok w') : P w' := by
  rcases hcall with hcall | hcall | hcall
  · exact hP.toInputClosed.run hcall hw h
  · cases call with
    | newBlock kind => exact hP.newBlockWithId hw (newBlockWithId_of_newBlock h)
    | newBlockWithId kind id => exact hP.newBlockWithId hw h
    | renameVariable b field name => exact hP.fileClosed.renameVariable hw h
    | fromRecord record => exact (exists_answer h).elim fun _ => hP.fileClosed.fromRecord hw
    | _ => exact hcall.elim
  · obtain ⟨events, rfl⟩ := hcall.exists_events h
    exact hP.events events hw

/-- Calls that change what a block shows and holds. -/
def Call.Restyles : Call → Prop
  | newValue _ _ | newReference _ _ | appendField _ _ _ | setFieldValue _ _ _ | setDisabled _ _
  | setCollapsed _ _ | setComment _ _ | moveBy _ _ _ | resolveReferences _ _ | rebind _ => True
  | _ => False

theorem Call.Restyles.keeps (hcall : call.Restyles) (h : call.run w = .ok w') : Keeps w w' := by
  cases call with
  | newValue b name =>
    cases h
    exact keeps_newValue w b name
  | newReference b name =>
    cases h
    exact keeps_newReference w b name
  | appendField b index field => exact keeps_appendField h
  | setFieldValue b name value =>
    exact Restyled.keeps (.of_setFieldValue h) (·.frame_setField name value)
  | setDisabled b value | setCollapsed b value | setComment b value =>
    exact Restyled.keeps (.of_change h) fun _ => rfl
  | moveBy b dx dy => exact keeps_moveBy h
  | resolveReferences b at? => exact (exists_answer h).elim fun _ => keeps_resolveReferences
  | rebind b => exact (exists_answer h).elim fun _ => keeps_rebind
  | _ => exact hcall.elim

/-- Calls that change the connections of a block or move its inputs. -/
def Call.Reframes : Call → Prop
  | declareOutput _ _ | declarePrevious _ _ | declareNext _ _ | moveInput _ _ _
  | moveNumberedInput _ _ _ => True
  | _ => False

theorem Call.sorts (call : Call) : (call.Reshapes ∨ call.Loads ∨ call.ConcernsBus) ∨
    call.ConcernsTypes ∨ call.Restyles ∨ call.Reframes := by
  cases call <;> simp [Reshapes, Loads, ConcernsBus, ConcernsTypes, Restyles, Reframes]

/-! ## Order along a run -/

theorem InOrder.new (options : Options) : (Workspace.new options).InOrder := by
  have hframe : ∀ b f, (Workspace.new options).skeleton.frame b ≠ some f := by
    intro b f h
    obtain ⟨block, hblock, -⟩ := frame_eq_some_iff.1 h
    simp [Workspace.new] at hblock
  have hjoint : ∀ c j, (Workspace.new options).skeleton.joint c ≠ some j := by
    intro c j h
    obtain ⟨connection, hconnection, -⟩ := joint_eq_some_iff.1 h
    simp [Workspace.new] at hconnection
  have hfree : ∀ c, (Workspace.new options).skeleton.free c = false := by
    simp [Workspace.new, skeleton, Registry.contains, Registry.empty]
  exact ⟨Skeleton.formed_of_empty hframe hjoint hfree rfl, fun _ _ _ _ hj => absurd hj (hjoint _ _),
    Table.sound_empty⟩

/-- One call keeps the order of a workspace. -/
theorem InOrder.run (hw : w.InOrder) (hcall : call.Permitted w) (h : call.run w = .ok w') :
    w'.InOrder := by
  rcases call.sorts with hsort | hsort | hsort | hsort
  · exact loadClosed_inOrder.run hsort hw h
  · exact hw.keeps (hsort.retypes h).keeps
  · exact hw.keeps (hsort.keeps h)
  cases call with
  | declareOutput b check => exact hw.declareOutput hcall h
  | declarePrevious b check => exact (hw.declarePrevious hcall h).1
  | declareNext b check => exact hw.declareNext hcall h
  | moveInput b name before => exact hw.moveInput h
  | moveNumberedInput b source target => exact hw.moveNumberedInput h
  | _ => exact hsort.elim

theorem Reachable.inOrder (hw : w.Reachable) : w.InOrder := by
  induction hw with
  | new options => exact .new options
  | call call hw hcall hrun ih => exact ih.run hcall hrun

theorem Reachable.foldlM (hw : w.Reachable) {calls : List Call}
    (hcalls : ∀ call ∈ calls, ∀ w, call.Permitted w) (h : calls.foldlM Call.run w = .ok w') :
    w'.Reachable :=
  foldlM_induction (fun call hcall v _ hv hrun => hv.call call (hcalls call hcall v) hrun) hw h

end BlockGraph.Workspace
