import BlockGraph.Proofs.Ty.Descent
import BlockGraph.Proofs.Workspace.Skeleton

/-!
# Inference leaves the graph alone

Clearing and inferring change types and errors and nothing else.  `Workspace.Retypes` says so once
and for all of a workspace and the one after: blocks, events and the rest are equal, connections are
equal up to type and error, variables up to their types, and the type table stays sound.  Every
operation of inference is a chain of steps that retype.
-/

namespace BlockGraph

variable {b : BlockId} {c : ConnectionId} {v : VariableId} {old : Connection} {ty : Option Ty}
  {α : Type} {f : Ty → Ty} {g : Seat × Ty}

namespace Variable

/-- A variable without its type. -/
def untyped (v : Variable) : Variable :=
  match v.role with
  | .value _ => { v with role := .value none }
  | .reference _ => v

theorem name_untyped (v : Variable) : v.untyped.name = v.name := by
  obtain ⟨name, block, role⟩ := v
  cases role <;> rfl

theorem block_untyped (v : Variable) : v.untyped.block = v.block := by
  obtain ⟨name, block, role⟩ := v
  cases role <;> rfl

theorem isReference_untyped (v : Variable) : v.untyped.isReference = v.isReference := by
  obtain ⟨name, block, role⟩ := v
  cases role <;> rfl

theorem binding?_untyped (v : Variable) : v.untyped.binding? = v.binding? := by
  obtain ⟨name, block, role⟩ := v
  cases role <;> rfl

theorem untyped_untyped (v : Variable) : v.untyped.untyped = v.untyped := by
  obtain ⟨name, block, role⟩ := v
  cases role <;> rfl

section Untyped

variable {v v' : Variable} (h : v'.untyped = v.untyped)
include h

theorem name_of_untyped : v'.name = v.name := by rw [← name_untyped, h, name_untyped]

theorem block_of_untyped : v'.block = v.block := by rw [← block_untyped, h, block_untyped]

theorem isReference_of_untyped : v'.isReference = v.isReference := by
  rw [← isReference_untyped, h, isReference_untyped]

theorem binding?_of_untyped : v'.binding? = v.binding? :=
  by rw [← binding?_untyped, h, binding?_untyped]

end Untyped

end Variable

/-- A part of a block that its kind may give a type to: the variable that it declares, an input, the
output. -/
inductive Seat where
  | own
  | input (name : String)
  | output

/-- The schemes that a block gets from its kind, in the order in which it gets them. -/
def Block.grants (block : Block) : List (Seat × Ty) :=
  block.kind.signature.binder.toList.map
    (.own, ·) ++ (block.kind.signature.inputs.map fun p => (.input p.1, p.2)) ++
    (block.kind.signature.items.toList.flatMap fun ty => block.itemNames.map (.input ·, ty)) ++
    block.kind.signature.output.toList.map (.output, ·)

namespace Workspace

variable {w w' w'' : Workspace} {root : BlockId} {input : Input} {name : String}
  {expected found : Ty} {origin : Origin}

/-- Types and errors may differ, and nothing else. -/
structure Retypes (w w' : Workspace) : Prop where
  rest : w' = { w with
    connections := w'.connections
    vars := w'.vars
    types := w'.types
    baseline := w'.baseline }
  joint : ∀ c : ConnectionId, w'.connections[c]?.map Connection.joint =
    w.connections[c]?.map Connection.joint
  untyped : ∀ v : VariableId, w'.vars[v]?.map Variable.untyped = w.vars[v]?.map Variable.untyped
  sound : w.types.Sound → w'.types.Sound

/-- Types and errors apart, the graph is the same. -/
structure SameGraph (w w' : Workspace) : Prop where
  blocks : w'.blocks = w.blocks
  joint : ∀ c : ConnectionId, w'.connections[c]?.map Connection.joint =
    w.connections[c]?.map Connection.joint
  untyped : ∀ v : VariableId, w'.vars[v]?.map Variable.untyped = w.vars[v]?.map Variable.untyped

namespace SameGraph

variable (h : SameGraph w w')
include h

theorem symm : SameGraph w' w :=
  ⟨h.blocks.symm, fun c => (h.joint c).symm, fun v => (h.untyped v).symm⟩

theorem ownVariable_eq (b : BlockId) : w'.ownVariable b = w.ownVariable b := by
  simp only [ownVariable, fieldVariable?, getBlock, h.blocks]

theorem connection (hc : w.connections[c]? = some old) :
    ∃ new, w'.connections[c]? = some new ∧ new.block = old.block ∧ new.kind = old.kind ∧
      new.target = old.target := by
  obtain ⟨new, hnew, heq⟩ := exists_of_map_eq (h.joint c) hc
  exact ⟨new, hnew, congrArg Joint.block heq, congrArg Joint.kind heq, congrArg Joint.target heq⟩

theorem var {old : Variable} (hv : w.vars[v]? = some old) :
    ∃ new, w'.vars[v]? = some new ∧ new.untyped = old.untyped := by
  exact exists_of_map_eq (h.untyped v) hv

end SameGraph

/-- Nothing but types, errors and variables differs. -/
structure Retouches (w w' : Workspace) : Prop where
  rest : w' = { w with
    connections := w'.connections
    vars := w'.vars
    types := w'.types
    baseline := w'.baseline }
  joint : ∀ c : ConnectionId, w'.connections[c]?.map Connection.joint =
    w.connections[c]?.map Connection.joint
  sound : w.types.Sound → w'.types.Sound

namespace Retouches

theorem refl (w : Workspace) : Retouches w w := ⟨rfl, fun _ => rfl, fun h => h⟩

theorem trans (h : Retouches w w') (h' : Retouches w' w'') : Retouches w w'' where
  rest := by rw [h'.rest, h.rest]
  joint c := (h'.joint c).trans (h.joint c)
  sound hw := h'.sound (h.sound hw)

theorem of_modifyVariable {f : Variable → Variable} (h : w.modifyVariable v f = .ok w') :
    Retouches w w' := by
  obtain ⟨found, -, rfl⟩ := modifyVariable_eq_ok.1 h
  exact ⟨rfl, fun _ => rfl, fun h => h⟩

theorem of_foldlM {f : Workspace → α → Except Fault Workspace} {l : List α}
    (hf : ∀ a w w', f w a = .ok w' → Retouches w w') (h : l.foldlM f w = .ok w') : Retouches w w' :=
  foldlM_induction (P := Retouches w) (fun a _ v v' hv hstep => hv.trans (hf a v v' hstep))
    (refl w) h

theorem skeleton_eq (h : Retouches w w') : w'.skeleton = w.skeleton := by
  refine Skeleton.ext ?_ (funext h.joint) ?_ ?_ ?_
  · rw [h.rest]; rfl
  · rw [h.rest]; rfl
  · rw [h.rest]; rfl
  · rw [h.rest]; rfl

end Retouches

namespace Retypes

theorem refl (w : Workspace) : Retypes w w := ⟨rfl, fun _ => rfl, fun _ => rfl, fun h => h⟩

theorem trans (h : Retypes w w') (h' : Retypes w' w'') : Retypes w w'' where
  rest := by rw [h'.rest, h.rest]
  joint c := (h'.joint c).trans (h.joint c)
  untyped v := (h'.untyped v).trans (h.untyped v)
  sound hw := h'.sound (h.sound hw)

theorem retouches (h : Retypes w w') : Retouches w w' := ⟨h.rest, h.joint, h.sound⟩

theorem sameGraph (h : Retypes w w') : SameGraph w w' := ⟨by rw [h.rest], h.joint, h.untyped⟩

theorem of_types {types : Table} (h : w.types.Sound → types.Sound) : Retypes w { w with types } :=
  ⟨rfl, fun _ => rfl, fun _ => rfl, h⟩

/-- A connection may be entered again with another type and error. -/
theorem of_connection {new : Connection} (hc : w.connections[c]? = some old)
    (hjoint : new.joint = old.joint) :
    Retypes w { w with connections := w.connections.insert c new } where
  rest := rfl
  joint := congr_getElem?_insert (Option.map Connection.joint)
    (by rw [hc, Option.map_some, Option.map_some, hjoint])
  untyped _ := rfl
  sound h := h

theorem of_modifyConnection {f : Connection → Connection} (h : w.modifyConnection c f = .ok w')
    (hf : ∀ x, (f x).joint = x.joint) : Retypes w w' := by
  obtain ⟨connection, hc, rfl⟩ := modifyConnection_eq_ok.1 h
  exact of_connection hc (hf connection)

theorem of_foldlM {f : Workspace → α → Except Fault Workspace} {l : List α}
    (hf : ∀ a w w', f w a = .ok w' → Retypes w w') (h : l.foldlM f w = .ok w') : Retypes w w' :=
  foldlM_induction (P := Retypes w) (fun a _ v v' hv hstep => hv.trans (hf a v v' hstep)) (refl w) h

end Retypes

/-! ## Declared types -/

/-- Gives one part of a block its type. -/
def grant (b : BlockId) (f : Ty → Ty) (w : Workspace) : Seat × Ty → Except Fault Workspace
  | (.own, ty) => do w.setVariableType (← w.ownVariable b) (f ty)
  | (.input name, ty) => w.setInputType b name (f ty)
  | (.output, ty) => w.setOutputType b (f ty)

/-- What is kept when a connection or a declaration is given its type. -/
structure TypesClosed (P : Workspace → Prop) : Prop where
  slot : ∀ {w w' : Workspace} {c : ConnectionId} {ty : Ty}, P w →
    w.modifyConnection c ({ · with type := some ty }) = .ok w' → P w'
  bound : ∀ {w w' : Workspace} {v : VariableId} {ty : Ty}, P w → w.setVariableType v ty = .ok w' →
    P w'

namespace TypesClosed

variable {P : Workspace → Prop} (hP : TypesClosed P)
include hP

theorem setOutputType {ty : Ty} (hw : P w) (h : w.setOutputType b ty = .ok w') : P w' := by
  simp only [Workspace.setOutputType, bind_eq_ok] at h
  obtain ⟨block, -, h⟩ := h
  split at h
  · exact hP.slot hw h
  · cases h

theorem setInputType {ty : Ty} (hw : P w) (h : w.setInputType b name ty = .ok w') : P w' := by
  simp only [Workspace.setInputType, bind_eq_ok] at h
  obtain ⟨c, -, h⟩ := h
  split at h
  · exact hP.slot hw h
  · cases h

theorem grant (hw : P w) (h : w.grant b f g = .ok w') : P w' := by
  obtain ⟨_ | name | _, ty⟩ := g
  · obtain ⟨v, -, h⟩ := bind_eq_ok.1 h
    exact hP.bound hw h
  · exact hP.setInputType hw h
  · exact hP.setOutputType hw h

end TypesClosed

theorem retypes_setVariableType {ty : Ty} (h : w.setVariableType v ty = .ok w') : Retypes w w' := by
  simp only [setVariableType, bind_eq_ok, getVariable_eq_ok, require_eq_ok,
    modifyVariable_eq_ok] at h
  obtain ⟨found, hfound, -, hvalue, found', hfound', rfl⟩ := h
  rw [hfound] at hfound'
  cases hfound'
  refine ⟨rfl, fun _ => rfl, congr_getElem?_insert (Option.map Variable.untyped) ?_, fun h => h⟩
  rw [hfound, Option.map_some, Option.map_some]
  cases hrole : found.role with
  | value type => simp [Variable.untyped, hrole]
  | reference binding => simp [Variable.isReference, hrole] at hvalue

theorem typesClosed_retypes (w : Workspace) : TypesClosed (Retypes w) where
  slot hw h := hw.trans (.of_modifyConnection h fun _ => rfl)
  bound hw h := hw.trans (retypes_setVariableType h)

theorem retypes_setOutputType {ty : Ty} (h : w.setOutputType b ty = .ok w') : Retypes w w' :=
  (typesClosed_retypes w).setOutputType (.refl w) h

theorem retypes_setInputType {ty : Ty} (h : w.setInputType b name ty = .ok w') : Retypes w w' :=
  (typesClosed_retypes w).setInputType (.refl w) h

theorem retypes_grant (h : w.grant b f g = .ok w') : Retypes w w' :=
  (typesClosed_retypes w).grant (.refl w) h

theorem retypes_grants {l : List (Seat × Ty)} (h : l.foldlM (grant b f) w = .ok w') :
    Retypes w w' :=
  .of_foldlM (fun _ _ _ => retypes_grant) h

/-- A block gets its types one by one.  Its items are looked up on the way, when it is as it was
before. -/
theorem declareTypes_eq {block : Block} (hblock : w.blocks[b]? = some block) :
    w.declareTypes b = block.grants.foldlM (grant b (instantiate w.types.size))
      { w with types := (w.types.freshMany block.kind.signature.fresh).2 } := by
  have hbinder : ∀ (o : Option Ty) (f : Ty → Ty) (w : Workspace),
      w.setBinderType b (o.map f) = (o.toList.map (Seat.own, ·)).foldlM (grant b f) w := by
    rintro (_ | ty) f w
    · rfl
    · simp [setBinderType, grant, -pure_eq_ok]
  have hinputs : ∀ (l : List (String × Ty)) (f : Ty → Ty) (w : Workspace),
      w.setInputTypes b (l.map fun p => (p.1, f p.2)) =
        (l.map fun p => (Seat.input p.1, p.2)).foldlM (grant b f) w := by
    simp [setInputTypes, List.foldlM_map, grant]
  have houtput : ∀ (o : Option Ty) (f : Ty → Ty) (w : Workspace),
      w.setResultType b (o.map f) = (o.toList.map (Seat.output, ·)).foldlM (grant b f) w := by
    rintro (_ | ty) f w
    · rfl
    · simp [setResultType, grant, -pure_eq_ok]
  simp only [declareTypes, getBlock_eq_ok.2 hblock, ok_bind, Table.freshMany_fst, Block.grants,
    hbinder, hinputs, houtput, List.foldlM_append, bind_assoc]
  refine bind_congr_ok fun v1 h1 => bind_congr_ok fun v2 h2 => ?_
  have hlookup : v2.blocks[b]? = some block := by
    rw [(retypes_grants h2).sameGraph.blocks, (retypes_grants h1).sameGraph.blocks, hblock]
  cases block.kind.signature.items with
  | none => rfl
  | some ty => simp [setItemTypes, setInputTypes, getBlock_eq_ok.2 hlookup, List.foldlM_map, grant]

/-- A block takes its variables from the table before it is given types over them. -/
theorem TypesClosed.declareTypes {P : Workspace → Prop} (hP : TypesClosed P)
    (hfresh : ∀ block, w.blocks[b]? = some block →
      P { w with types := (w.types.freshMany block.kind.signature.fresh).2 })
    (h : w.declareTypes b = .ok w') : P w' := by
  obtain ⟨block, hblock, -⟩ := bind_eq_ok.1 h
  rw [getBlock_eq_ok] at hblock
  rw [declareTypes_eq hblock] at h
  exact foldlM_induction (fun _ _ _ _ hv hstep => hP.grant hv hstep) (hfresh block hblock) h

theorem retypes_declareTypes (h : w.declareTypes b = .ok w') : Retypes w w' :=
  (typesClosed_retypes w).declareTypes (fun _ _ => .of_types fun ht => ht.freshMany _) h

theorem retypes_declareTypesIfTyped (h : w.declareTypesIfTyped b = .ok w') : Retypes w w' := by
  unfold declareTypesIfTyped at h
  split at h
  · exact retypes_declareTypes h
  · cases h
    exact .refl w

/-! ## Clearing -/

theorem retypes_freshType (w : Workspace) : Retypes w w.freshType.2 := .of_types fun ht => ht.fresh

theorem retypes_clearConnection (w : Workspace) (c : ConnectionId) :
    Retypes w (w.clearConnection c) := by
  unfold clearConnection
  split
  · rename_i connection hc
    split
    · exact (retypes_freshType w).trans (.of_connection hc rfl)
    · exact .of_connection hc rfl
  · exact .refl w

theorem retypes_clearConnections (cs : List ConnectionId) :
    ∀ w : Workspace, Retypes w (cs.foldl clearConnection w) := by
  induction cs with
  | nil => exact .refl
  | cons c cs ih => exact fun w => (retypes_clearConnection w c).trans (ih _)

theorem retypes_clearBlock (h : w.clearBlock b = .ok w') : Retypes w w' := by
  simp only [clearBlock, bind_eq_ok] at h
  obtain ⟨block, -, h⟩ := h
  exact (retypes_clearConnections block.connections w).trans (retypes_declareTypes h)

theorem retypes_clearTypes (h : w.clearTypes root = .ok w') : Retypes w w' := by
  unfold clearTypes at h
  split at h
  · cases h
    exact .refl w
  · obtain ⟨order, -, h⟩ := bind_eq_ok.1 h
    exact .of_foldlM (fun _ _ _ => retypes_clearBlock) h

/-! ## Equations -/

/-- One equation changes the table, and may leave an error at the connection. -/
theorem recordUnify_cases (h : w.recordUnify c expected found origin = .ok w') : ∃ types,
      types = (w.types.unify expected found).table ∧ (w' = { w with types } ∨
        ∃ error, { w with types }.modifyConnection c ({ · with error := some error }) =
          .ok w') := by
  unfold recordUnify at h
  split at h
  · next hu =>
    cases h
    exact ⟨_, by rw [hu]; rfl, .inl rfl⟩
  · next hu => exact ⟨_, by rw [hu]; rfl, .inr ⟨_, h⟩⟩
  · cases h

/-- An input gives an equation at its socket, if any. -/
theorem unifyInput_cases (h : w.unifyInput b input = .ok w') : w' = w ∨
    ∃ c socket expected found origin, input.kind = .value ∧ input.connection = some c ∧
      w.connections[c]? = some socket ∧ w.recordUnify c expected found origin = .ok w' := by
  unfold unifyInput at h
  split at h
  · simp only [bind_eq_ok, getConnection_eq_ok] at h
    obtain ⟨socket, hsocket, h⟩ := h
    split at h
    · obtain ⟨plug, -, h⟩ := bind_eq_ok.1 h
      split at h
      · exact .inr ⟨_, socket, _, _, _, ‹_›, ‹_›, hsocket, h⟩
      · exact .inl (Except.ok.inj h).symm
    · exact .inl (Except.ok.inj h).symm
  · exact .inl (Except.ok.inj h).symm

/-- A use gives an equation at its output, if any. -/
theorem unifyReference_cases (h : w.unifyReference b = .ok w') : w' = w ∨
    ∃ block c connection expected found origin, w.blocks[b]? = some block ∧ block.output = some c ∧
      w.connections[c]? = some connection ∧ w.recordUnify c expected found origin = .ok w' := by
  simp only [unifyReference, bind_eq_ok] at h
  obtain ⟨_, -, h⟩ := h
  split at h
  · exact .inl (Except.ok.inj h).symm
  simp only [bind_eq_ok] at h
  obtain ⟨v, -, reference, -, h⟩ := h
  split at h
  · exact .inl (Except.ok.inj h).symm
  simp only [bind_eq_ok, getBlock_eq_ok] at h
  obtain ⟨_, -, block, hblock, h⟩ := h
  split at h
  · simp only [bind_eq_ok, getConnection_eq_ok] at h
    obtain ⟨connection, hc, h⟩ := h
    split at h
    · exact .inr ⟨block, _, connection, _, _, _, hblock, ‹_›, hc, h⟩
    · exact .inl (Except.ok.inj h).symm
  · exact .inl (Except.ok.inj h).symm

theorem retypes_recordUnify (h : w.recordUnify c expected found origin = .ok w') :
    Retypes w w' := by
  obtain ⟨types, rfl, hw'⟩ := recordUnify_cases h
  have htypes : Retypes w { w with types := (w.types.unify expected found).table } :=
    .of_types fun ht => (ht.unify_spec expected found).1
  rcases hw' with rfl | ⟨error, hw'⟩
  · exact htypes
  · exact htypes.trans (.of_modifyConnection hw' fun _ => rfl)

/-- What is kept when an equation is put up. -/
structure EquationsClosed (P : Workspace → Prop) : Prop where
  equation : ∀ {w w' : Workspace} {c : ConnectionId} {expected found : Ty} {origin : Origin}, P w →
    w.recordUnify c expected found origin = .ok w' → P w'

namespace EquationsClosed

variable {P : Workspace → Prop} (hP : EquationsClosed P)
include hP

theorem unifyInput (hw : P w) (h : w.unifyInput b input = .ok w') : P w' := by
  rcases unifyInput_cases h with rfl | ⟨_, _, _, _, _, -, -, -, h⟩
  · exact hw
  · exact hP.equation hw h

theorem unifyInputs (hw : P w) (h : w.unifyInputs b = .ok w') : P w' := by
  obtain ⟨block, -, h⟩ := bind_eq_ok.1 h
  exact foldlM_induction (fun _ _ _ _ hv hstep => hP.unifyInput hv hstep) hw h

theorem unifyReference (hw : P w) (h : w.unifyReference b = .ok w') : P w' := by
  rcases unifyReference_cases h with rfl | ⟨_, _, _, _, _, _, -, -, -, h⟩
  · exact hw
  · exact hP.equation hw h

/-- Both passes put up equations and do nothing else. -/
theorem infer (hw : P w) (h : w.infer root = .ok (ty, w')) : P w' := by
  unfold Workspace.infer at h
  split at h
  · cases h
    exact hw
  · simp only [bind_eq_ok] at h
    obtain ⟨order, -, w1, h1, w2, h2, ty', -, h⟩ := h
    cases h
    have hw1 : P w1 := foldlM_induction (fun _ _ _ _ hv hstep => hP.unifyInputs hv hstep) hw h1
    exact foldlM_induction (fun _ _ _ _ hv hstep => hP.unifyReference hv hstep) hw1 h2

end EquationsClosed

theorem equationsClosed_retypes (w : Workspace) : EquationsClosed (Retypes w) where
  equation hw h := hw.trans (retypes_recordUnify h)

theorem retypes_unifyInputs (h : w.unifyInputs b = .ok w') : Retypes w w' :=
  (equationsClosed_retypes w).unifyInputs (.refl w) h

theorem retypes_infer (h : w.infer root = .ok (ty, w')) : Retypes w w' :=
  (equationsClosed_retypes w).infer (.refl w) h

/-! ## Passes -/

theorem retypes_reinfer (h : w.reinfer root = .ok (ty, w')) : Retypes w w' := by
  simp only [reinfer, bind_eq_ok] at h
  obtain ⟨w1, h1, h⟩ := h
  exact (retypes_clearTypes h1).trans (retypes_infer h)

theorem retypes_reinferTree (h : w.reinferTree root = .ok w') : Retypes w w' := by
  simp only [reinferTree, bind_eq_ok] at h
  obtain ⟨⟨ty, w1⟩, h1, h⟩ := h
  cases h
  exact retypes_reinfer h1

theorem retypes_rebuildTypes (h : w.rebuildTypes = .ok w') : Retypes w w' := by
  simp only [rebuildTypes, bind_eq_ok] at h
  obtain ⟨w1, h1, h⟩ := h
  cases h
  have hempty : Retypes w { w with types := .empty } := .of_types fun _ => Table.sound_empty
  have hbaseline : Retypes w1 { w1 with baseline := w1.types.size } :=
    ⟨rfl, fun _ => rfl, fun _ => rfl, fun h => h⟩
  exact hempty.trans ((Retypes.of_foldlM (fun _ _ _ => retypes_reinferTree) h1).trans hbaseline)

theorem retypes_compactTypes (h : w.compactTypes = .ok w') : Retypes w w' := by
  unfold compactTypes at h
  split at h
  · cases h
    exact .refl w
  · exact retypes_rebuildTypes h

/-! ## Sharing types between trees -/

theorem retypes_copyTypes {pairs : List (ConnectionId × ConnectionId)}
    (h : w.copyTypes pairs = .ok w') : Retypes w w' := by
  refine .of_foldlM (fun pair v v' hstep => ?_) h
  simp only [bind_eq_ok] at hstep
  obtain ⟨source, -, hstep⟩ := hstep
  exact .of_modifyConnection hstep fun _ => rfl

theorem retypes_copyVariableTypes {pairs : List (VariableId × VariableId)}
    (h : w.copyVariableTypes pairs = .ok w') : Retypes w w' := by
  refine .of_foldlM (fun pair v v' hstep => ?_) h
  simp only [bind_eq_ok] at hstep
  obtain ⟨type, -, hstep⟩ := hstep
  split at hstep
  · exact retypes_setVariableType hstep
  · cases hstep
    exact .refl v

theorem retypes_transplantWithin {depth : Nat} :
    ∀ {pair : BlockId × BlockId} {w w' : Workspace}, w.transplantWithin depth pair = .ok w' →
      Retypes w w' := by
  induction depth with
  | zero =>
    intro pair w w' h
    cases h
    exact .refl w
  | succ depth ih =>
    rintro ⟨a, b⟩ w w' h
    simp only [transplantWithin, bind_eq_ok] at h
    obtain ⟨blockA, -, blockB, -, _, -, _, -, w1, h1, w2, h2, below, -, h⟩ := h
    exact (retypes_copyTypes h1).trans
      ((retypes_copyVariableTypes h2).trans (.of_foldlM (fun _ _ _ => ih) h))

theorem retypes_transplantTypes {this other : BlockId} (h : w.transplantTypes this other = .ok w') :
    Retypes w w' := by
  unfold transplantTypes at h
  split at h
  · cases h
    exact .refl w
  · simp only [bind_eq_ok] at h
    obtain ⟨w1, h1, root, -, ⟨ty, w2⟩, h2, h⟩ := h
    cases h
    exact (retypes_transplantWithin h1).trans (retypes_infer h2)

end Workspace

end BlockGraph
