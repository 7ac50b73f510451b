import Mathlib.Logic.Function.Basic
import BlockGraph.Proofs.Fault
import BlockGraph.Workspace.Edit

/-!
# Skeletons

The skeleton of a workspace is what its edits are about: of each block the kind, the slots, the
parent and the children (`Frame`), of each connection the owner, the kind, the check and the target
(`Joint`), the list of blocks that stand alone and the registry of free connections.  Fields,
variables, types, errors and events are left out.

Maps become functions, so that an update is `Function.update` and two skeletons are equal if they
agree everywhere.  This file gives the effect on the skeleton of every single update from which the
operations are built; the operations themselves are then followed on skeletons.
-/

namespace BlockGraph

variable {w w' : Workspace} {b : BlockId} {c : ConnectionId} {v : VariableId}
  {connection : Connection} {k : ConnectionKind} {f : Frame} {s : Slot} {block : Block}

/-- An input without its fields. -/
structure Slot where
  name : String
  kind : InputKind
  connection : Option ConnectionId

/-- A block without its fields and properties. -/
@[ext]
structure Frame where
  kind : Kind
  slots : List Slot := []
  output : Option ConnectionId := none
  previous : Option ConnectionId := none
  next : Option ConnectionId := none
  parent : Option BlockId := none
  children : List BlockId := []

/-- A connection without its type and error. -/
structure Joint where
  block : BlockId
  kind : ConnectionKind
  check : Check
  target : Option ConnectionId

@[ext]
structure Skeleton where
  frame : BlockId → Option Frame
  joint : ConnectionId → Option Joint
  free : ConnectionId → Bool
  top : List BlockId
  count : Nat

/-! ## Places -/

/-- The connection of an input, with the kind it has there. -/
def Slot.place? (s : Slot) : Option (ConnectionId × ConnectionKind) :=
  match s.kind with
  | .value => s.connection.map (·, .inputValue)
  | .statement => s.connection.map (·, .nextStatement)
  | .dummy => none

/-- A slot has a connection unless it is a dummy. -/
def Slot.Fitted (s : Slot) : Prop := s.connection = none ↔ s.kind = .dummy

namespace Frame

/-- The connections of a frame, each with the kind that its place asks for. -/
def places (f : Frame) : List (ConnectionId × ConnectionKind) :=
  f.output.toList.map (·, .output) ++ f.previous.toList.map (·, .previousStatement) ++
    f.slots.filterMap Slot.place? ++ f.next.toList.map (·, .nextStatement)

/-- The connection by which the block plugs into a parent. -/
def superior? (f : Frame) : Option ConnectionId := f.output.or f.previous

/-- Every connection: output, previous, inputs, next. -/
def connections (f : Frame) : List ConnectionId :=
  f.output.toList ++ f.previous.toList ++ f.slots.filterMap Slot.connection ++ f.next.toList

theorem mem_places : (c, k) ∈ f.places ↔ (f.output = some c ∧ k = .output) ∨
      (f.previous = some c ∧ k = .previousStatement) ∨
      (∃ s ∈ f.slots, s.place? = some (c, k)) ∨ (f.next = some c ∧ k = .nextStatement) := by
  simp only [places, List.mem_append, List.mem_map, List.mem_filterMap, Option.mem_toList,
    Prod.mk.injEq]
  grind

theorem place?_isSuperior (h : s.place? = some (c, k)) : k.isSuperior = false := by
  unfold Slot.place? at h
  split at h
  · obtain ⟨d, -, hd⟩ := Option.map_eq_some_iff.1 h
    cases hd
    rfl
  · obtain ⟨d, -, hd⟩ := Option.map_eq_some_iff.1 h
    cases hd
    rfl
  · cases h

/-- The superior places are the output and the previous connection. -/
theorem mem_places_superior (hk : k.isSuperior = true) : (c, k) ∈ f.places ↔
      (f.output = some c ∧ k = .output) ∨ (f.previous = some c ∧ k = .previousStatement) := by
  rw [mem_places]
  constructor
  · rintro (h | h | ⟨s, -, h⟩ | ⟨-, rfl⟩)
    · exact Or.inl h
    · exact Or.inr h
    · rw [place?_isSuperior h] at hk
      cases hk
    · cases hk
  · rintro (h | h)
    · exact Or.inl h
    · exact Or.inr (Or.inl h)

theorem map_fst_place? (h : s.Fitted) : s.place?.map Prod.fst = s.connection := by
  obtain ⟨name, kind, connection⟩ := s
  cases kind with
  | value | statement => cases connection <;> rfl
  | dummy => exact (h.2 rfl).symm

/-- In a frame without superfluous sockets, the places are those of all connections. -/
theorem map_fst_places (h : ∀ s ∈ f.slots, s.Fitted) : f.places.map Prod.fst = f.connections := by
  have hslots : ∀ slots : List Slot, (∀ s ∈ slots, s.Fitted) →
      (slots.filterMap Slot.place?).map Prod.fst = slots.filterMap Slot.connection := by
    intro slots hfit
    rw [List.map_filterMap]
    induction slots with
    | nil => rfl
    | cons s rest ih =>
      simp only [List.filterMap_cons, map_fst_place? (hfit s List.mem_cons_self),
        ih fun x hx => hfit x (List.mem_cons_of_mem _ hx)]
  simp [places, connections, hslots f.slots h, List.map_map, Function.comp_def]

end Frame

/-! ## Views -/

def Input.slot (i : Input) : Slot := ⟨i.name, i.kind, i.connection⟩

def Block.frame (b : Block) : Frame where
  kind := b.kind
  slots := b.inputs.map Input.slot
  output := b.output
  previous := b.previous
  next := b.next
  parent := b.parent
  children := b.children

def Connection.joint (c : Connection) : Joint := ⟨c.block, c.kind, c.check, c.target⟩

@[simp] theorem Block.connections_frame (b : Block) : b.frame.connections = b.connections := by
  simp [Block.frame, Frame.connections, Block.connections, Block.sockets, List.filterMap_map,
    Function.comp_def, Input.slot]

namespace Workspace

theorem isTyped_congr (h : w'.options = w.options) : w'.isTyped = w.isTyped :=
  congrArg Options.typed h

def skeleton (w : Workspace) : Skeleton where
  frame b := w.blocks[b]?.map Block.frame
  joint c := w.connections[c]?.map Connection.joint
  free c := w.free.contains c
  top := w.top
  count := w.connectionCount

theorem frame_eq_some_iff :
    w.skeleton.frame b = some f ↔ ∃ block, w.blocks[b]? = some block ∧ block.frame = f := by
  simp [skeleton]

theorem joint_eq_some_iff {j : Joint} : w.skeleton.joint c = some j ↔
      ∃ connection, w.connections[c]? = some connection ∧ connection.joint = j := by
  simp [skeleton]

theorem frame_of_block (h : w.blocks[b]? = some block) : w.skeleton.frame b = some block.frame :=
  frame_eq_some_iff.2 ⟨block, h, rfl⟩

theorem joint_of_connection
    (h : w.connections[c]? = some connection) : w.skeleton.joint c = some connection.joint :=
  joint_eq_some_iff.2 ⟨connection, h, rfl⟩

theorem getBlock_eq_ok : w.getBlock b = .ok block ↔ w.blocks[b]? = some block := by
  unfold getBlock
  cases w.blocks[b]? <;> simp

theorem getConnection_eq_ok : w.getConnection c = .ok connection ↔
    w.connections[c]? = some connection := by
  unfold getConnection
  cases w.connections[c]? <;> simp

theorem getVariable_eq_ok {found : Variable} : w.getVariable v = .ok found ↔
    w.vars[v]? = some found := by
  unfold getVariable
  cases w.vars[v]? <;> simp

theorem containsBlock_iff : w.containsBlock b = true ↔ ∃ block, w.blocks[b]? = some block := by
  rw [containsBlock, Std.ExtTreeMap.contains_eq_isSome_getElem?, Option.isSome_iff_exists]

end Workspace

/-! ## Maps as functions -/

section Maps

variable {α β : Type} [Ord α] [Std.TransOrd α] [Std.LawfulEqOrd α] [DecidableEq α]

theorem getElem?_insert_eq (m : Std.ExtTreeMap α β) (k : α) (v : β) (a : α) :
    (m.insert k v)[a]? = if a = k then some v else m[a]? := by
  rw [Std.ExtTreeMap.getElem?_insert]
  simp only [Std.compare_eq_iff_eq, eq_comm (a := a)]

/-- What a new entry has in common with the one that it replaces does not change. -/
theorem congr_getElem?_insert {γ : Type} (f : Option β → γ) {m : Std.ExtTreeMap α β} {k : α} {v : β}
    (h : f (some v) = f m[k]?) (a : α) : f (m.insert k v)[a]? = f m[a]? := by
  rw [getElem?_insert_eq]
  split
  · next ha => rw [ha, h]
  · rfl

theorem getElem?_erase_eq (m : Std.ExtTreeMap α β) (k a : α) :
    (m.erase k)[a]? = if a = k then none else m[a]? := by
  rw [Std.ExtTreeMap.getElem?_erase]
  simp only [Std.compare_eq_iff_eq, eq_comm (a := a)]

end Maps

theorem Registry.contains_register (r : Registry) (c x : ConnectionId) :
    (r.register c).contains x = if x = c then true else r.contains x := by
  simp only [contains, register, Std.ExtTreeSet.contains_insert]
  by_cases h : x = c
  · simp [h]
  · have hne : compare c x ≠ .eq := fun heq => h (Std.compare_eq_iff_eq.1 heq).symm
    simp [h, hne]

theorem Registry.contains_unregister (r : Registry) (c x : ConnectionId) :
    (r.unregister c).contains x = if x = c then false else r.contains x := by
  simp only [contains, unregister, Std.ExtTreeSet.contains_erase]
  by_cases h : x = c
  · simp [h]
  · have hne : compare c x ≠ .eq := fun heq => h (Std.compare_eq_iff_eq.1 heq).symm
    simp [h, hne]

/-! ## Single updates -/

namespace Skeleton

def setFrame (s : Skeleton) (b : BlockId) (f : Option Frame) : Skeleton :=
  { s with frame := Function.update s.frame b f }

def setJoint (s : Skeleton) (c : ConnectionId) (j : Option Joint) : Skeleton :=
  { s with joint := Function.update s.joint c j }

/-- Changes every frame, each in its own way. -/
def mapFrames (s : Skeleton) (g : BlockId → Frame → Frame) : Skeleton :=
  { s with frame := fun b => (s.frame b).map (g b) }

theorem mapFrames_mapFrames (s : Skeleton) (g g' : BlockId → Frame → Frame) :
    (s.mapFrames g).mapFrames g' = s.mapFrames fun b f => g' b (g b f) := by
  simp [mapFrames, Option.map_map, Function.comp_def]

theorem mapFrames_congr {s : Skeleton} {g g' : BlockId → Frame → Frame}
    (h : ∀ b f, g b f = g' b f) : s.mapFrames g = s.mapFrames g' := by
  rw [show g = g' from funext fun b => funext (h b)]

theorem mapFrames_id {s : Skeleton} {g : BlockId → Frame → Frame} (h : ∀ b f, g b f = f) :
    s.mapFrames g = s := by
  rw [show g = fun _ f => f from funext fun b => funext (h b)]
  simp [mapFrames]

def setTop (s : Skeleton) (top : List BlockId) : Skeleton := { s with top }

def setFree (s : Skeleton) (c : ConnectionId) (value : Bool) : Skeleton :=
  { s with free := Function.update s.free c value }

end Skeleton

namespace Workspace

theorem skeleton_insertBlock (w : Workspace) (b : BlockId) (block : Block) :
    { w with blocks := w.blocks.insert b block }.skeleton = w.skeleton.setFrame b
    (some block.frame) := by
  refine Skeleton.ext (funext fun x => ?_) rfl rfl rfl rfl
  simp only [skeleton, Skeleton.setFrame, getElem?_insert_eq, Function.update_apply]
  split <;> rfl

theorem skeleton_eraseBlock (w : Workspace) (b : BlockId) :
    { w with blocks := w.blocks.erase b }.skeleton = w.skeleton.setFrame b none := by
  refine Skeleton.ext (funext fun x => ?_) rfl rfl rfl rfl
  simp only [skeleton, Skeleton.setFrame, getElem?_erase_eq, Function.update_apply]
  split <;> rfl

theorem skeleton_insertConnection (w : Workspace) (c : ConnectionId) (connection : Connection) :
    { w with connections := w.connections.insert c connection }.skeleton =
      w.skeleton.setJoint c (some connection.joint) := by
  refine Skeleton.ext rfl (funext fun x => ?_) rfl rfl rfl
  simp only [skeleton, Skeleton.setJoint, getElem?_insert_eq, Function.update_apply]
  split <;> rfl

theorem skeleton_eraseConnection (w : Workspace) (c : ConnectionId) :
    { w with connections := w.connections.erase c }.skeleton = w.skeleton.setJoint c none := by
  refine Skeleton.ext rfl (funext fun x => ?_) rfl rfl rfl
  simp only [skeleton, Skeleton.setJoint, getElem?_erase_eq, Function.update_apply]
  split <;> rfl

theorem skeleton_register (w : Workspace) (c : ConnectionId) :
    (w.register c).skeleton = w.skeleton.setFree c true := by
  refine Skeleton.ext rfl rfl (funext fun x => ?_) rfl rfl
  simp only [skeleton, register, Skeleton.setFree, Registry.contains_register,
    Function.update_apply]

theorem skeleton_unregister (w : Workspace) (c : ConnectionId) :
    (w.unregister c).skeleton = w.skeleton.setFree c false := by
  refine Skeleton.ext rfl rfl (funext fun x => ?_) rfl rfl
  simp only [skeleton, unregister, Skeleton.setFree, Registry.contains_unregister,
    Function.update_apply]

theorem modifyBlock_eq_ok {f : Block → Block} :
    w.modifyBlock b f = .ok w' ↔ ∃ block, w.blocks[b]? = some block ∧
      w' = { w with blocks := w.blocks.insert b (f block) } := by
  simp only [modifyBlock, bind_eq_ok, getBlock_eq_ok, pure_eq_ok, Except.ok.injEq]
  simp only [eq_comm]

theorem modifyConnection_eq_ok {f : Connection → Connection} :
    w.modifyConnection c f = .ok w' ↔ ∃ connection, w.connections[c]? = some connection ∧
      w' = { w with connections := w.connections.insert c (f connection) } := by
  simp only [modifyConnection, bind_eq_ok, getConnection_eq_ok, pure_eq_ok, Except.ok.injEq]
  simp only [eq_comm]

theorem skeleton_modifyBlock {f : Block → Block} {g : Frame → Frame}
    (h : w.modifyBlock b f = .ok w') (hf : ∀ block, (f block).frame = g block.frame) :
    w'.skeleton = (w.skeleton.mapFrames fun x fr => if x = b then g fr else fr) ∧
    w'.types = w.types := by
  obtain ⟨block, hblock, rfl⟩ := modifyBlock_eq_ok.1 h
  refine ⟨?_, rfl⟩
  rw [skeleton_insertBlock, hf]
  refine Skeleton.ext (funext fun x => ?_) rfl rfl rfl rfl
  simp only [Skeleton.setFrame, Skeleton.mapFrames, Function.update_apply]
  by_cases hx : x = b
  · simp [hx, frame_of_block hblock]
  · simp [hx]

theorem skeleton_removeTop (w : Workspace) (b : BlockId) :
    (w.removeTop b).skeleton = w.skeleton.setTop (w.skeleton.top.reverse.erase b).reverse := rfl

theorem skeleton_addTop (w : Workspace) (b : BlockId) : (w.addTop b).skeleton =
    w.skeleton.setTop (if b ∈ w.skeleton.top then w.skeleton.top else w.skeleton.top ++ [b]) := by
  unfold addTop
  by_cases hb : b ∈ w.top <;> simp [hb, skeleton, Skeleton.setTop]

theorem modifyVariable_eq_ok {f : Variable → Variable} :
    w.modifyVariable v f = .ok w' ↔ ∃ found, w.vars[v]? = some found ∧
      w' = { w with vars := w.vars.insert v (f found) } := by
  simp only [modifyVariable, bind_eq_ok, getVariable_eq_ok, pure_eq_ok, Except.ok.injEq]
  simp only [eq_comm]

end Workspace

end BlockGraph
