import BlockGraph.Record
import BlockGraph.Workspace.Inputs
import BlockGraph.Workspace.Property

/-!
# Loading

`Workspace.fromRecord` builds the tree of a record, with the numbers it was saved with.  First every
block is made, parents before children; then the children are plugged in, the last first, so that
each parent still stands alone when its children come to it.  Types and bindings are brought up to
date once for the whole tree, and the events are delivered as one batch.

A record that cannot be built is refused with a `RecordError`, and the blocks made so far are
disposed of again.
-/

namespace BlockGraph

/-- Why a record cannot be built. -/
inductive RecordError where
  | unknownBlockType (tag : String)
  | duplicateId (block : BlockId)
  | unknownInput (block : BlockId) (input : String)
  | unknownField (block : BlockId) (field : String)
  | badFieldValue (block : BlockId) (field : String) (value : Json)
  | noSocket (block : BlockId) (socket : String)
  | connect (child : BlockId) (reason : ConnectError)

namespace RecordError

def name : RecordError → String
  | unknownBlockType _ => "UnknownBlockType"
  | duplicateId _ => "DuplicateId"
  | unknownInput _ _ => "UnknownInput"
  | unknownField _ _ => "UnknownField"
  | badFieldValue _ _ _ => "BadFieldValue"
  | noSocket _ _ => "NoSocket"
  | connect _ _ => "Connect"

def message : RecordError → String
  | unknownBlockType tag => "unknown block type `" ++ tag ++ "`"
  | duplicateId block => "block id " ++ block.text ++ " is already in use"
  | unknownInput block input => "block " ++ block.text ++ " has no input named `" ++ input ++ "`"
  | unknownField block field => "block " ++ block.text ++ " has no field named `" ++ field ++ "`"
  | badFieldValue block field value =>
    "value " ++ value.text ++ " does not fit field `" ++ field ++ "` of block " ++ block.text
  | noSocket block socket => "block " ++ block.text ++ " has no " ++ socket ++ " connection"
  | connect child reason => "cannot attach block " ++ child.text ++ ": " ++ reason.message

end RecordError

namespace Workspace

/-! ## Fields and state -/

/-- The value of the same sort as `current` that a JSON value stands for. -/
def loadedValue? (current : FieldValue) (value : Json) : Option FieldValue :=
  match current with
  | .number _ => value.asFloat?.map .number
  | .checkbox _ => value.asBool?.map .checkbox
  | .text _ => value.asString?.map .text
  | .dropdown _ => value.asString?.map .dropdown
  | .label _ => none
  | .var _ => none

/-- Sets a field to a saved value; a variable is renamed. -/
def loadField (w : Workspace) (b : BlockId) (name : String) (value : Json) :
    Except Fault (Option RecordError × Workspace) := do
  match ← w.fieldValue? b name with
  | none => return (some (.unknownField b name), w)
  | some (.var v) =>
    match value.asString? with
    | some text => return (none, ← w.modifyVariable v ({ · with name := text }))
    | none => return (some (.badFieldValue b name value), w)
  | some current =>
    match loadedValue? current value with
    | some loaded => return (none, ← w.modifyBlock b (·.setField name loaded))
    | none => return (some (.badFieldValue b name value), w)

def loadFields (w : Workspace) (b : BlockId) :
    List (String × Json) → Except Fault (Option RecordError × Workspace)
  | [] => .ok (none, w)
  | (name, value) :: rest => do
    match ← w.loadField b name value with
    | (none, w) => w.loadFields b rest
    | stopped => return stopped

/-- Gives a list block the number of items that was saved; other state has no effect. -/
def loadState (w : Workspace) (b : BlockId) (kind : Kind) (state : Option Json) :
    Except Fault Workspace :=
  if kind = .listCreateWith then
    match (state.bind (Json.member? "items")).bind Json.asNat? with
    | some count => w.setItemCount b count
    | none => .ok w
  else .ok w

/-- Sets what a block shows beside its fields. -/
def loadProperties (w : Workspace) (saved : SavedBlock) : Except Fault Workspace :=
  w.modifyBlock saved.id fun block =>
    { block with
      disabled := saved.disabled
      collapsed := saved.collapsed
      comment := saved.comment
      offset := saved.position.getD block.offset }

/-! ## Building -/

/-- A tree under construction. -/
structure Loading where
  workspace : Workspace
  /-- The blocks made so far, the latest first. -/
  created : List BlockId := []
  /-- The sockets to be filled and the blocks for them, the latest first. -/
  pending : List (ConnectionId × BlockId) := []

namespace Loading

/-- Makes one block. -/
def build (s : Loading) (saved : SavedBlock) : Except Fault (Option RecordError × Loading) :=
  match Kind.ofTag? saved.tag with
  | none => .ok (some (.unknownBlockType saved.tag), s)
  | some kind =>
    if s.workspace.containsBlock saved.id then .ok (some (.duplicateId saved.id), s)
    else do
      let w ← s.workspace.newBlockWithId kind saved.id
      let w ← w.loadState saved.id kind saved.state
      let (error, w) ← w.loadFields saved.id saved.fields
      let s := { s with workspace := w, created := saved.id :: s.created }
      match error with
      | some error => return (some error, s)
      | none => return (none, { s with workspace := ← w.loadProperties saved })

/-- Notes that a socket is to be filled with a block. -/
def await (s : Loading) (socket : Option ConnectionId) (child : BlockId) : Loading :=
  match socket with
  | some c => { s with pending := (c, child) :: s.pending }
  | none => s

mutual

/-- Makes the blocks of a record, which belongs into a socket or stands alone. -/
def buildTree (s : Loading) (socket : Option ConnectionId) :
    Record → Except Fault (Option RecordError × Loading)
  | .node saved inputs next => do
    match ← s.build saved with
    | (none, s) =>
      match ← buildInputs (s.await socket saved.id) saved.id inputs with
      | (none, s) => buildNext s saved.id next
      | stopped => return stopped
    | stopped => return stopped

def buildInputs (s : Loading) (parent : BlockId) :
    List (String × Record) → Except Fault (Option RecordError × Loading)
  | [] => .ok (none, s)
  | (name, child) :: rest => do
    match ← s.workspace.inputConnection? parent name with
    | none => return (some (.unknownInput parent name), s)
    | some socket =>
      match ← buildTree s (some socket) child with
      | (none, s) => buildInputs s parent rest
      | stopped => return stopped

def buildNext (s : Loading) (parent : BlockId) :
    Option Record → Except Fault (Option RecordError × Loading)
  | none => .ok (none, s)
  | some below => do
    match (← s.workspace.getBlock parent).next with
    | none => return (some (.noSocket parent "next"), s)
    | some socket => buildTree s (some socket) below

end

end Loading

/-! ## Plugging in -/

/-- Plugs a block into a socket of the tree under construction. -/
def attach (w : Workspace) (socket : ConnectionId) (child : BlockId) :
    Except Fault (Option RecordError × Workspace) := do
  match (← w.getBlock child).superior? with
  | none => return (some (.noSocket child "output or previous"), w)
  | some superior =>
    match ← w.checkStructure socket superior with
    | some reason => return (some (.connect child reason), w)
    | none => return (none, ← w.link socket superior)

def attachAll (w : Workspace) :
    List (ConnectionId × BlockId) → Except Fault (Option RecordError × Workspace)
  | [] => .ok (none, w)
  | (socket, child) :: rest => do
    match ← w.attach socket child with
    | (none, w) => w.attachAll rest
    | stopped => return stopped

/-- Makes and joins the blocks of a record; gives also the blocks made, the latest first. -/
def assemble (w : Workspace) (record : Record) :
    Except Fault (Option RecordError × List BlockId × Workspace) := do
  let (error, s) ← Loading.buildTree { workspace := w } none record
  match error with
  | some error => return (some error, s.created, s.workspace)
  | none =>
    let (error, w) ← s.workspace.attachAll s.pending
    return (error, s.created, w)

/-- Disposes of blocks that a refused record left behind. -/
def discard (w : Workspace) (created : List BlockId) : Except Fault Workspace :=
  created.foldlM (fun w b => if w.containsBlock b then w.dispose b false else .ok w) w

/-- Builds the tree of a record; gives its root, or why it was refused. -/
def fromRecord (w : Workspace) (record : Record) :
    Except Fault (Except RecordError BlockId × Workspace) := do
  let (token, w) := w.beginBatch
  match ← w.assemble record with
  | (none, _, w) =>
    let w ← w.endBatch token
    return (.ok record.block.id, ← w.refresh [record.block.id])
  | (some error, created, w) =>
    let w ← w.discard created
    return (.error error, ← w.endBatch token)

end Workspace

end BlockGraph
