import BlockGraph.Record
import BlockGraph.Workspace.Query

/-!
# Saving

`Workspace.toRecord` gives the record of a block, of what is plugged into its inputs, and of the
stack below it.  Labels and fields without a name are not saved; a variable is saved by its name.
-/

namespace BlockGraph.Workspace

/-- The value under which a field is saved. -/
def fieldJson (w : Workspace) : FieldValue → Except Fault Json
  | .label s => .ok (.str s)
  | .text s => .ok (.str s)
  | .dropdown s => .ok (.str s)
  | .number x => .ok (.ofFloat x)
  | .checkbox b => .ok (.bool b)
  | .var v => do return .str (← w.getVariable v).name

/-- The saved fields by name; of fields with one name the last counts. -/
def savedFields (w : Workspace) (block : Block) : Except Fault (Dict Json) := do
  let entries ← (block.fields.filter Field.isSaved).mapM fun field => do
    return (field.name, ← w.fieldJson field.value)
  return Dict.ofList entries

/-- What a block saves beside its fields: a list block the number of its items. -/
def savedState (block : Block) : Option Json :=
  if block.kind = .listCreateWith then
    some (.obj [("items", .int block.itemNames.length)])
  else none

def savedBlock (w : Workspace) (b : BlockId) : Except Fault SavedBlock := do
  let block ← w.getBlock b
  return {
    tag := block.kind.tag
    id := b
    fields := ← w.savedFields block
    state := savedState block
    disabled := block.disabled
    collapsed := block.collapsed
    comment := block.comment
    position := if block.parent.isNone then some block.offset else none }

/-- The blocks plugged into some inputs, with the names of these. -/
def occupants (w : Workspace) : List Input → Except Fault (List (String × BlockId))
  | [] => .ok []
  | input :: inputs => do
    let child ← w.occupant? input.connection
    return child.toList.map (input.name, ·) ++ (← w.occupants inputs)

/-- The record of a block down to the given depth.  Of inputs with one name the first is saved. -/
def recordWithin (w : Workspace) : Nat → BlockId → Except Fault Record
  | 0, b => do return .node (← w.savedBlock b) [] none
  | depth + 1, b => do
    let block ← w.savedBlock b
    let inputs ← (← w.occupants (← w.getBlock b).inputs).mapM fun (name, child) => do
      return (name, ← w.recordWithin depth child)
    let next ← (← w.next? b).mapM (w.recordWithin depth)
    return .node block (Dict.ofList inputs.reverse) next

/-- The record of a block and everything below it, all of which has to exist. -/
def toRecord (w : Workspace) (b : BlockId) : Except Fault Record := do
  let _ ← w.descendants b
  w.recordWithin w.depthBound b

end BlockGraph.Workspace
