import BlockGraph.Workspace.Edit

/-!
# Changing inputs

Removing inputs with what is plugged into them, moving inputs along their block, and setting the
number of items of a list block.  Moving an input does not touch what is plugged into it.
-/

namespace BlockGraph.Workspace

/-- The index of a named input. -/
def inputIndex (w : Workspace) (b : BlockId) (name : String) : Except Fault Nat := do
  match (← w.getBlock b).inputIndex? name with
  | some index => return index
  | none => .error (.noInput b name)

/-! ## Removing -/

/-- A block and the stack below it, at most the given number of them. -/
def stackWithin (w : Workspace) : Nat → Option BlockId → Except Fault (List BlockId)
  | 0, _ => .ok []
  | _ + 1, none => .ok []
  | count + 1, some b => do return b :: (← w.stackWithin count (← w.next? b))

/-- Removes an input; what is plugged into it is disposed of, the last of a stack first. -/
def removeInput (w : Workspace) (b : BlockId) (name : String) : Except Fault Workspace := do
  let index ← w.inputIndex b name
  let stack ← w.stackWithin (w.depthBound + 1) (← w.inputTarget? b name)
  let w ← stack.reverse.foldlM (fun w child => w.dispose child false) w
  let input := (← w.getBlock b).inputs[index]?.getD default
  let w ← w.modifyBlock b fun block => { block with inputs := block.inputs.eraseIdx index }
  let w ← (input.fields.filterMap (·.value.heldVariable?)).foldlM disposeVariable w
  input.connection.toList.foldlM disposeConnection w

/-! ## Moving -/

/-- Moves the item at `source` so that it stands before the one at `target`; the length of the list
as target means the end. -/
def moveItem {α : Type} (items : List α) (source target : Nat) : List α :=
  match items[source]? with
  | some item =>
    let rest := items.eraseIdx source
    rest.insertIdx (if source < target then target - 1 else target) item
  | none => items

/-- Moves the input with one index before that with another. -/
def moveNumberedInput (w : Workspace) (b : BlockId) (source target : Nat) :
    Except Fault Workspace := do
  let count := (← w.getBlock b).inputs.length
  require (decide (source < count)) (.inputIndex b source)
  require (decide (target ≤ count)) (.referenceIndex b target)
  require (source != target) (.beforeItself source)
  w.modifyBlock b fun block => { block with inputs := moveItem block.inputs source target }

/-- The index of the input to move before; the end if none is named. -/
def targetIndex (w : Workspace) (b : BlockId) : Option String → Except Fault Nat
  | some name => w.inputIndex b name
  | none => do return (← w.getBlock b).inputs.length

/-- Moves a named input before another, or to the end. -/
def moveInput (w : Workspace) (b : BlockId) (name : String) (before : Option String) :
    Except Fault Workspace := do
  let source ← w.inputIndex b name
  let target ← w.targetIndex b before
  if source = target ∨ source + 1 = target then return w
  else w.moveNumberedInput b source target

/-! ## Items of a list -/

/-- Gives a list block the items with the numbers below `count`, those that are there remaining. -/
def setItemCount (w : Workspace) (b : BlockId) (count : Nat) : Except Fault Workspace := do
  let block ← w.getBlock b
  require (block.kind == .listCreateWith) .notItemList
  let current := block.itemNames.length
  let added := (List.range (count - current)).map (current + ·)
  let removed := ((List.range (current - count)).map (count + ·)).reverse
  let w ← added.foldlM (fun w i => do
    return (← w.appendInput b .value (Kind.itemName i) none).2) w
  let w ← removed.foldlM (fun w i => w.removeInput b (Kind.itemName i)) w
  w.refresh [b]

end BlockGraph.Workspace
