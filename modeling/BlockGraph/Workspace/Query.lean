import BlockGraph.Workspace

/-!
# The shape of the graph

Blocks form trees.  Downwards a tree follows the connections: the children of a block are the blocks
plugged into its inputs, in the order of the inputs, and then the block below it in its stack.
Upwards it follows parents.

A path in a tree meets a block at most once, so the number of blocks bounds every walk.
-/

namespace BlockGraph.Workspace

/-- The block that is joined to a connection. -/
def targetBlock? (w : Workspace) (c : ConnectionId) : Except Fault (Option BlockId) := do
  match (← w.getConnection c).target with
  | some t => return some (← w.getConnection t).block
  | none => return none

/-- The block that is joined to a connection, if there is a connection. -/
def occupant? (w : Workspace) : Option ConnectionId → Except Fault (Option BlockId)
  | some c => w.targetBlock? c
  | none => .ok none

/-- The blocks joined to some connections, in their order. -/
def targetBlocks (w : Workspace) : List ConnectionId → Except Fault (List BlockId)
  | [] => .ok []
  | c :: cs => do
    let child ← w.targetBlock? c
    return child.toList ++ (← w.targetBlocks cs)

def children (w : Workspace) (b : BlockId) : Except Fault (List BlockId) := do
  w.targetBlocks (← w.getBlock b).inferiors

/-- A bound for walks along the trees. -/
def depthBound (w : Workspace) : Nat := w.blockCount + 1

/-- A block and what hangs from it, down to the given depth. -/
def descendantsWithin (w : Workspace) : Nat → BlockId → Except Fault (List BlockId)
  | 0, b => .ok [b]
  | depth + 1, b => do
    let below ← (← w.children b).mapM (w.descendantsWithin depth)
    return b :: below.flatten

/-- A block and every block below it, parents before children. -/
def descendants (w : Workspace) (b : BlockId) : Except Fault (List BlockId) :=
  w.descendantsWithin w.depthBound b

/-- The block at the given number of steps upwards, or the last before that. -/
def rootWithin (w : Workspace) : Nat → BlockId → Except Fault BlockId
  | 0, b => .ok b
  | height + 1, b => do
    match (← w.getBlock b).parent with
    | some p => w.rootWithin height p
    | none => return b

/-- The block at the top of a block's tree. -/
def root (w : Workspace) (b : BlockId) : Except Fault BlockId := w.rootWithin w.depthBound b

def isAncestorWithin (w : Workspace) (ancestor : BlockId) : Nat → BlockId → Except Fault Bool
  | 0, _ => .ok false
  | height + 1, b => do
    if b = ancestor then return true
    match (← w.getBlock b).parent with
    | some p => w.isAncestorWithin ancestor height p
    | none => return false

/-- Whether `ancestor` is `b` or above it. -/
def isAncestorOrSelf (w : Workspace) (ancestor b : BlockId) : Except Fault Bool :=
  w.isAncestorWithin ancestor (w.depthBound + 1) b

/-- The block directly below in a stack. -/
def next? (w : Workspace) (b : BlockId) : Except Fault (Option BlockId) := do
  w.occupant? (← w.getBlock b).next

/-- The connection of the parent that a block is plugged into. -/
def parentConnection? (w : Workspace) (b : BlockId) : Except Fault (Option ConnectionId) := do
  match (← w.getBlock b).superior? with
  | some c => return (← w.getConnection c).target
  | none => return none

/-- The block that a block is plugged into, by its connections. -/
def attachedTo? (w : Workspace) (b : BlockId) : Except Fault (Option BlockId) := do
  match ← w.parentConnection? b with
  | some c => return some (← w.getConnection c).block
  | none => return none

def inputConnection? (w : Workspace) (b : BlockId) (name : String) :
    Except Fault (Option ConnectionId) := do
  return ((← w.getBlock b).input? name).bind Input.connection

/-- The block plugged into a named input. -/
def inputTarget? (w : Workspace) (b : BlockId) (name : String) :
    Except Fault (Option BlockId) := do
  w.occupant? (← w.inputConnection? b name)

/-- The variable that a field holds. -/
def fieldVariable? (w : Workspace) (b : BlockId) (name : String) :
    Except Fault (Option VariableId) := do
  return ((← w.getBlock b).field? name).bind (·.value.heldVariable?)

/-- The variable of a binder or a use. -/
def ownVariable (w : Workspace) (b : BlockId) : Except Fault VariableId := do
  match ← w.fieldVariable? b Kind.variableField with
  | some v => return v
  | none => .error (.noBinder b)

/-- The type of a declaration. -/
def variableType? (w : Workspace) (v : VariableId) : Except Fault (Option Ty) := do
  return (← w.getVariable v).type?

end BlockGraph.Workspace
