import BlockGraph.Workspace.Infer

/-!
# Edits

Joining and separating blocks, and disposing of them.

`Workspace.connect` asks the gate first (`Workspace.checkConnection`): two connections can be joined
if their kinds are opposite, neither is taken, their checks intersect, no block would come to stand
above itself, their types can be made equal, and every use of a variable in the child would find a
declaration.  A refusal is a `ConnectError` and changes nothing.

Under the edits lie `Workspace.link` and `Workspace.unlink`, which keep the targets, the registry,
the parents, the children and the list of blocks that stand alone in step, and announce the move.
Each edit then brings the trees it touched up to date.
-/

namespace BlockGraph

/-- Why two connections cannot be joined. -/
inductive ConnectError where
  | selfConnection (a b : ConnectionId)
  | wrongKind (kind other : ConnectionKind)
  | alreadyConnected (c : ConnectionId)
  | checksFailed (a b : ConnectionId)
  | cycle (block : BlockId)
  | typeMismatch (expected found : Ty)
  | unresolvedReferences (block : BlockId)

namespace ConnectError

def name : ConnectError → String
  | selfConnection _ _ => "SelfConnection"
  | wrongKind _ _ => "WrongKind"
  | alreadyConnected _ => "AlreadyConnected"
  | checksFailed _ _ => "ChecksFailed"
  | cycle _ => "Cycle"
  | typeMismatch _ _ => "TypeMismatch"
  | unresolvedReferences _ => "UnresolvedReferences"

def message : ConnectError → String
  | selfConnection a b => a.text ++ " and " ++ b.text ++ " belong to the same block"
  | wrongKind kind other => kind.name ++ " cannot plug into " ++ other.name
  | alreadyConnected c => c.text ++ " is already connected elsewhere"
  | checksFailed a b => "nominal checks of " ++ a.text ++ " and " ++ b.text ++ " do not intersect"
  | cycle block => "connecting would make block " ++ block.text ++ " its own ancestor"
  | typeMismatch expected found =>
    "type " ++ found.text ++ " does not fit socket of type " ++ expected.text
  | unresolvedReferences block =>
    "block " ++ block.text ++ " has references that are not visible at the target socket"

end ConnectError

namespace Workspace

/-! ## The gate -/

/-- Two connections as the inferior and the superior one. -/
def orient (w : Workspace) (a b : ConnectionId) : Except Fault (ConnectionId × ConnectionId) := do
  return if (← w.getConnection a).kind.isSuperior then (b, a) else (a, b)

/-- What the gate asks of the structure: owners, kinds, targets, checks and ancestors. -/
def checkStructure (w : Workspace) (a b : ConnectionId) :
    Except Fault (Option ConnectError) := do
  let ca ← w.getConnection a
  let cb ← w.getConnection b
  if ca.block = cb.block then return some (.selfConnection a b)
  if ca.kind.opposite ≠ cb.kind then return some (.wrongKind ca.kind cb.kind)
  if ca.isTaken b then return some (.alreadyConnected a)
  if cb.isTaken a then return some (.alreadyConnected b)
  if !Check.intersects ca.check cb.check then return some (.checksFailed a b)
  let (inferior, superior) ← w.orient a b
  let parent := (← w.getConnection inferior).block
  let child := (← w.getConnection superior).block
  if ca.target ≠ some b then
    if ← w.isAncestorOrSelf child parent then return some (.cycle child)
  return none

/-- How the types of a socket and of what is to be plugged into it contradict each other. -/
def typeClash (w : Workspace) (socket plug : Connection) : Except Fault (Option ConnectError) := do
  match socket.type, plug.type with
  | some expected, some found =>
    if ← w.types.unifiable expected found then return none
    else return some (.typeMismatch (← w.types.resolve expected) (← w.types.resolve found))
  | _, _ => return none

/-- What the gate asks of types and scope. -/
def checkTyping (w : Workspace) (a b : ConnectionId) : Except Fault (Option ConnectError) := do
  let (inferior, superior) ← w.orient a b
  let socket ← w.getConnection inferior
  let plug ← w.getConnection superior
  match ← w.typeClash socket plug with
  | some error => return some error
  | none =>
    if w.options.resolveOnConnect then
      if ← w.resolvable plug.block (some inferior) then return none
      else return some (.unresolvedReferences plug.block)
    else return none

/-- Why two connections cannot be joined, if they cannot.  Connections that are joined already
pass. -/
def checkConnection (w : Workspace) (a b : ConnectionId) :
    Except Fault (Option ConnectError) := do
  match ← w.checkStructure a b with
  | some error => return some error
  | none =>
    if !w.isTyped then return none
    if (← w.getConnection a).target = some b then return none
    w.checkTyping a b

def canConnect (w : Workspace) (a b : ConnectionId) : Except Fault Bool := do
  return (← w.checkConnection a b).isNone

/-! ## Links -/

/-- Takes a block off the children of its parent, if it has one. -/
def leaveParent (w : Workspace) (child : BlockId) : Except Fault Workspace := do
  match (← w.getBlock child).parent with
  | some old => w.modifyBlock old fun b => { b with children := b.children.filter (· != child) }
  | none => return w

/-- Enters a block among the children of a parent, or on top if there is none. -/
def joinParent (w : Workspace) (child : BlockId) : Option BlockId → Except Fault Workspace
  | some parent => do
    let w ← w.modifyBlock parent fun b => { b with children := b.children ++ [child] }
    return w.removeTop child
  | none => .ok (w.addTop child)

/-- Puts a block under a parent or on top.  Its connections have to say the same already. -/
def setParent (w : Workspace) (child : BlockId) (parent : Option BlockId) :
    Except Fault Workspace := do
  require (decide ((← w.attachedTo? child) = parent)) (.wrongParent child)
  let w ← w.leaveParent child
  let w ← w.modifyBlock child ({ · with parent })
  w.joinParent child parent

/-- Joins two connections without asking. -/
def link (w : Workspace) (inferior superior : ConnectionId) : Except Fault Workspace := do
  let parent := (← w.getConnection inferior).block
  let child := (← w.getConnection superior).block
  let offset := (← w.getBlock child).offset
  let w ← w.modifyConnection inferior ({ · with target := some superior })
  let w ← w.modifyConnection superior ({ · with target := some inferior })
  let w := (w.unregister inferior).unregister superior
  let w ← w.setParent child (some parent)
  let input := (← w.getBlock parent).inputNameOf? inferior
  return w.fire (.move child { coordinate := some offset } { parent := some parent, input })

/-- Separates a connection from its target; gives the parent and the child that were joined. -/
def unlink (w : Workspace) (c : ConnectionId) (announce : Bool) :
    Except Fault ((BlockId × BlockId) × Workspace) := do
  match (← w.getConnection c).target with
  | none => .error (.notConnected c)
  | some target =>
    let (inferior, superior) ← w.orient c target
    let parent := (← w.getConnection inferior).block
    let child := (← w.getConnection superior).block
    let input := (← w.getBlock parent).inputNameOf? inferior
    let w ← w.modifyConnection inferior ({ · with target := none })
    let w ← w.modifyConnection superior ({ · with target := none })
    let w := (w.register inferior).register superior
    let w ← w.setParent child none
    if announce then
      let offset := (← w.getBlock child).offset
      return ((parent, child),
        w.fire (.move child { parent := some parent, input } { coordinate := some offset }))
    else return ((parent, child), w)

/-! ## Connecting and disconnecting -/

/-- Joins two connections if the gate lets them. -/
def connect (w : Workspace) (a b : ConnectionId) :
    Except Fault (Option ConnectError × Workspace) := do
  match ← w.checkConnection a b with
  | some error => return (some error, w)
  | none =>
    if (← w.getConnection a).target = some b then return (none, w)
    let (inferior, superior) ← w.orient a b
    let w ← w.link inferior superior
    let child := (← w.getConnection superior).block
    return (none, ← w.refresh [child])

/-- Separates a connection from its target. -/
def disconnect (w : Workspace) (c : ConnectionId) : Except Fault Workspace := do
  let ((parent, child), w) ← w.unlink c true
  w.refresh [parent, child]

/-- Replaces the check of a connection, and separates it from a target that no longer passes. -/
def setCheck (w : Workspace) (c : ConnectionId) (check : Check) : Except Fault Workspace := do
  let w ← w.modifyConnection c ({ · with check })
  match (← w.getConnection c).target with
  | some t =>
    if Check.intersects check (← w.getConnection t).check then return w else w.disconnect c
  | none => return w

/-! ## Unplugging -/

/-- The next connection of a block and what it is joined to. -/
def below? (w : Workspace) (b : BlockId) : Except Fault (Option (ConnectionId × ConnectionId)) := do
  match (← w.getBlock b).next with
  | some next => return (← w.getConnection next).target.map (next, ·)
  | none => return none

/-- Takes a block out of its stack and joins what was above it with what was below it, if these fit
together. -/
def unplugHealing (w : Workspace) (above next belowPrevious : ConnectionId) :
    Except Fault Workspace := do
  let (_, w) ← w.unlink next true
  let (_, w) ← w.unlink above true
  match ← w.checkStructure above belowPrevious with
  | none => w.link above belowPrevious
  | some _ => return w

/-- Separates a block from the connection it is plugged into.  With `heal`, a block below it in a
stack takes its place if it fits there and else stands alone; without, the rest of the stack goes
with the block. -/
def unplug (w : Workspace) (b : BlockId) (heal : Bool) : Except Fault Workspace := do
  match ← w.parentConnection? b with
  | none => return w
  | some above =>
    let aboveConnection ← w.getConnection above
    match ← w.below? b with
    | some (next, belowPrevious) =>
      if heal && aboveConnection.kind == .nextStatement then
        let belowBlock := (← w.getConnection belowPrevious).block
        let w ← w.unplugHealing above next belowPrevious
        w.refresh [b, aboveConnection.block, belowBlock]
      else
        let (_, w) ← w.unlink above true
        w.refresh [b, aboveConnection.block]
    | none =>
      let (_, w) ← w.unlink above true
      w.refresh [b, aboveConnection.block]

/-! ## Disposal -/

/-- Frees a connection that is not joined. -/
def disposeConnection (w : Workspace) (c : ConnectionId) : Except Fault Workspace := do
  require (← w.getConnection c).target.isNone (.stillConnected c)
  let w := w.unregister c
  return { w with connections := w.connections.erase c }

/-- Frees a variable.  Uses that were bound to it are bound to nothing. -/
def disposeVariable (w : Workspace) (v : VariableId) : Except Fault Workspace := do
  let vars :=
    if (← w.getVariable v).isReference then w.vars
    else w.vars.map fun _ other => other.forget v
  return { w with vars := vars.erase v }

/-- Separates a block from its parent silently. -/
def sever (w : Workspace) (b : BlockId) : Except Fault Workspace := do
  match (← w.getBlock b).superior? with
  | some c => if (← w.getConnection c).isConnected then return (← w.unlink c false).2 else return w
  | none => return w

/-- Frees a block from which nothing hangs. -/
def release (w : Workspace) (b : BlockId) : Except Fault Workspace := do
  let w ← w.sever b
  let block ← w.getBlock b
  let w ← block.connections.foldlM disposeConnection w
  let w ← block.vars.foldlM disposeVariable w
  let w := w.removeTop b
  return { w with blocks := w.blocks.erase b }

/-- Cuts the stack below a block; gives the block that was there. -/
def cutBelow (w : Workspace) (b : BlockId) : Except Fault (Option BlockId × Workspace) := do
  match ← w.below? b with
  | some (next, _) =>
    let ((_, child), w) ← w.unlink next true
    return (some child, w)
  | none => return (none, w)

/-- Disposes of a block and everything plugged into its inputs.  The block is unplugged first; the
stack below it survives. -/
def dispose (w : Workspace) (b : BlockId) (heal : Bool) : Except Fault Workspace := do
  let oldParent := (← w.getBlock b).parent
  let w ← w.unplug b heal
  let (below, w) ← w.cutBelow b
  let doomed ← w.descendants b
  let w ← doomed.reverse.foldlM release w
  let w := w.fire (.delete b doomed)
  w.refresh (oldParent.toList ++ below.toList)

/-- Disposes of a block, healing its stack if the options say so. -/
def delete (w : Workspace) (b : BlockId) : Except Fault Workspace :=
  w.dispose b w.options.healOnDelete

/-! ## Renaming -/

/-- Renames the variable that a field holds. -/
def renameVariable (w : Workspace) (b : BlockId) (field name : String) :
    Except Fault Workspace := do
  match ← w.fieldVariable? b field with
  | none => .error (.notVariable b field)
  | some v => do
    let old := (← w.getVariable v).name
    let w ← w.modifyVariable v ({ · with name })
    let w := w.fire (.change b ⟨.field, some field⟩ old name)
    w.refresh [b]

end Workspace

end BlockGraph
