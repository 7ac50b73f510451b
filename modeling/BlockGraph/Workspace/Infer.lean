import BlockGraph.Workspace.Build
import BlockGraph.Workspace.Scope

/-!
# Type inference

Inferring a tree has two passes.  `Workspace.clearTypes` gives every block of the tree its kind's
types over fresh variables and forgets the errors found before.  `Workspace.infer` then unifies,
from the leaves to the root, each value socket with the output plugged into it, and afterwards, from
the root to the leaves, each use of a variable with its declaration, so that a conflict between the
two is reported at the use.  An equation that cannot hold is recorded at its connection and does not
stop the pass.

`Workspace.refresh` brings whole trees up to date after an edit: it binds the uses of variables and
infers.  Each pass leaves the variables of the pass before behind, so once the table has doubled it
is rebuilt from nothing.
-/

namespace BlockGraph.Workspace

/-! ## Clearing -/

/-- Forgets the error at a connection and gives its type, if it has one, a fresh variable. -/
def clearConnection (w : Workspace) (c : ConnectionId) : Workspace :=
  match w.connections[c]? with
  | some connection =>
    match connection.type with
    | some _ =>
      let (ty, w) := w.freshType
      { w with
        connections := w.connections.insert c { connection with type := some ty, error := none } }
    | none => { w with connections := w.connections.insert c { connection with error := none } }
  | none => w

def clearBlock (w : Workspace) (b : BlockId) : Except Fault Workspace := do
  let w := (← w.getBlock b).connections.foldl clearConnection w
  w.declareTypes b

/-- Gives every block of a tree the types of its kind anew. -/
def clearTypes (w : Workspace) (root : BlockId) : Except Fault Workspace := do
  if !w.isTyped then return w
  (← w.descendants root).foldlM clearBlock w

/-! ## Equations -/

/-- Makes two types equal; a clash is recorded at the connection. -/
def recordUnify (w : Workspace) (c : ConnectionId) (expected found : Ty) (origin : Origin) :
    Except Fault Workspace :=
  match w.types.unify expected found with
  | .done types => .ok { w with types }
  | .stopped (.clash clash) types =>
    { w with types }.modifyConnection c ({ · with error := some ⟨clash, origin⟩ })
  | .stopped (.fault fault) _ => .error fault

/-- Unifies the socket of an input with the output plugged into it. -/
def unifyInput (w : Workspace) (b : BlockId) (input : Input) : Except Fault Workspace := do
  match input.kind, input.connection with
  | .value, some c =>
    let socket ← w.getConnection c
    match socket.target with
    | some t =>
      match socket.type, (← w.getConnection t).type with
      | some expected, some found => w.recordUnify c expected found (.input b input.name)
      | _, _ => return w
    | none => return w
  | _, _ => return w

/-- Unifies every value input of a block with what is plugged into it. -/
def unifyInputs (w : Workspace) (b : BlockId) : Except Fault Workspace := do
  (← w.getBlock b).inputs.foldlM (fun w input => w.unifyInput b input) w

/-- The declared type of a block's output. -/
def outputExpr? (w : Workspace) (b : BlockId) : Except Fault (Option Ty) := do
  match (← w.getBlock b).output with
  | some c => return (← w.getConnection c).type
  | none => return none

/-- Unifies the output of a use of a variable with the type of the declaration it is bound to. -/
def unifyReference (w : Workspace) (b : BlockId) : Except Fault Workspace := do
  if (← w.getBlock b).kind ≠ .variablesGet then return w
  let reference ← w.getVariable (← w.ownVariable b)
  match reference.binding? with
  | none => return w
  | some value =>
    match ← w.variableType? value, (← w.getBlock b).output with
    | some found, some c =>
      match (← w.getConnection c).type with
      | some expected => w.recordUnify c expected found (.reference b reference.name)
      | none => return w
    | _, _ => return w

/-! ## Types of sockets -/

/-- The type of a connection, resolved. -/
def typeOf? (w : Workspace) (c : ConnectionId) : Except Fault (Option Ty) := do
  match (← w.getConnection c).type with
  | some ty => return some (← w.types.resolve ty)
  | none => return none

def outputType? (w : Workspace) (b : BlockId) : Except Fault (Option Ty) := do
  match (← w.getBlock b).output with
  | some c => w.typeOf? c
  | none => return none

def inputType? (w : Workspace) (b : BlockId) (name : String) : Except Fault (Option Ty) := do
  match ← w.inputConnection? b name with
  | some c => w.typeOf? c
  | none => return none

/-- The connections at which the last inference found an error, in the order of their numbers. -/
def typeErrors (w : Workspace) : List (ConnectionId × TypeError) :=
  w.connections.toList.filterMap fun (c, connection) => connection.error.map (c, ·)

/-! ## Passes -/

/-- Infers the types of a tree whose types were cleared, and gives the type of its root. -/
def infer (w : Workspace) (root : BlockId) : Except Fault (Option Ty × Workspace) := do
  if !w.isTyped then return (none, w)
  let order ← w.descendants root
  let w ← order.reverse.foldlM unifyInputs w
  let w ← order.foldlM unifyReference w
  return (← w.outputType? root, w)

/-- Clears and infers a tree. -/
def reinfer (w : Workspace) (root : BlockId) : Except Fault (Option Ty × Workspace) := do
  (← w.clearTypes root).infer root

/-- Clears and infers, for the workspace only. -/
def reinferTree (w : Workspace) (root : BlockId) : Except Fault Workspace := do
  return (← w.reinfer root).2

/-- Tables smaller than this are not rebuilt. -/
def minTableSize : Nat := 1024

/-- Infers every tree into an empty table. -/
def rebuildTypes (w : Workspace) : Except Fault Workspace := do
  let w ← w.top.foldlM reinferTree { w with types := .empty }
  return { w with baseline := w.types.size }

/-- Rebuilds the type table once it has doubled. -/
def compactTypes (w : Workspace) : Except Fault Workspace :=
  if w.types.size ≤ 2 * max w.baseline minTableSize then .ok w else w.rebuildTypes

/-- The roots of the trees of some blocks, each once; blocks that are gone are skipped. -/
def rootsOf (w : Workspace) : List BlockId → List BlockId → Except Fault (List BlockId)
  | [], roots => .ok roots
  | b :: bs, roots => do
    if !w.containsBlock b then w.rootsOf bs roots
    else
      let root ← w.root b
      w.rootsOf bs (if roots.contains root then roots else roots ++ [root])

/-- Binds the uses of variables in a tree and infers its types. -/
def refreshTree (w : Workspace) (root : BlockId) : Except Fault Workspace := do
  let (_, w) ← w.resolveReferences root none
  w.reinferTree root

/-- Brings the trees of some blocks up to date. -/
def refresh (w : Workspace) (blocks : List BlockId) : Except Fault Workspace := do
  if !w.isTyped then return w
  let w ← (← w.rootsOf blocks []).foldlM refreshTree w
  w.compactTypes

/-! ## Sharing types between trees -/

/-- Copies declared types from connection to connection. -/
def copyTypes (w : Workspace) (pairs : List (ConnectionId × ConnectionId)) :
    Except Fault Workspace :=
  pairs.foldlM (fun w (c, source) => do
    let type := (← w.getConnection source).type
    w.modifyConnection c ({ · with type })) w

/-- Copies the types of declarations. -/
def copyVariableTypes (w : Workspace) (pairs : List (VariableId × VariableId)) :
    Except Fault Workspace :=
  pairs.foldlM (fun w (v, source) => do
    match ← w.variableType? source with
    | some ty => w.setVariableType v ty
    | none => return w) w

/-- The blocks joined to corresponding connections.  Both of a pair are joined or neither is. -/
def childPairs (w : Workspace) (a b : BlockId) :
    List (ConnectionId × ConnectionId) → Except Fault (List (BlockId × BlockId))
  | [] => .ok []
  | (c, d) :: rest => do
    match ← w.targetBlock? c, ← w.targetBlock? d with
    | some child, some source => return (child, source) :: (← w.childPairs a b rest)
    | none, none => w.childPairs a b rest
    | _, _ => .error (.differentChildren a b)

/-- Gives the tree of `a` the types of the tree of `b`, down to the given depth.  The two trees have
the same shape.  Of children the last come first. -/
def transplantWithin (w : Workspace) : Nat → BlockId × BlockId → Except Fault Workspace
  | 0, _ => .ok w
  | depth + 1, (a, b) => do
    let blockA ← w.getBlock a
    let blockB ← w.getBlock b
    require (blockA.kind == blockB.kind) (.differentKinds a b)
    require (blockA.connections.length == blockB.connections.length) (.differentSockets a b)
    let w ← w.copyTypes (blockA.connections.zip blockB.connections)
    let w ← w.copyVariableTypes (blockA.vars.zip blockB.vars)
    let below ← w.childPairs a b (blockA.inferiors.zip blockB.inferiors)
    below.reverse.foldlM (fun w pair => w.transplantWithin depth pair) w

/-- Gives a tree the types of another tree of the same shape, then infers the tree they came from,
so that both share its equations. -/
def transplantTypes (w : Workspace) (this other : BlockId) : Except Fault Workspace := do
  if !w.isTyped then return w
  let w ← w.transplantWithin w.depthBound (this, other)
  return (← w.infer (← w.root other)).2

end BlockGraph.Workspace
