import BlockGraph.Connection
import BlockGraph.Event.Bus
import BlockGraph.Options
import BlockGraph.Ty.Unify
import BlockGraph.Variable

/-!
# Workspaces

A workspace owns a block graph: its blocks, connections and variables by their identities, the list
of blocks that stand alone, the registry of free connections, the type table and the event bus.

An operation takes a workspace and gives the workspace after it, or a fault if its precondition is
broken.  This file holds the state, the lookups, and the single updates from which the operations
are built.  An update of something that does not exist is a fault.
-/

namespace BlockGraph

structure Workspace where
  options : Options
  blocks : Std.ExtTreeMap BlockId Block := ∅
  /-- The blocks without a parent, in the order they came to stand alone. -/
  top : List BlockId := []
  connections : Std.ExtTreeMap ConnectionId Connection := ∅
  /-- How many connections were ever made; numbers are not used again. -/
  connectionCount : Nat := 0
  vars : Std.ExtTreeMap VariableId Variable := ∅
  /-- How many variables were ever made. -/
  variableCount : Nat := 0
  free : Registry := .empty
  types : Table := .empty
  /-- The size of the type table when it was last rebuilt. -/
  baseline : Nat := 0
  events : Bus := .empty
  /-- The number of the next block that is not given one. -/
  nextBlock : Nat := 1

namespace Workspace

def new (options : Options) : Workspace := { options }

def isTyped (w : Workspace) : Bool := w.options.typed

/-! ## Lookup -/

def getBlock (w : Workspace) (id : BlockId) : Except Fault Block :=
  match w.blocks[id]? with
  | some b => .ok b
  | none => .error (.noBlock id)

def getConnection (w : Workspace) (id : ConnectionId) : Except Fault Connection :=
  match w.connections[id]? with
  | some c => .ok c
  | none => .error (.noConnection id)

def getVariable (w : Workspace) (id : VariableId) : Except Fault Variable :=
  match w.vars[id]? with
  | some v => .ok v
  | none => .error (.noVariable id)

def containsBlock (w : Workspace) (id : BlockId) : Bool := w.blocks.contains id

def containsConnection (w : Workspace) (id : ConnectionId) : Bool := w.connections.contains id

def containsVariable (w : Workspace) (id : VariableId) : Bool := w.vars.contains id

def blockCount (w : Workspace) : Nat := w.blocks.size

/-- The blocks in the order of their numbers. -/
def blockIds (w : Workspace) : List BlockId := w.blocks.keys

/-- How many type variables the table holds, those no longer used included. -/
def typeVarCount (w : Workspace) : Nat := w.types.size

/-! ## Single updates -/

def modifyBlock (w : Workspace) (id : BlockId) (f : Block → Block) : Except Fault Workspace := do
  let b ← w.getBlock id
  return { w with blocks := w.blocks.insert id (f b) }

def modifyConnection (w : Workspace) (id : ConnectionId) (f : Connection → Connection) :
    Except Fault Workspace := do
  let c ← w.getConnection id
  return { w with connections := w.connections.insert id (f c) }

def modifyVariable (w : Workspace) (id : VariableId) (f : Variable → Variable) :
    Except Fault Workspace := do
  let v ← w.getVariable id
  return { w with vars := w.vars.insert id (f v) }

def register (w : Workspace) (id : ConnectionId) : Workspace :=
  { w with free := w.free.register id }

def unregister (w : Workspace) (id : ConnectionId) : Workspace :=
  { w with free := w.free.unregister id }

/-- Enters a block at the end of the list of those that stand alone, unless it is there. -/
def addTop (w : Workspace) (id : BlockId) : Workspace :=
  if w.top.contains id then w else { w with top := w.top ++ [id] }

/-- Takes a block off the list of those that stand alone. -/
def removeTop (w : Workspace) (id : BlockId) : Workspace :=
  { w with top := (w.top.reverse.erase id).reverse }

/-- A new type variable. -/
def freshType (w : Workspace) : Ty × Workspace :=
  (w.types.fresh.1, { w with types := w.types.fresh.2 })

/-! ## Events -/

def fire (w : Workspace) (event : Event) : Workspace := { w with events := w.events.fire event }

def subscribe (w : Workspace) : Nat × Workspace :=
  (w.events.subscribe.1, { w with events := w.events.subscribe.2 })

def setEventsEnabled (w : Workspace) (enabled : Bool) : Workspace :=
  { w with events := w.events.setEnabled enabled }

def beginBatch (w : Workspace) : BatchToken × Workspace :=
  (w.events.beginBatch.1, { w with events := w.events.beginBatch.2 })

def endBatch (w : Workspace) (token : BatchToken) : Except Fault Workspace := do
  return { w with events := ← w.events.endBatch token }

end Workspace

end BlockGraph
