import BlockGraph.Workspace.Query

/-!
# Consistency

`Workspace.problems` looks over a workspace for parts that contradict each other: joined connections
that do not point at one another, parents that the connections do not confirm, blocks missing from
or wrongly on the list of those that stand alone, and connections whose place in the registry is
wrong.  A workspace in order has none.
-/

namespace BlockGraph

/-- A contradiction between parts of a workspace. -/
inductive Problem where
  | missingOwner (c : ConnectionId) (block : BlockId)
  | disposedTarget (c target : ConnectionId)
  | asymmetric (c target : ConnectionId)
  | connectedRegistered (c : ConnectionId)
  | freeUnregistered (c : ConnectionId)
  | disposedRegistered (c : ConnectionId)
  | wrongParent (block : BlockId) (parent attachedTo : Option BlockId)
  | notAmongChildren (block parent : BlockId)
  | childOnTop (block : BlockId)
  | notOnTop (block : BlockId)
deriving DecidableEq

namespace Problem

def blockText : Option BlockId → String
  | none => "None"
  | some b => "Some(" ++ b.description ++ ")"

def text : Problem → String
  | missingOwner c block => c.text ++ " belongs to missing block " ++ block.text
  | disposedTarget c target => c.text ++ " targets disposed " ++ target.text
  | asymmetric c target => c.text ++ " -> " ++ target.text ++ " is not symmetric"
  | connectedRegistered c => "connected " ++ c.text ++ " is still registered"
  | freeUnregistered c => "free " ++ c.text ++ " is not registered"
  | disposedRegistered c => "registry holds disposed " ++ c.text
  | wrongParent block parent attachedTo =>
    block.text ++ " has parent " ++ blockText parent ++ " but is attached to " ++
      blockText attachedTo
  | notAmongChildren block parent =>
    block.text ++ " missing from children of " ++ parent.text
  | childOnTop block => "child " ++ block.text ++ " is listed as top-level"
  | notOnTop block => block.text ++ " is not listed as top-level"

end Problem

namespace Workspace

/-- A problem if a condition fails. -/
def expect (condition : Bool) (problem : Problem) : List Problem :=
  if condition then [] else [problem]

def targetProblems (w : Workspace) (c target : ConnectionId) : List Problem :=
  match w.connections[target]? with
  | none => [.disposedTarget c target]
  | some other => expect (other.target == some c) (.asymmetric c target)

def connectionProblems (w : Workspace) (c : ConnectionId) (connection : Connection) :
    List Problem :=
  expect (w.containsBlock connection.block) (.missingOwner c connection.block) ++
    match connection.target with
    | some target =>
      w.targetProblems c target ++ expect (!w.free.contains c) (.connectedRegistered c)
    | none => expect (w.free.contains c) (.freeUnregistered c)

def registryProblems (w : Workspace) : List Problem :=
  w.free.toList.flatMap fun c => expect (w.containsConnection c) (.disposedRegistered c)

/-- Whether a parent lists a block among its children. -/
def isListedUnder (w : Workspace) (b parent : BlockId) : Bool :=
  match w.blocks[parent]? with
  | some p => p.children.contains b
  | none => false

def blockProblems (w : Workspace) (b : BlockId) (block : Block) : Except Fault (List Problem) := do
  let attachedTo ← w.attachedTo? b
  return expect (attachedTo == block.parent) (.wrongParent b block.parent attachedTo) ++
    match block.parent with
    | some parent =>
      expect (w.isListedUnder b parent) (.notAmongChildren b parent) ++
        expect (!w.top.contains b) (.childOnTop b)
    | none => expect (w.top.contains b) (.notOnTop b)

/-- Every contradiction in a workspace: connections first, then the registry, then blocks. -/
def problems (w : Workspace) : Except Fault (List Problem) := do
  let connections := w.connections.toList.flatMap fun (c, connection) =>
    w.connectionProblems c connection
  let blocks ← w.blocks.toList.mapM fun (b, block) => w.blockProblems b block
  return connections ++ w.registryProblems ++ blocks.flatten

end Workspace

end BlockGraph
