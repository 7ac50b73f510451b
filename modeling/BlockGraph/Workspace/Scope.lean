import BlockGraph.Scope.Env
import BlockGraph.Workspace.Query

/-!
# Scope

A block that declares a variable declares it into one of its inputs: the parameter of a function
into its body, the name of a `let` into the part after `in`.  What a name denotes at a block follows
from the inputs on the way from the block up to its root.

`Workspace.envAt` walks up and gives the environment at a connection.  `Workspace.resolveReferences`
walks down from a block, level by level, and binds every use of a variable to the declaration that
its name denotes there, or to none; `Workspace.resolvable` only tells whether all of them would be
bound.
-/

namespace BlockGraph.Workspace

/-- What the owner of a connection declares into it. -/
def declaredAt (w : Workspace) (c : ConnectionId) : Except Fault (List (String × VariableId)) := do
  let owner := (← w.getConnection c).block
  match (← w.getBlock owner).kind.scope? with
  | some input =>
    if (← w.inputConnection? owner input) = some c then
      let v ← w.ownVariable owner
      return [((← w.getVariable v).name, v)]
    else return []
  | none => return []

def envWithin (w : Workspace) : Nat → ConnectionId → Except Fault Env
  | 0, _ => .ok .empty
  | height + 1, c => do
    let connection ← w.getConnection c
    if connection.kind.isSuperior then
      match connection.target with
      | some t => w.envWithin height t
      | none => return .empty
    else
      match ← w.parentConnection? connection.block with
      | some p => return (← w.envWithin height p).extend (← w.declaredAt c)
      | none => return Env.empty.extend (← w.declaredAt c)

/-- The environment that a block plugged into a connection sees.  For an output or a previous
connection it is that of the connection it is joined to. -/
def envAt (w : Workspace) (c : ConnectionId) : Except Fault Env :=
  w.envWithin (w.depthBound + 2) c

/-- The environment at a connection, the empty one at none. -/
def envAt? (w : Workspace) : Option ConnectionId → Except Fault Env
  | some c => w.envAt c
  | none => .ok .empty

/-- The uses among some variables, with their names. -/
def referencesAmong (w : Workspace) :
    List VariableId → Except Fault (List (VariableId × String))
  | [] => .ok []
  | v :: vs => do
    let found ← w.getVariable v
    let rest ← w.referencesAmong vs
    return if found.isReference then (v, found.name) :: rest else rest

/-- The uses of variables in the fields of a block. -/
def referencesOf (w : Workspace) (b : BlockId) : Except Fault (List (VariableId × String)) := do
  w.referencesAmong (← w.getBlock b).vars

/-- The blocks joined to some connections, each with the environment it sees. -/
def envsBelow (w : Workspace) (env : Env) : List ConnectionId → Except Fault (List (BlockId × Env))
  | [] => .ok []
  | c :: cs => do
    match ← w.targetBlock? c with
    | some child =>
      let inner := env.extend (← w.declaredAt c)
      return (child, inner) :: (← w.envsBelow env cs)
    | none => w.envsBelow env cs

/-- The children of a block, each with the environment it sees. -/
def childEnvs (w : Workspace) (b : BlockId) (env : Env) : Except Fault (List (BlockId × Env)) := do
  w.envsBelow env (← w.getBlock b).inferiors

/-! ## Binding -/

/-- Binds uses in an environment; tells whether every name denotes something. -/
def bindReferences (w : Workspace) (env : Env) :
    List (VariableId × String) → Except Fault (Bool × Workspace)
  | [] => .ok (true, w)
  | (v, name) :: rest => do
    let w ← w.modifyVariable v (·.bindTo (env.lookup? name))
    let (all, w) ← w.bindReferences env rest
    return ((env.lookup? name).isSome && all, w)

/-- Binds the uses in some blocks; gives also the blocks below them. -/
def bindLevel (w : Workspace) :
    List (BlockId × Env) → Except Fault (Bool × List (BlockId × Env) × Workspace)
  | [] => .ok (true, [], w)
  | (b, env) :: rest => do
    let (here, w) ← w.bindReferences env (← w.referencesOf b)
    let below ← w.childEnvs b env
    let (others, more, w) ← w.bindLevel rest
    return (here && others, below ++ more, w)

/-- Binds the uses in some blocks and below them, level by level. -/
def bindLevels (w : Workspace) : Nat → List (BlockId × Env) → Except Fault (Bool × Workspace)
  | 0, _ => .ok (true, w)
  | depth + 1, level =>
    if level.isEmpty then .ok (true, w)
    else do
      let (here, below, w) ← w.bindLevel level
      let (others, w) ← w.bindLevels depth below
      return (here && others, w)

/-- Binds every use in a block and below it, as if the block were plugged into `at?`; tells whether
all of them found a declaration. -/
def resolveReferences (w : Workspace) (b : BlockId) (at? : Option ConnectionId) :
    Except Fault (Bool × Workspace) := do
  w.bindLevels w.depthBound [(b, ← w.envAt? at?)]

/-! ## Asking only -/

/-- Whether the uses in some blocks would find declarations; if so, gives the blocks below. -/
def resolvableLevel (w : Workspace) :
    List (BlockId × Env) → Except Fault (Option (List (BlockId × Env)))
  | [] => .ok (some [])
  | (b, env) :: rest => do
    let references ← w.referencesOf b
    if references.any fun (_, name) => (env.lookup? name).isNone then return none
    let below ← w.childEnvs b env
    match ← w.resolvableLevel rest with
    | some more => return some (below ++ more)
    | none => return none

def resolvableLevels (w : Workspace) : Nat → List (BlockId × Env) → Except Fault Bool
  | 0, _ => .ok true
  | depth + 1, level =>
    if level.isEmpty then .ok true
    else do
      match ← w.resolvableLevel level with
      | some below => w.resolvableLevels depth below
      | none => return false

/-- Whether every use in a block and below it would find a declaration, were the block plugged into
`at?`. -/
def resolvable (w : Workspace) (b : BlockId) (at? : Option ConnectionId) : Except Fault Bool := do
  w.resolvableLevels w.depthBound [(b, ← w.envAt? at?)]

/-! ## Where a block stands -/

/-- Binds the uses in a block and below it where it stands. -/
def rebind (w : Workspace) (b : BlockId) : Except Fault (Bool × Workspace) := do
  w.resolveReferences b (← w.parentConnection? b)

/-- The uses in a block and below it that are bound to nothing. -/
def unresolved (w : Workspace) (b : BlockId) : Except Fault (List VariableId) := do
  let references ← (← w.descendants b).mapM w.referencesOf
  (references.flatten.map Prod.fst).filterM fun v => do
    return (← w.getVariable v).binding?.isNone

end BlockGraph.Workspace
