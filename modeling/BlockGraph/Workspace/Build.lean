import BlockGraph.Workspace.Query

/-!
# Construction

Making connections, variables, inputs and fields, and whole blocks from the layout and the signature
of their kind.  In a typed workspace every socket of a value and every declaration starts with a
type variable of its own; `Workspace.declareTypes` then gives the block the types of its kind's
signature over fresh variables.
-/

namespace BlockGraph

/-- A precondition: the fault unless it holds. -/
def require (condition : Bool) (fault : Fault) : Except Fault Unit :=
  if condition then .ok () else .error fault

namespace Workspace

/-! ## Connections -/

/-- Makes a free connection. -/
def createConnection (w : Workspace) (block : BlockId) (kind : ConnectionKind) (check : Check) :
    ConnectionId × Workspace :=
  let id : ConnectionId := ⟨w.connectionCount⟩
  let typed := w.isTyped && kind.isValue
  let type := if typed then some w.types.fresh.1 else none
  let types := if typed then w.types.fresh.2 else w.types
  (id, { w with
    connections := w.connections.insert id { block, kind, check, type }
    connectionCount := w.connectionCount + 1
    types
    free := w.free.register id })

/-- Gives a block an output. -/
def declareOutput (w : Workspace) (b : BlockId) (check : Check) : Except Fault Workspace := do
  require (← w.getBlock b).previous.isNone (.outputAndPrevious b)
  let (c, w) := w.createConnection b .output check
  w.modifyBlock b ({ · with output := some c })

/-- Gives a block a connection to the block above it. -/
def declarePrevious (w : Workspace) (b : BlockId) (check : Check) : Except Fault Workspace := do
  require (← w.getBlock b).output.isNone (.outputAndPrevious b)
  let (c, w) := w.createConnection b .previousStatement check
  w.modifyBlock b ({ · with previous := some c })

/-- Gives a block a connection to the block below it. -/
def declareNext (w : Workspace) (b : BlockId) (check : Check) : Except Fault Workspace := do
  let (c, w) := w.createConnection b .nextStatement check
  w.modifyBlock b ({ · with next := some c })

/-! ## Variables -/

def pushVariable (w : Workspace) (v : Variable) : VariableId × Workspace :=
  let id : VariableId := ⟨w.variableCount⟩
  (id, { w with
    vars := w.vars.insert id v
    variableCount := w.variableCount + 1 })

/-- Makes a declaration that belongs to a block. -/
def newValue (w : Workspace) (block : BlockId) (name : String) : VariableId × Workspace :=
  if w.isTyped then
    let (ty, w) := w.freshType
    w.pushVariable { name, block, role := .value (some ty) }
  else w.pushVariable { name, block, role := .value none }

/-- Makes a use that belongs to a block, not yet bound. -/
def newReference (w : Workspace) (block : BlockId) (name : String) : VariableId × Workspace :=
  w.pushVariable { name, block, role := .reference none }

/-! ## Inputs and fields -/

/-- Makes the socket of an input. -/
def createSocket (w : Workspace) (b : BlockId) (kind : InputKind) (check : Check) :
    Option ConnectionId × Workspace :=
  match kind with
  | .value =>
    let (c, w) := w.createConnection b .inputValue check
    (some c, w)
  | .statement =>
    let (c, w) := w.createConnection b .nextStatement check
    (some c, w)
  | .dummy => (none, w)

/-- Appends an input and gives its index.  A name that is not empty must be new. -/
def appendInput (w : Workspace) (b : BlockId) (kind : InputKind) (name : String) (check : Check) :
    Except Fault (Nat × Workspace) := do
  if !name.isEmpty then
    require ((← w.getBlock b).input? name).isNone (.inputExists b name)
  let (connection, w) := w.createSocket b kind check
  let index := (← w.getBlock b).inputs.length
  let w ← w.modifyBlock b fun block =>
    { block with inputs := block.inputs ++ [{ name, kind, connection }] }
  return (index, w)

/-- Appends a field to the input with an index. -/
def appendField (w : Workspace) (b : BlockId) (index : Nat) (field : Field) :
    Except Fault Workspace := do
  require (decide (index < (← w.getBlock b).inputs.length)) (.inputIndex b index)
  w.modifyBlock b fun block =>
    { block with
      inputs := block.inputs.modify index fun i => { i with fields := i.fields ++ [field] } }

/-! ## Types of sockets -/

def setOutputType (w : Workspace) (b : BlockId) (ty : Ty) : Except Fault Workspace := do
  match (← w.getBlock b).output with
  | some c => w.modifyConnection c ({ · with type := some ty })
  | none => .error (.noOutput b)

def setInputType (w : Workspace) (b : BlockId) (name : String) (ty : Ty) :
    Except Fault Workspace := do
  match ← w.inputConnection? b name with
  | some c => w.modifyConnection c ({ · with type := some ty })
  | none => .error (.noValueInput b name)

def setVariableType (w : Workspace) (v : VariableId) (ty : Ty) : Except Fault Workspace := do
  require (!(← w.getVariable v).isReference) .untypedReference
  w.modifyVariable v ({ · with role := .value (some ty) })

/-- A type of a signature over the variables that start at `base`. -/
def instantiate (base : Nat) (ty : Ty) : Ty := ty.subst fun v => .var (base + v)

/-- Gives some inputs their types. -/
def setInputTypes (w : Workspace) (b : BlockId) (types : List (String × Ty)) :
    Except Fault Workspace :=
  types.foldlM (fun w (name, ty) => w.setInputType b name ty) w

/-- Gives the variable that a block declares its type, if the kind declares one. -/
def setBinderType (w : Workspace) (b : BlockId) : Option Ty → Except Fault Workspace
  | some ty => do w.setVariableType (← w.ownVariable b) ty
  | none => .ok w

/-- Gives the items of a list block their type, if the kind has items. -/
def setItemTypes (w : Workspace) (b : BlockId) : Option Ty → Except Fault Workspace
  | some ty => do w.setInputTypes b ((← w.getBlock b).itemNames.map (·, ty))
  | none => .ok w

/-- Gives the output its type, if the kind has one. -/
def setResultType (w : Workspace) (b : BlockId) : Option Ty → Except Fault Workspace
  | some ty => w.setOutputType b ty
  | none => .ok w

/-- Gives a block the types of its kind, over fresh variables. -/
def declareTypes (w : Workspace) (b : BlockId) : Except Fault Workspace := do
  let signature := (← w.getBlock b).kind.signature
  let (base, types) := w.types.freshMany signature.fresh
  let w ← { w with types }.setBinderType b (signature.binder.map (instantiate base))
  let w ← w.setInputTypes b (signature.inputs.map fun (name, ty) => (name, instantiate base ty))
  let w ← w.setItemTypes b (signature.items.map (instantiate base))
  w.setResultType b (signature.output.map (instantiate base))

/-! ## Blocks -/

def appendPlannedField (w : Workspace) (b : BlockId) (index : Nat) :
    Kind.FieldPlan → Except Fault Workspace
  | .label s => w.appendField b index ⟨"", .label s⟩
  | .number name => w.appendField b index ⟨name, .number 0⟩
  | .checkbox name value => w.appendField b index ⟨name, .checkbox value⟩
  | .dropdown name selected => w.appendField b index ⟨name, .dropdown selected⟩
  | .binder name =>
    let (v, w) := w.newValue b Kind.defaultName
    w.appendField b index ⟨name, .var v⟩
  | .reference name =>
    let (v, w) := w.newReference b Kind.defaultName
    w.appendField b index ⟨name, .var v⟩

def appendPlannedInput (w : Workspace) (b : BlockId) (plan : Kind.InputPlan) :
    Except Fault Workspace := do
  let (index, w) ← w.appendInput b plan.kind plan.name plan.check
  plan.fields.foldlM (fun w field => w.appendPlannedField b index field) w

/-- Makes the connections by which a block is joined to others above and below. -/
def applyStem (w : Workspace) (b : BlockId) : Kind.Stem → Except Fault Workspace
  | .output check => w.declareOutput b check
  | .statement => do
    let w ← w.declarePrevious b none
    w.declareNext b none

/-- Makes the connections, inputs and fields of a block. -/
def applyLayout (w : Workspace) (b : BlockId) (layout : Kind.Layout) : Except Fault Workspace := do
  let w ← w.applyStem b layout.stem
  layout.inputs.foldlM (fun w plan => w.appendPlannedInput b plan) w

/-- Gives a block of a typed workspace the types of its kind. -/
def declareTypesIfTyped (w : Workspace) (b : BlockId) : Except Fault Workspace :=
  if w.isTyped then w.declareTypes b else .ok w

/-- Makes a block with a number that is not in use; it stands alone. -/
def newBlockWithId (w : Workspace) (kind : Kind) (id : BlockId) : Except Fault Workspace := do
  require (!w.containsBlock id) (.blockInUse id)
  let w := { w with
    nextBlock := max w.nextBlock (id.index + 1)
    blocks := w.blocks.insert id { kind }
    top := w.top ++ [id] }
  let w ← w.applyLayout id kind.layout
  let w ← w.declareTypesIfTyped id
  return w.fire (.create id kind)

/-- Makes a block with the next number. -/
def newBlock (w : Workspace) (kind : Kind) : Except Fault (BlockId × Workspace) := do
  let id : BlockId := ⟨w.nextBlock⟩
  return (id, ← w.newBlockWithId kind id)

end Workspace

end BlockGraph
