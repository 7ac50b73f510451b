import BlockGraph.Id

/-!
# Faults

Every operation of the library has a precondition on its arguments: the block it is given exists,
the connection it is told to cut is joined, and so on.  A call that breaks its precondition ends in
a `Fault`, which names the condition that failed.  Faults are not answers: an operation that can be
refused for a reason a user may cause (two sockets that do not fit, a record that does not load)
returns that reason as a value of its own type.
-/

namespace BlockGraph

/-- The precondition that a call broke. -/
inductive Fault where
  | noBlock (id : BlockId)
  | noConnection (id : ConnectionId)
  | noVariable (id : VariableId)
  | blockInUse (id : BlockId)
  | outputAndPrevious (id : BlockId)
  | inputExists (block : BlockId) (name : String)
  | noInput (block : BlockId) (name : String)
  | inputIndex (block : BlockId) (index : Nat)
  | referenceIndex (block : BlockId) (index : Nat)
  | beforeItself (index : Nat)
  | noField (block : BlockId) (name : String)
  | variableField
  | notVariable (block : BlockId) (field : String)
  | noBinder (block : BlockId)
  | notTopLevel
  | noOutput (block : BlockId)
  | noValueInput (block : BlockId) (name : String)
  | untypedReference
  | notConnected (id : ConnectionId)
  | stillConnected (id : ConnectionId)
  | wrongParent (child : BlockId)
  | differentKinds (a b : BlockId)
  | differentSockets (a b : BlockId)
  | differentChildren (a b : BlockId)
  | notItemList
  | batchOrder
  | unallocated (index size : Nat)
deriving DecidableEq

/-- The words in which a fault is reported. -/
def Fault.message : Fault → String
  | noBlock id => "block " ++ id.text ++ " does not exist"
  | noConnection id => "connection " ++ id.text ++ " does not exist"
  | noVariable id => "variable " ++ id.text ++ " does not exist"
  | blockInUse id => "block id " ++ id.text ++ " is already in use"
  | outputAndPrevious id =>
    "block " ++ id.text ++ " cannot have both an output and a previous connection"
  | inputExists block name =>
    "block " ++ block.text ++ " already has an input named `" ++ name ++ "`"
  | noInput block name => "block " ++ block.text ++ " has no input named `" ++ name ++ "`"
  | inputIndex block index =>
    "input index " ++ toString index ++ " out of range for block " ++ block.text
  | referenceIndex block index =>
    "reference index " ++ toString index ++ " out of range for block " ++ block.text
  | beforeItself index => "cannot move input " ++ toString index ++ " before itself"
  | noField block name => "block " ++ block.text ++ " has no field `" ++ name ++ "`"
  | variableField => "variable fields are changed with rename_variable"
  | notVariable block field =>
    "field `" ++ field ++ "` of block " ++ block.text ++ " is not a variable"
  | noBinder block => "block " ++ block.text ++ " has no VAR field"
  | notTopLevel => "only top-level blocks can be moved by offset"
  | noOutput block => "block " ++ block.text ++ " has no output"
  | noValueInput block name => "block " ++ block.text ++ " has no value input `" ++ name ++ "`"
  | untypedReference => "references do not own a type"
  | notConnected id => id.text ++ " is not connected"
  | stillConnected id => id.text ++ " must be disconnected before it is disposed"
  | wrongParent child =>
    "block " ++ child.text ++
      " must be connected to its new parent through its output or previous connection"
  | differentKinds a b => "blocks " ++ a.text ++ " and " ++ b.text ++ " have different types"
  | differentSockets a b => "blocks " ++ a.text ++ " and " ++ b.text ++ " have different sockets"
  | differentChildren a b => "blocks " ++ a.text ++ " and " ++ b.text ++ " have different children"
  | notItemList => "set_item_count needs a list_create_with block"
  | batchOrder => "batches must be closed innermost first"
  | unallocated index size =>
    "index out of bounds: the len is " ++ toString size ++ " but the index is " ++ toString index

end BlockGraph
