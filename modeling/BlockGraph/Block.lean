import BlockGraph.Decimal.Format
import BlockGraph.Id
import BlockGraph.Kind

/-!
# Blocks

A block has a kind, a row of inputs with fields on them, and connections.  It knows the block it is
plugged into and the blocks plugged into it only by their identities; the workspace holds the blocks
themselves.

A name may be empty, and then several inputs can share it.  Looking up a name finds the first.
-/

namespace BlockGraph

/-- Where a block that stands alone is shown. -/
structure Coordinate where
  x : Float := 0
  y : Float := 0
deriving Inhabited

namespace Coordinate

def text (c : Coordinate) : String := "(" ++ Decimal.plain c.x ++ ", " ++ Decimal.plain c.y ++ ")"

/-- Equality of places; a coordinate that is not a number equals none. -/
def same (a b : Coordinate) : Bool := a.x == b.x && a.y == b.y

/-- Equality of places that may be absent. -/
def sameOption : Option Coordinate → Option Coordinate → Bool
  | none, none => true
  | some a, some b => a.same b
  | _, _ => false

end Coordinate

/-! ## Fields -/

inductive FieldValue where
  /-- Fixed text, which is not saved. -/
  | label (s : String)
  | text (s : String)
  | number (x : Float)
  | checkbox (b : Bool)
  /-- The selected option. -/
  | dropdown (s : String)
  /-- A variable, declared or used. -/
  | var (id : VariableId)
deriving Inhabited

namespace FieldValue

def heldVariable? : FieldValue → Option VariableId
  | var id => some id
  | _ => none

def isLabel : FieldValue → Bool
  | label _ => true
  | _ => false

end FieldValue

structure Field where
  name : String
  value : FieldValue
deriving Inhabited

/-- Whether a field has a name to be saved under and something to save. -/
def Field.isSaved (f : Field) : Bool := !f.name.isEmpty && !f.value.isLabel

/-! ## Inputs -/

structure Input where
  name : String
  kind : InputKind
  fields : List Field := []
  /-- The socket; dummy inputs have none. -/
  connection : Option ConnectionId := none
deriving Inhabited

/-! ## Blocks -/

structure Block where
  kind : Kind
  inputs : List Input := []
  output : Option ConnectionId := none
  previous : Option ConnectionId := none
  next : Option ConnectionId := none
  parent : Option BlockId := none
  /-- The blocks plugged into this one, in the order they were plugged in. -/
  children : List BlockId := []
  disabled : Bool := false
  collapsed : Bool := false
  comment : Option String := none
  offset : Coordinate := {}
deriving Inhabited

namespace Block

def input? (b : Block) (name : String) : Option Input := b.inputs.find? fun i => i.name == name

def inputIndex? (b : Block) (name : String) : Option Nat :=
  b.inputs.findIdx? fun i => i.name == name

/-- The connection by which the block plugs into a parent. -/
def superior? (b : Block) : Option ConnectionId := b.output.or b.previous

/-- The sockets of the inputs. -/
def sockets (b : Block) : List ConnectionId := b.inputs.filterMap Input.connection

/-- Every connection of the block: output, previous, inputs, next. -/
def connections (b : Block) : List ConnectionId :=
  b.output.toList ++ b.previous.toList ++ b.sockets ++ b.next.toList

/-- The connections below which children hang: inputs, then next. -/
def inferiors (b : Block) : List ConnectionId := b.sockets ++ b.next.toList

/-- All fields, input by input. -/
def fields (b : Block) : List Field := b.inputs.flatMap Input.fields

def field? (b : Block) (name : String) : Option Field := b.fields.find? fun f => f.name == name

/-- The variables that the fields hold. -/
def vars (b : Block) : List VariableId := b.fields.filterMap (·.value.heldVariable?)

/-- The name of the input that has a connection. -/
def inputNameOf? (b : Block) (c : ConnectionId) : Option String :=
  (b.inputs.find? fun i => i.connection == some c).map Input.name

/-- The names of the inputs that hold the items of a list. -/
def itemNames (b : Block) : List String :=
  (b.inputs.map Input.name).filter fun name => Kind.itemMark.isPrefixOf name

/-- Whether the block has an input that takes blocks. -/
def hasSockets (b : Block) : Bool := b.inputs.any fun i => i.kind != .dummy

/-- Replaces the value of the first field with a name, in a list of fields. -/
def setInFields (name : String) (value : FieldValue) : List Field → List Field
  | [] => []
  | f :: fs => if f.name == name then { f with value } :: fs else f :: setInFields name value fs

/-- Replaces the value of the first field with a name. -/
def setInInputs (name : String) (value : FieldValue) : List Input → List Input
  | [] => []
  | i :: is =>
    if i.fields.any (·.name == name) then { i with fields := setInFields name value i.fields } :: is
    else i :: setInInputs name value is

def setField (b : Block) (name : String) (value : FieldValue) : Block :=
  { b with inputs := setInInputs name value b.inputs }

end Block

end BlockGraph
