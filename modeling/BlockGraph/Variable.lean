import BlockGraph.Id
import BlockGraph.Ty

/-!
# Variables

A variable belongs to a block and has a name.  A value declares the name, as the parameter of a
function or the name a `let` gives; in a typed workspace it has a type.  A reference uses a name; it
is bound to the value that the name denotes where the reference stands, or to none.
-/

namespace BlockGraph

inductive VariableRole where
  /-- A declaration and its type. -/
  | value (type : Option Ty)
  /-- A use and the declaration it is bound to. -/
  | reference (binding : Option VariableId)

structure Variable where
  name : String
  /-- The block that the variable belongs to. -/
  block : BlockId
  role : VariableRole

namespace Variable

def isReference (v : Variable) : Bool :=
  match v.role with
  | .reference _ => true
  | .value _ => false

/-- The value that a reference is bound to. -/
def binding? (v : Variable) : Option VariableId :=
  match v.role with
  | .reference binding => binding
  | .value _ => none

/-- The type of a declaration. -/
def type? (v : Variable) : Option Ty :=
  match v.role with
  | .value type => type
  | .reference _ => none

/-- Binds a reference; a value is left as it is. -/
def bindTo (v : Variable) (binding : Option VariableId) : Variable :=
  match v.role with
  | .reference _ => { v with role := .reference binding }
  | .value _ => v

/-- Releases a reference from a value that is about to go. -/
def forget (v : Variable) (gone : VariableId) : Variable :=
  if v.binding? = some gone then v.bindTo none else v

end Variable

end BlockGraph
