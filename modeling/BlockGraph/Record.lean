import BlockGraph.Block
import BlockGraph.Json

/-!
# Records

A record is the saved form of a block tree: what is saved of a block by itself, and the records of
what is plugged into its inputs and of the block below it.

`Record.json` gives a record as a JSON value.  What has its default value is left out, so that a
plain block has only its type and its number.  `Record.same` compares records, numbers as numbers.
-/

namespace BlockGraph

/-- What is saved of a block without the blocks that hang from it. -/
structure SavedBlock where
  /-- The tag of the block's kind. -/
  tag : String
  id : BlockId
  /-- The fields by name. -/
  fields : Dict Json := []
  /-- What the kind saves beside the fields. -/
  state : Option Json := none
  disabled : Bool := false
  collapsed : Bool := false
  comment : Option String := none
  /-- Where the block stands, if it stands alone. -/
  position : Option Coordinate := none
deriving Inhabited

inductive Record where
  | node (block : SavedBlock) (inputs : List (String × Record)) (next : Option Record)
deriving Inhabited

namespace Record

def block : Record → SavedBlock
  | node block _ _ => block

/-! ## Equality -/

/-- Equality of optional JSON values. -/
def sameState : Option Json → Option Json → Bool
  | none, none => true
  | some a, some b => a.same b
  | _, _ => false

def sameBlock (a b : SavedBlock) : Bool :=
  a.tag == b.tag && a.id == b.id && Json.sameMembers a.fields b.fields &&
    sameState a.state b.state && a.disabled == b.disabled && a.collapsed == b.collapsed &&
    a.comment == b.comment && Coordinate.sameOption a.position b.position

mutual

def same : Record → Record → Bool
  | node a as n, node b bs m => sameBlock a b && sameInputs as bs && sameNext n m

def sameInputs : List (String × Record) → List (String × Record) → Bool
  | [], [] => true
  | (k, a) :: as, (l, b) :: bs => k == l && a.same b && sameInputs as bs
  | _, _ => false

def sameNext : Option Record → Option Record → Bool
  | none, none => true
  | some a, some b => a.same b
  | _, _ => false

end

/-! ## JSON -/

/-- A member, unless it is left out. -/
def member (key : String) : Option Json → List (String × Json)
  | some value => [(key, value)]
  | none => []

/-- A flag, left out when it is off. -/
def flag (key : String) (value : Bool) : List (String × Json) :=
  if value then [(key, .bool true)] else []

/-- An object, left out when it is empty. -/
def object (key : String) : List (String × Json) → List (String × Json)
  | [] => []
  | members => [(key, .obj members)]

def coordinateJson (c : Coordinate) : Json := .obj [("x", .ofFloat c.x), ("y", .ofFloat c.y)]

/-- The members before the children. -/
def leading (b : SavedBlock) : List (String × Json) :=
  [("type", .str b.tag), ("id", .int b.id.index)] ++ object "fields" b.fields ++
    member "extra_state" b.state

/-- The members after the children. -/
def trailing (b : SavedBlock) : List (String × Json) :=
  flag "disabled" b.disabled ++ flag "collapsed" b.collapsed ++
    member "comment" (b.comment.map Json.str) ++ member "position" (b.position.map coordinateJson)

mutual

def json : Record → Json
  | node block inputs next =>
    .obj (leading block ++ object "inputs" (inputsJson inputs) ++ member "next" (nextJson next) ++
      trailing block)

def inputsJson : List (String × Record) → List (String × Json)
  | [] => []
  | (name, child) :: rest => (name, child.json) :: inputsJson rest

def nextJson : Option Record → Option Json
  | none => none
  | some below => some below.json

end

/-- The compact JSON text of a record. -/
def text (r : Record) : String := r.json.text

end Record

end BlockGraph
