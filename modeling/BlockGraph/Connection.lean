import BlockGraph.Kind
import BlockGraph.Ty.Error

/-!
# Connections

A connection is a place where a block can be joined to another.  There are four kinds, which pair
up: an output plugs into a value input, a previous connection into a next connection.  The side that
plugs in is the superior one, and its block becomes the child.

A connection may name the tags it accepts.  Two connections fit by their tags when one of them
accepts everything or they share a tag (`Check.intersects`).

`Registry` is the set of connections that are free to be joined.
-/

namespace BlockGraph

inductive ConnectionKind where
  | output
  | inputValue
  | previousStatement
  | nextStatement
deriving DecidableEq, Inhabited

namespace ConnectionKind

def all : List ConnectionKind := [output, inputValue, previousStatement, nextStatement]

def name : ConnectionKind → String
  | output => "Output"
  | inputValue => "InputValue"
  | previousStatement => "PreviousStatement"
  | nextStatement => "NextStatement"

def ofName? (name : String) : Option ConnectionKind := all.find? fun k => k.name == name

/-- The kind that a connection can be joined to. -/
def opposite : ConnectionKind → ConnectionKind
  | output => inputValue
  | inputValue => output
  | previousStatement => nextStatement
  | nextStatement => previousStatement

/-- Whether the owner becomes the child when this side is joined. -/
def isSuperior : ConnectionKind → Bool
  | output => true
  | previousStatement => true
  | _ => false

/-- Whether the connection carries a type. -/
def isValue : ConnectionKind → Bool
  | output => true
  | inputValue => true
  | _ => false

theorem opposite_opposite (k : ConnectionKind) : k.opposite.opposite = k := by cases k <;> rfl

theorem isSuperior_opposite (k : ConnectionKind) : k.opposite.isSuperior = !k.isSuperior := by
  cases k <;> rfl

end ConnectionKind

/-- Whether two checks accept each other. -/
def Check.intersects : Check → Check → Bool
  | some a, some b => a.any fun tag => b.contains tag
  | _, _ => true

structure Connection where
  /-- The block that the connection belongs to. -/
  block : BlockId
  kind : ConnectionKind
  check : Check := none
  /-- The declared type; sockets of values in typed workspaces have one. -/
  type : Option Ty := none
  /-- The connection of another block that this one is joined to. -/
  target : Option ConnectionId := none
  /-- What the last inference found wrong here. -/
  error : Option TypeError := none

namespace Connection

def isConnected (c : Connection) : Bool := c.target.isSome

/-- Whether a connection is joined to another than `id`. -/
def isTaken (c : Connection) (id : ConnectionId) : Bool :=
  match c.target with
  | some t => t != id
  | none => false

end Connection

/-! ## The registry of free connections -/

/-- A set of connections, listed in the order of their numbers. -/
structure Registry where
  ids : Std.ExtTreeSet ConnectionId

namespace Registry

def empty : Registry := ⟨∅⟩

def register (r : Registry) (id : ConnectionId) : Registry := ⟨r.ids.insert id⟩

def unregister (r : Registry) (id : ConnectionId) : Registry := ⟨r.ids.erase id⟩

def contains (r : Registry) (id : ConnectionId) : Bool := r.ids.contains id

def size (r : Registry) : Nat := r.ids.size

def isEmpty (r : Registry) : Bool := r.ids.isEmpty

def toList (r : Registry) : List ConnectionId := r.ids.toList

end Registry

end BlockGraph
