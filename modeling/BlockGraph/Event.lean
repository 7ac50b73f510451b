import BlockGraph.Block
import BlockGraph.Text.Quoted

/-!
# Events

Every change of a workspace is announced by an event: a block is made, deleted with everything that
hangs from it, moved, or one of its properties changes.  An event carries what was before and what
is after, so that a listener can follow the workspace without looking at it.
-/

namespace BlockGraph

/-- Which part of a block a change is about. -/
inductive Element where
  | field
  | disabled
  | collapsed
  | comment
deriving DecidableEq, Inhabited

def Element.name : Element → String
  | field => "Field"
  | disabled => "Disabled"
  | collapsed => "Collapsed"
  | comment => "Comment"

/-- A property of a block; for a field, also which. -/
structure Property where
  element : Element
  name : Option String := none
deriving DecidableEq, Inhabited

/-- Where a block is: plugged into an input or the next connection of a parent, or alone. -/
structure Place where
  parent : Option BlockId := none
  input : Option String := none
  coordinate : Option Coordinate := none
deriving Inhabited

/-- Equality of places, coordinates compared as numbers. -/
def Place.same (a b : Place) : Bool :=
  a.parent == b.parent && a.input == b.input && Coordinate.sameOption a.coordinate b.coordinate

inductive Event where
  | create (block : BlockId) (kind : Kind)
  /-- `ids` lists every block that goes, `block` first. -/
  | delete (block : BlockId) (ids : List BlockId)
  | move (block : BlockId) (old new : Place)
  | change (block : BlockId) (property : Property) (old new : String)

namespace Event

def block : Event → BlockId
  | create b _ => b
  | delete b _ => b
  | move b _ _ => b
  | change b _ _ _ => b

/-- Whether an event tells of no difference. -/
def isNull : Event → Bool
  | change _ _ old new => old == new
  | move _ old new => old.same new
  | _ => false

def parentText : Option BlockId → String
  | none => "top"
  | some id => id.text

def text : Event → String
  | create b kind => "create " ++ b.text ++ " (" ++ kind.tag ++ ")"
  | delete b ids => "delete " ++ b.text ++ " (" ++ toString ids.length ++ " blocks)"
  | move b old new =>
    "move " ++ b.text ++ " " ++ parentText old.parent ++ " -> " ++ parentText new.parent
  | change b property old new =>
    "change " ++ b.text ++ " " ++ property.element.name ++
      (match property.name with
        | some name => " " ++ name
        | none => "") ++
      ": " ++ Text.quoted old ++ " -> " ++ Text.quoted new

/-! ## Coalescing -/

/-- Adds an event to a list that has the latest event first.  A change of the property that the
latest event changed is merged into it. -/
def absorb (latest : List Event) (event : Event) : List Event :=
  match latest, event with
  | change b p old new :: rest, change b' p' old' new' =>
    if b = b' ∧ p = p' then change b p old new' :: rest
    else change b' p' old' new' :: change b p old new :: rest
  | _, _ => event :: latest

/-- Merges consecutive changes of one property, then drops the events that tell of nothing. -/
def coalesce (events : List Event) : List Event :=
  (events.foldl absorb []).reverse.filter fun e => !e.isNull

end Event

end BlockGraph
