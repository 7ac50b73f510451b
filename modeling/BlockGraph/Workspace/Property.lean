import BlockGraph.Workspace.Build

/-!
# Fields and properties

Reading and changing what a block shows: the values of its fields, its flags and comment, and the
place where it stands.  Each change is announced.  A flag or comment set to what it was is not a
change; a field is announced whenever it is set.
-/

namespace BlockGraph

/-- The text of a number field: a whole number below `10 ^ 15` is written as an integer, so zero has
no sign; any other number has its shortest digits. -/
def numberText (x : Float) : String :=
  match Decimal.classify x with
  | .finite negative magnitude =>
    match magnitude.whole? with
    | some n =>
      if n < Nat.pow 10 15 then Decimal.sign (negative && n != 0) ++ toString n else Decimal.plain x
    | none => Decimal.plain x
  | _ => Decimal.plain x

namespace Workspace

/-- What a field shows. -/
def fieldText (w : Workspace) : FieldValue → Except Fault String
  | .label s => .ok s
  | .text s => .ok s
  | .dropdown s => .ok s
  | .number x => .ok (numberText x)
  | .checkbox b => .ok (toString b)
  | .var v => do return (← w.getVariable v).name

def fieldValue? (w : Workspace) (b : BlockId) (name : String) :
    Except Fault (Option FieldValue) := do
  return ((← w.getBlock b).field? name).map Field.value

/-- Replaces the value of a field.  Variables are renamed instead, so neither the old value nor the
new one may be a variable. -/
def setFieldValue (w : Workspace) (b : BlockId) (name : String) (value : FieldValue) :
    Except Fault Workspace := do
  require value.heldVariable?.isNone .variableField
  match (← w.getBlock b).field? name with
  | none => .error (.noField b name)
  | some field => do
    require field.value.heldVariable?.isNone .variableField
    let old ← w.fieldText field.value
    let new ← w.fieldText value
    let w ← w.modifyBlock b (·.setField name value)
    return w.fire (.change b ⟨.field, some name⟩ old new)

/-- Announces a change unless there is none. -/
def announceChange (w : Workspace) (b : BlockId) (element : Element) (old new : String) :
    Workspace :=
  if old = new then w else w.fire (.change b ⟨element, none⟩ old new)

def setDisabled (w : Workspace) (b : BlockId) (value : Bool) : Except Fault Workspace := do
  let old := (← w.getBlock b).disabled
  let w ← w.modifyBlock b ({ · with disabled := value })
  return w.announceChange b .disabled (toString old) (toString value)

def setCollapsed (w : Workspace) (b : BlockId) (value : Bool) : Except Fault Workspace := do
  let old := (← w.getBlock b).collapsed
  let w ← w.modifyBlock b ({ · with collapsed := value })
  return w.announceChange b .collapsed (toString old) (toString value)

/-- Sets or removes the comment; no comment shows as empty text. -/
def setComment (w : Workspace) (b : BlockId) (comment : Option String) :
    Except Fault Workspace := do
  let old := (← w.getBlock b).comment
  let w ← w.modifyBlock b ({ · with comment })
  return w.announceChange b .comment (old.getD "") (comment.getD "")

/-- Shifts a block that stands alone. -/
def moveBy (w : Workspace) (b : BlockId) (dx dy : Float) : Except Fault Workspace := do
  let block ← w.getBlock b
  require block.parent.isNone .notTopLevel
  let old := block.offset
  let new : Coordinate := ⟨old.x + dx, old.y + dy⟩
  let w ← w.modifyBlock b ({ · with offset := new })
  return w.fire (.move b { coordinate := some old } { coordinate := some new })

end Workspace

end BlockGraph
