import BlockGraph.Block
import BlockGraph.Json.Shape

/-!
# Descriptors

A descriptor lists inputs, with fields on them, that a block is to have beside those of its kind.
It is read from JSON text.  Inputs and fields name what they are by a tag; a tag that nobody knows
is no fault of the text, it is found out when the descriptor is applied.
-/

namespace BlockGraph

structure FieldDescriptor where
  kind : String
  name : String := ""
  value : Option Json := none

structure InputDescriptor where
  kind : String
  name : String := ""
  check : Check := none
  fields : List FieldDescriptor := []

structure Descriptor where
  inputs : List InputDescriptor := []

/-- An element of a descriptor that cannot be applied. -/
inductive DescriptorError where
  | unknownInputKind (input kind : String)
  | duplicateInput (input : String)
  | unknownFieldKind (field kind : String)
  | badFieldValue (field : String) (value : Json)

namespace DescriptorError

def name : DescriptorError → String
  | unknownInputKind _ _ => "UnknownInputKind"
  | duplicateInput _ => "DuplicateInput"
  | unknownFieldKind _ _ => "UnknownFieldKind"
  | badFieldValue _ _ => "BadFieldValue"

def message : DescriptorError → String
  | unknownInputKind input kind =>
    "unknown input kind `" ++ kind ++ "` for input `" ++ input ++ "`"
  | duplicateInput input => "input `" ++ input ++ "` already exists"
  | unknownFieldKind field kind =>
    "unknown field kind `" ++ kind ++ "` for field `" ++ field ++ "`"
  | badFieldValue field value =>
    "field `" ++ field ++ "` has an unusable value " ++ value.text

end DescriptorError

/-! ## What the tags mean -/

def InputDescriptor.inputKind? (d : InputDescriptor) : Option InputKind :=
  if d.kind = "input_value" then some .value
  else if d.kind = "input_statement" then some .statement
  else if d.kind = "input_dummy" then some .dummy
  else none

namespace FieldDescriptor

/-- A value read from the given one; the default if none is given. -/
def valueOr {α : Type} (d : FieldDescriptor) (default : α) (read : Json → Option α) :
    Except DescriptorError α :=
  match d.value with
  | none => .ok default
  | some given =>
    match read given with
    | some value => .ok value
    | none => .error (.badFieldValue d.name given)

/-- The value of a field; a dropdown needs one, every other field has a default. -/
def fieldValue (d : FieldDescriptor) : Except DescriptorError FieldValue :=
  if d.kind = "field_label" then (d.valueOr "" Json.asString?).map .label
  else if d.kind = "field_input" then (d.valueOr "" Json.asString?).map .text
  else if d.kind = "field_number" then (d.valueOr 0 Json.asFloat?).map .number
  else if d.kind = "field_checkbox" then (d.valueOr false Json.asBool?).map .checkbox
  else if d.kind = "field_dropdown" then
    match d.value.bind Json.asString? with
    | some s => .ok (.dropdown s)
    | none => .error (.badFieldValue d.name (d.value.getD .null))
  else .error (.unknownFieldKind d.name d.kind)

end FieldDescriptor

/-! ## Reading -/

/-- A field that may still nest `depth` deep. -/
def FieldDescriptor.read? (depth : Nat) (raw : RawJson) : Option FieldDescriptor :=
  if depth = 0 then none
  else do
    match ← raw.entries? ["kind", "name", "value"] with
    | [kind, name, value] =>
      return {
        kind := ← RawJson.required? RawJson.string? kind
        name := ← RawJson.defaulted? "" RawJson.string? name
        value := ← RawJson.optional? (RawJson.value? (depth - 1)) value }
    | _ => none

/-- An input that may still nest `depth` deep. -/
def InputDescriptor.read? (depth : Nat) (raw : RawJson) : Option InputDescriptor :=
  if depth = 0 then none
  else do
    match ← raw.entries? ["kind", "name", "check", "fields"] with
    | [kind, name, check, fields] =>
      return {
        kind := ← RawJson.required? RawJson.string? kind
        name := ← RawJson.defaulted? "" RawJson.string? name
        check := ← RawJson.optional? (RawJson.list? (depth - 1) RawJson.string?) check
        fields := ← RawJson.defaulted? []
          (RawJson.list? (depth - 1) (FieldDescriptor.read? (depth - 2))) fields }
    | _ => none

namespace Descriptor

/-- A descriptor that may still nest `depth` deep. -/
def read? (depth : Nat) (raw : RawJson) : Option Descriptor :=
  if depth = 0 then none
  else do
    match ← raw.entries? ["inputs"] with
    | [inputs] =>
      return {
        inputs := ← RawJson.defaulted? []
          (RawJson.list? (depth - 1) (InputDescriptor.read? (depth - 2))) inputs }
    | _ => none

/-- Reads a descriptor from a text that holds nothing else. -/
def parse? (text : String) : Option Descriptor :=
  (RawJson.parse? text).bind (read? RawJson.depthLimit)

end Descriptor

end BlockGraph
