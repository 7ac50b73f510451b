import BlockGraph.Json.Shape
import BlockGraph.Record

/-!
# Reading records

Reads a record from JSON text.  Type and number are required; whatever else is absent has its
default.  A block number is a plain integer of 32 bits.
-/

namespace BlockGraph.Record

/-- The names of the entries in the order in which an array lists them. -/
def entryNames : List String :=
  ["type", "id", "fields", "extra_state", "inputs", "next", "disabled", "collapsed", "comment",
   "position"]

def readId? (raw : RawJson) : Option BlockId := do
  let n ← raw.nat?
  if n < Nat.pow 2 32 then some ⟨n⟩ else none

/-- A place that may still nest `depth` deep. -/
def readCoordinate? (depth : Nat) (raw : RawJson) : Option Coordinate :=
  if depth = 0 then none
  else do
    match ← raw.entries? ["x", "y"] with
    | [x, y] => return ⟨← RawJson.required? RawJson.float? x, ← RawJson.required? RawJson.float? y⟩
    | _ => none

/-- A record inside which values may nest `depth` deep; `child` reads what is plugged into its
inputs and `below` the record below it. -/
def readWith? (depth : Nat) (child below : RawJson → Option Record) (raw : RawJson) :
    Option Record := do
  match ← raw.entries? entryNames with
  | [tag, id, fields, state, inputs, next, disabled, collapsed, comment, position] =>
    let tag ← RawJson.required? RawJson.string? tag
    let id ← RawJson.required? readId? id
    let fields ← RawJson.defaulted? [] (RawJson.dict? depth (RawJson.value? (depth - 1))) fields
    let state ← RawJson.optional? (RawJson.value? depth) state
    let inputs ← RawJson.defaulted? [] (RawJson.dict? depth child) inputs
    let next ← RawJson.optional? below next
    let disabled ← RawJson.defaulted? false RawJson.bool? disabled
    let collapsed ← RawJson.defaulted? false RawJson.bool? collapsed
    let comment ← RawJson.optional? RawJson.string? comment
    let position ← RawJson.optional? (readCoordinate? depth) position
    return .node { tag, id, fields, state, disabled, collapsed, comment, position } inputs next
  | _ => none

/-- A record that may nest `depth` deep, itself included.  The record below it is one level down,
the records in its inputs are two. -/
def read? : Nat → RawJson → Option Record
  | 0 => fun _ => none
  | 1 => readWith? 0 (fun _ => none) (fun _ => none)
  | depth + 2 => readWith? (depth + 1) (read? depth) (read? (depth + 1))

/-- Reads a record from a text that holds nothing else. -/
def parse? (text : String) : Option Record :=
  (RawJson.parse? text).bind (read? RawJson.depthLimit)

end BlockGraph.Record
