import BlockGraph.Json.Reader

/-!
# Reading values of a fixed shape

A value with fixed entries is written as an object with a member per entry, or as an array of the
entries in their order.  `RawJson.entries?` finds the entries in either form: an object may have
other members, which are not looked at, but no entry twice; an array may stop early, but not run on.

An entry that is absent is left to its reader: one may be required, have a default, or be optional.
Only an optional entry may be null.
-/

namespace BlockGraph.RawJson

/-! ## Entries -/

/-- The members of an object under their keys. -/
def keyed? : List (List Piece × RawJson) → Option (List (String × RawJson))
  | [] => some []
  | (key, value) :: members => do return (← Piece.text? key, value) :: (← keyed? members)

/-- The member with a name, unless there are several. -/
def select? (members : List (String × RawJson)) (name : String) : Option (Option RawJson) :=
  match members.filter fun m => m.1 == name with
  | [] => some none
  | [m] => some (some m.2)
  | _ => none

/-- The entries with the given names, in their order. -/
def entries? (names : List String) : RawJson → Option (List (Option RawJson))
  | obj members => do names.mapM (select? (← keyed? members))
  | arr items =>
    if items.length ≤ names.length then
      some (items.map some ++ List.replicate (names.length - items.length) none)
    else none
  | _ => none

/-! ## Readers of entries -/

variable {α : Type}

def required? (read : RawJson → Option α) : Option RawJson → Option α
  | some raw => read raw
  | none => none

def defaulted? (default : α) (read : RawJson → Option α) : Option RawJson → Option α
  | some raw => read raw
  | none => some default

def optional? (read : RawJson → Option α) : Option RawJson → Option (Option α)
  | none => some none
  | some null => some none
  | some raw => (read raw).map some

/-! ## Readers of values -/

def string? : RawJson → Option String
  | str pieces => Piece.text? pieces
  | _ => none

def bool? : RawJson → Option Bool
  | bool b => some b
  | _ => none

def float? : RawJson → Option Float
  | number n => n.value?.bind Json.asFloat?
  | _ => none

def nat? : RawJson → Option Nat
  | number n => n.value?.bind Json.asNat?
  | _ => none

/-- The items of an array that may still nest `depth` deep. -/
def list? (depth : Nat) (read : RawJson → Option α) : RawJson → Option (List α)
  | arr items => if depth = 0 then none else items.mapM read
  | _ => none

/-- The members of an object that may still nest `depth` deep; of members with one key the last
counts. -/
def dict? (depth : Nat) (read : RawJson → Option α) : RawJson → Option (Dict α)
  | obj members =>
    if depth = 0 then none
    else do
      let entries ← (← keyed? members).mapM fun (key, raw) => do return (key, ← read raw)
      return Dict.ofList entries
  | _ => none

end BlockGraph.RawJson
