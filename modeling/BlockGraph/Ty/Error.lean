import BlockGraph.Id
import BlockGraph.Ty

/-!
# Type errors

Unification fails in one of two ways, a `Clash`: two types with different outermost forms, or a
variable that would have to contain itself.  A `TypeError` is a clash together with its `Origin`,
the place in the block graph that asked for the two types to be equal, so that the failure can be
shown where the user caused it.
-/

namespace BlockGraph

/-- Where an equation between two types comes from. -/
inductive Origin where
  /-- A child plugged into an input of `block`. -/
  | input (block : BlockId) (name : String)
  /-- A use of a variable in `block`, bound to its declaration. -/
  | reference (block : BlockId) (name : String)
  /-- A trial before a connection is made. -/
  | connectionCheck
  /-- An equation the library itself puts up. -/
  | builtin
deriving DecidableEq

def Origin.text : Origin → String
  | input block name => "input `" ++ name ++ "` of block " ++ block.text
  | reference block name => "reference `" ++ name ++ "` in block " ++ block.text
  | connectionCheck => "connection check"
  | builtin => "builtin constraint"

/-- Why two types cannot be made equal. -/
inductive Clash where
  /-- Two resolved types whose outermost forms differ. -/
  | mismatch (expected found : Ty)
  /-- The unbound variable `v` occurs in `ty`, which it would have to equal. -/
  | infinite (v : Nat) (ty : Ty)

/-- A clash and the equation that led to it. -/
structure TypeError where
  clash : Clash
  origin : Origin

def TypeError.message (e : TypeError) : String :=
  match e.clash with
  | .mismatch expected found =>
    "type mismatch at " ++ e.origin.text ++ ": expected " ++ expected.text ++
      ", found " ++ found.text
  | .infinite v ty =>
    "infinite type at " ++ e.origin.text ++ ": ?" ++ toString v ++ " occurs in " ++ ty.text

end BlockGraph
