import Std.Data.ExtTreeMap
import Std.Data.ExtTreeSet

/-!
# Identities

Blocks, connections and variables are named by numbers, each kind of thing by its own type, so
that a number of one kind is never taken for a number of another.  An identity is written with a
mark that tells its kind: `#7` is a block, `c7` a connection and `v7` a variable.

Identities are ordered by their numbers.  The instances below say that this is a linear order,
which the ordered maps keyed by identities rely on.
-/

namespace BlockGraph

/-- The identity of a block in its workspace. -/
structure BlockId where
  index : Nat
deriving DecidableEq, Inhabited

/-- The identity of a connection, a place where two blocks can be joined. -/
structure ConnectionId where
  index : Nat
deriving DecidableEq, Inhabited

/-- The identity of a variable: a name that a block declares or uses. -/
structure VariableId where
  index : Nat
deriving DecidableEq, Inhabited

/-! ## Text -/

def BlockId.text (id : BlockId) : String := "#" ++ toString id.index

def ConnectionId.text (id : ConnectionId) : String := "c" ++ toString id.index

def VariableId.text (id : VariableId) : String := "v" ++ toString id.index

/-- The identity of a block spelled out. -/
def BlockId.description (id : BlockId) : String := "BlockId(" ++ toString id.index ++ ")"

/-! ## Order -/

instance : Ord BlockId := ⟨compareOn BlockId.index⟩

instance : Std.TransOrd BlockId := inferInstanceAs (Std.TransCmp (compareOn BlockId.index))

instance : Std.LawfulEqOrd BlockId where
  eq_of_compare {a b} h := by
    cases a; cases b
    exact congrArg BlockId.mk (Std.LawfulEqOrd.eq_of_compare h)

instance : Ord ConnectionId := ⟨compareOn ConnectionId.index⟩

instance : Std.TransOrd ConnectionId :=
  inferInstanceAs (Std.TransCmp (compareOn ConnectionId.index))

instance : Std.LawfulEqOrd ConnectionId where
  eq_of_compare {a b} h := by
    cases a; cases b
    exact congrArg ConnectionId.mk (Std.LawfulEqOrd.eq_of_compare h)

instance : Ord VariableId := ⟨compareOn VariableId.index⟩

instance : Std.TransOrd VariableId := inferInstanceAs (Std.TransCmp (compareOn VariableId.index))

instance : Std.LawfulEqOrd VariableId where
  eq_of_compare {a b} h := by
    cases a; cases b
    exact congrArg VariableId.mk (Std.LawfulEqOrd.eq_of_compare h)

end BlockGraph
