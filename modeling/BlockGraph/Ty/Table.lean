import BlockGraph.Fault
import BlockGraph.Ty

/-!
# The type table

Type variables are numbered from zero in the order they are allocated.  The table keeps them in
classes of variables known to be equal: each variable points at a parent, and the variable at the
end of the chain, the root, stands for the class and may be bound to a type.  Ranks decide which of
two roots survives a union, and rise strictly along parents, so a chain has no more links than the
table has variables.

* `Table.find` is the root of a variable's class.
* `Table.probe` is the type its class is bound to.
* `Table.union` and `Table.bind` are the only two ways in which a table learns something.
-/

namespace BlockGraph

/-- What the table knows of one variable.  The value counts only at a root. -/
structure Table.Entry where
  parent : Nat
  rank : Nat
  value : Option Ty
deriving Inhabited

/-- Classes of equal type variables, each unbound or bound to a type. -/
structure Table where
  entries : Array Table.Entry
deriving Inhabited

namespace Table

def empty : Table := ⟨#[]⟩

/-- The number of variables allocated so far. -/
def size (t : Table) : Nat := t.entries.size

/-- Allocates a variable, alone in its class and unbound. -/
def fresh (t : Table) : Ty × Table :=
  (.var t.size, ⟨t.entries.push ⟨t.size, 0, none⟩⟩)

/-- Allocates `n` variables and gives the number of the first. -/
def freshMany (t : Table) : Nat → Nat × Table
  | 0 => (t.size, t)
  | n + 1 => (t.size, (t.fresh.2.freshMany n).2)

/-! ## Classes -/

/-- Follows parents for at most the given number of links. -/
def climb (t : Table) : Nat → Nat → Nat
  | 0, v => v
  | links + 1, v =>
    match t.entries[v]? with
    | some e => if e.parent = v then v else t.climb links e.parent
    | none => v

/-- The root of the class of `v`. -/
def find (t : Table) (v : Nat) : Except Fault Nat :=
  if v < t.size then .ok (t.climb t.size v) else .error (.unallocated v t.size)

/-- The type that the class of `v` is bound to. -/
def probe (t : Table) (v : Nat) : Except Fault (Option Ty) := do
  return t.entries[← t.find v]?.bind (·.value)

def rank (t : Table) (v : Nat) : Nat :=
  match t.entries[v]? with
  | some e => e.rank
  | none => 0

/-- Joins the classes of two distinct roots.  The root of higher rank survives; of two roots of one
rank the second survives and its rank grows. -/
def union (t : Table) (a b : Nat) : Table :=
  if t.rank b < t.rank a then
    ⟨t.entries.modify b ({ · with parent := a })⟩
  else if t.rank a < t.rank b then
    ⟨t.entries.modify a ({ · with parent := b })⟩
  else
    let entries := t.entries.modify a ({ · with parent := b })
    ⟨entries.modify b fun e => { e with rank := e.rank + 1 }⟩

/-- Binds the class of the root `v` to a type. -/
def bind (t : Table) (v : Nat) (ty : Ty) : Table :=
  ⟨t.entries.modify v ({ · with value := some ty })⟩

/-! ## Resolution -/

/-- The outermost form of a type: a bound variable gives its value, an unbound one its root. -/
def head (t : Table) : Ty → Except Fault Ty
  | .var v => do
    match ← t.probe v with
    | some ty => return ty
    | none => return .var (← t.find v)
  | ty => .ok ty

/-- Replaces variables by what they are bound to, through at most the given number of bindings. -/
def resolveWithin (t : Table) : Nat → Ty → Except Fault Ty
  | 0, ty => .ok ty
  | depth + 1, ty =>
    ty.bindVars fun v => do
      match ← t.probe v with
      | some inner => t.resolveWithin depth inner
      | none => return .var (← t.find v)

/-- The type with every bound variable replaced by its value, throughout, and every unbound one by
the root of its class.  A chain of bindings passes through each class at most once, which bounds
its length by the number of variables. -/
def resolve (t : Table) (ty : Ty) : Except Fault Ty :=
  t.resolveWithin (t.size + 1) ty

/-- Whether a type resolves to an unbound variable. -/
def isUnbound (t : Table) (ty : Ty) : Except Fault Bool := do
  return (← t.head ty).isVar

end Table

end BlockGraph
