import BlockGraph.Ty.Unify

/-!
# Inference contexts

A context is a type table together with the errors that unification has met in it.  A failed
unification is returned to the caller and also collected; a trial (`Context.probe`) that comes to an
answer changes neither the table nor the collected errors.
-/

namespace BlockGraph

/-- A type table and the type errors collected so far, oldest first. -/
structure Context where
  table : Table
  errors : List TypeError
deriving Inhabited

namespace Context

def empty : Context := ⟨.empty, []⟩

/-- The number of variables allocated so far. -/
def varCount (c : Context) : Nat := c.table.size

def fresh (c : Context) : Ty × Context :=
  (c.table.fresh.1, { c with table := c.table.fresh.2 })

/-- Takes a slot out of every equation it was part of: it now holds a fresh variable.  The type it
held keeps its place in the table. -/
def clear (c : Context) (_slot : Ty) : Ty × Context := c.fresh

/-- Makes two types equal.  A clash is returned and collected; the equations established before it
are kept. -/
def unify (c : Context) (a b : Ty) (origin : Origin) :
    Except Fault (Option TypeError) × Context :=
  match c.table.unify a b with
  | .done t => (.ok none, { c with table := t })
  | .stopped (.clash clash) t =>
    (.ok (some ⟨clash, origin⟩), { c with table := t, errors := c.errors ++ [⟨clash, origin⟩] })
  | .stopped (.fault f) t => (.error f, { c with table := t })

/-- Whether two types could be made equal.  With an answer the context is as it was before; a trial
that meets a fault is broken off, and the equations established before it are kept. -/
def probe (c : Context) (a b : Ty) : Except Fault Bool × Context :=
  match c.table.unify a b with
  | .done _ => (.ok true, c)
  | .stopped (.clash _) _ => (.ok false, c)
  | .stopped (.fault f) t => (.error f, { c with table := t })

/-- Hands over the collected errors and forgets them. -/
def takeErrors (c : Context) : List TypeError × Context := (c.errors, { c with errors := [] })

end Context

end BlockGraph
