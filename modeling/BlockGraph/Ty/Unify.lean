import BlockGraph.Ty.Error
import BlockGraph.Ty.Table

/-!
# Unification

`Table.unify` makes two types equal.  It compares them from left to right, looking through bound
variables, and stops at the first pair that cannot be made equal; what it learnt before that pair
is kept.  A variable meets a variable by joining their classes, and meets any other type by being
bound to it, unless it occurs in it (`Table.occurs`).

Each walk goes down the structure of a type and, at a bound variable, on into its value.  The first
kind of step is recursion on the term; the second passes through each class of the table at most
once, so the number of variables bounds it.
-/

namespace BlockGraph

/-! ## Occurrence -/

namespace Ty

mutual

/-- Whether some variable of the type passes a test.  The arguments of a constructor are tried from
the last to the first, and the argument of a function before its result. -/
def anyVar {ε : Type} (test : Nat → Except ε Bool) : Ty → Except ε Bool
  | var v => test v
  | con _ => .ok false
  | app _ args => anyVarArgs test args
  | fn arg result => do
    if ← arg.anyVar test then return true else result.anyVar test

def anyVarArgs {ε : Type} (test : Nat → Except ε Bool) : List Ty → Except ε Bool
  | [] => .ok false
  | a :: as => do
    if ← anyVarArgs test as then return true else a.anyVar test

end

end Ty

namespace Table

/-- Whether the class of `root` is met in a type, through at most the given number of bindings.  A
walk through more bindings than that has met some class twice. -/
def occursWithin (t : Table) (root : Nat) : Nat → Ty → Except Fault Bool
  | 0, _ => .ok true
  | depth + 1, ty =>
    ty.anyVar fun v => do
      if (← t.find v) = root then return true
      match ← t.probe v with
      | some inner => t.occursWithin root depth inner
      | none => return false

/-- Whether the class of `v` is the class of a variable of `ty`, or is met in the values that the
variables of `ty` are bound to. -/
def occurs (t : Table) (v : Nat) (ty : Ty) : Except Fault Bool := do
  t.occursWithin (← t.find v) (t.size + 1) ty

/-! ## Outcomes -/

/-- Why a unification came to an end before its last pair. -/
inductive Stop where
  | clash (c : Clash)
  | fault (f : Fault)

/-- The end of a unification.  The table holds everything learnt up to there. -/
inductive Outcome where
  | done (t : Table)
  | stopped (why : Stop) (t : Table)

namespace Outcome

/-- Goes on with the next pair unless the walk has stopped. -/
def andThen (o : Outcome) (next : Table → Outcome) : Outcome :=
  match o with
  | done t => next t
  | stopped why t => stopped why t

def table : Outcome → Table
  | done t => t
  | stopped _ t => t

end Outcome

/-- Goes on with a computed value; a fault stops the walk. -/
def proceed {α : Type} (t : Table) (x : Except Fault α) (next : α → Outcome) : Outcome :=
  match x with
  | .ok a => next a
  | .error f => .stopped (.fault f) t

/-- Two types whose outermost forms differ; they are reported resolved. -/
def mismatch (t : Table) (expected found : Ty) : Outcome :=
  t.proceed (t.resolve expected) fun expected =>
    t.proceed (t.resolve found) fun found =>
      .stopped (.clash (.mismatch expected found)) t

/-- Binds the unbound root `v` to a type that is not a variable, unless `v` occurs in it. -/
def assign (t : Table) (v : Nat) (ty : Ty) : Outcome :=
  t.proceed (t.occurs v ty) fun inside =>
    if inside then .stopped (.clash (.infinite v ty)) t else .done (t.bind v ty)

/-- An unbound root meets the outermost form of another type. -/
def meet (t : Table) (v : Nat) : Ty → Outcome
  | .var w => if v = w then .done t else .done (t.union v w)
  | ty => t.assign v ty

end Table

/-! ## The walk -/

namespace Ty

mutual

/-- Makes the two types equal, going down the structure of the first; `again` takes over where the
first is a bound variable. -/
def unifyWith (again : Table → Ty → Ty → Table.Outcome) (t : Table) : Ty → Ty → Table.Outcome
  | var v, b =>
    t.proceed (t.probe v) fun
      | some a => again t a b
      | none => t.proceed (t.find v) fun v => t.proceed (t.head b) fun b => t.meet v b
  | con c, b =>
    t.proceed (t.head b) fun
      | var w => t.assign w (con c)
      | con d => if c = d then .done t else t.mismatch (con c) (con d)
      | b => t.mismatch (con c) b
  | app c as, b =>
    t.proceed (t.head b) fun
      | var w => t.assign w (app c as)
      | app d bs =>
        if c = d ∧ as.length = bs.length then unifyArgs again t as bs
        else t.mismatch (app c as) (app d bs)
      | b => t.mismatch (app c as) b
  | fn arg result, b =>
    t.proceed (t.head b) fun
      | var w => t.assign w (fn arg result)
      | fn arg' result' =>
        (arg.unifyWith again t arg').andThen fun t => result.unifyWith again t result'
      | b => t.mismatch (fn arg result) b

def unifyArgs (again : Table → Ty → Ty → Table.Outcome) (t : Table) :
    List Ty → List Ty → Table.Outcome
  | a :: as, b :: bs => (a.unifyWith again t b).andThen fun t => unifyArgs again t as bs
  | _, _ => .done t

end

end Ty

namespace Table

/-- Unification through at most the given number of bindings on the first side. -/
def unifyWithin : Nat → Table → Ty → Ty → Outcome
  | 0, t, a, b => t.mismatch a b
  | depth + 1, t, a, b => a.unifyWith (unifyWithin depth) t b

/-- Makes two types equal in the table. -/
def unify (t : Table) (a b : Ty) : Outcome :=
  unifyWithin (t.size + 1) t a b

/-- Whether two types could be made equal.  The trial leaves no trace. -/
def unifiable (t : Table) (a b : Ty) : Except Fault Bool :=
  match t.unify a b with
  | .done _ => .ok true
  | .stopped (.clash _) _ => .ok false
  | .stopped (.fault f) _ => .error f

end Table

end BlockGraph
