/-!
# Types

The type of a socket is a term: a variable, a constant such as `Int`, a constructor applied to
arguments such as `List<Int>`, or a function type.  This file holds the terms, the constants the
block kinds use, the head name that nominal checks compare (`Ty.head`), the variables of a term in
the order they are met (`Ty.vars`), its text (`Ty.text`), and the one traversal that replaces
variables (`Ty.bindVars`), which resolution and renaming are built from.
-/

namespace BlockGraph

/-- A socket type.  Variables are numbered by the table that allocates them. -/
inductive Ty where
  | var (v : Nat)
  | con (name : String)
  | app (name : String) (args : List Ty)
  | fn (arg result : Ty)
deriving Inhabited

namespace Ty

def int : Ty := con "Int"

def float : Ty := con "Float"

def bool : Ty := con "Bool"

def list (elem : Ty) : Ty := app "List" [elem]

def pair (first second : Ty) : Ty := app "Pair" [first, second]

/-- The tag that stands for every function type in nominal checks. -/
def functionTag : String := "Function"

/-- The name at the head of a type; a variable has none. -/
def head : Ty → Option String
  | var _ => none
  | con name => some name
  | app name _ => some name
  | fn _ _ => some functionTag

def isVar : Ty → Bool
  | var _ => true
  | _ => false

/-! ## Text -/

mutual

/-- The text of a type: `?3`, `Int`, `Pair<Int, ?3>`, `(Int) -> Bool`.  A constructor applied to
nothing is written like a constant. -/
def text : Ty → String
  | var v => "?" ++ toString v
  | con name => name
  | app name [] => name
  | app name (a :: as) => name ++ "<" ++ a.text ++ textRest as ++ ">"
  | fn arg result => "(" ++ arg.text ++ ") -> " ++ result.text

/-- The text of the arguments after the first. -/
def textRest : List Ty → String
  | [] => ""
  | a :: as => ", " ++ a.text ++ textRest as

end

/-! ## Variables -/

mutual

/-- Every occurrence of a variable, from left to right. -/
def occurrences : Ty → List Nat
  | var v => [v]
  | con _ => []
  | app _ args => occurrencesArgs args
  | fn arg result => arg.occurrences ++ result.occurrences

def occurrencesArgs : List Ty → List Nat
  | [] => []
  | a :: as => a.occurrences ++ occurrencesArgs as

end

/-- The variables of a type, each once, in the order of first appearance. -/
def vars (ty : Ty) : List Nat := ty.occurrences.eraseDups

mutual

/-- Replaces every variable, from left to right, by a type that may fail to exist. -/
def bindVars {ε : Type} (f : Nat → Except ε Ty) : Ty → Except ε Ty
  | var v => f v
  | con name => .ok (con name)
  | app name args => do return app name (← bindVarsArgs f args)
  | fn arg result => do return fn (← arg.bindVars f) (← result.bindVars f)

def bindVarsArgs {ε : Type} (f : Nat → Except ε Ty) : List Ty → Except ε (List Ty)
  | [] => .ok []
  | a :: as => do return (← a.bindVars f) :: (← bindVarsArgs f as)

end

mutual

/-- Replaces every variable by the type that `σ` gives it. -/
def subst (σ : Nat → Ty) : Ty → Ty
  | var v => σ v
  | con name => con name
  | app name args => app name (substArgs σ args)
  | fn arg result => fn (arg.subst σ) (result.subst σ)

def substArgs (σ : Nat → Ty) : List Ty → List Ty
  | [] => []
  | a :: as => a.subst σ :: substArgs σ as

end

end Ty

end BlockGraph
