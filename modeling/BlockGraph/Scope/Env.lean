import BlockGraph.Dict
import BlockGraph.Id
import BlockGraph.Text.Quoted

/-!
# Environments

An environment says which declaration each name denotes at some place of a program.  It is a stack
of frames, the innermost first; a frame declares some names, and a name means what the innermost
frame that declares it says.
-/

namespace BlockGraph

/-- Frames of declarations, innermost first, none of them empty. -/
structure Env where
  frames : List (Dict VariableId)
deriving Inhabited

namespace Env

def empty : Env := ⟨[]⟩

/-- Adds a frame.  Of declarations of one name the last counts; no declarations, no frame. -/
def extend (env : Env) (bindings : List (String × VariableId)) : Env :=
  match Dict.ofList bindings with
  | [] => env
  | frame => ⟨frame :: env.frames⟩

/-- The declaration that a name denotes. -/
def lookup? (env : Env) (name : String) : Option VariableId :=
  env.frames.findSome? (Dict.get? name)

/-- The names that denote something, those of inner frames first, each once. -/
def names (env : Env) : List String := (env.frames.flatMap Dict.keys).eraseDups

def isEmpty (env : Env) : Bool := env.frames.isEmpty

/-- The names between brackets. -/
def describe (env : Env) : String := Text.bracketed (env.names.map Text.quoted)

end Env

end BlockGraph
