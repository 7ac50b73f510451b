import BlockGraph.Options.Document

/-!
# Workspace options

Three switches choose how a workspace behaves.  All are on unless a document turns them off; keys a
document has beside these are of no concern here.
-/

namespace BlockGraph

structure Options where
  /-- Sockets carry types, which every edit infers anew, and uses of variables are resolved. -/
  typed : Bool := true
  /-- Whether deleting a block from a stack closes the gap. -/
  healOnDelete : Bool := true
  /-- Whether a connection is refused when it would leave a use of a variable without a value. -/
  resolveOnConnect : Bool := true
deriving DecidableEq, Inhabited

namespace Options

def untyped : Options := { typed := false }

/-- The switch under a key; `none` if the key holds anything but a truth value. -/
def switch? (entries : Document.Entries) (key : String) (default : Bool) : Option Bool :=
  match Document.lookup key entries with
  | none => some default
  | some (.flag b) => some b
  | some _ => none

/-- Reads options from the text of a document. -/
def parse? (text : String) : Option Options := do
  let entries ← Document.parse? text
  let typed ← switch? entries "typed" true
  let healOnDelete ← switch? entries "heal_stack_on_delete" true
  let resolveOnConnect ← switch? entries "resolve_on_connect" true
  return ⟨typed, healOnDelete, resolveOnConnect⟩

end Options

end BlockGraph
