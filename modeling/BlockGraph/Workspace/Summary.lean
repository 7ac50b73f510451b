import BlockGraph.Workspace.Property

/-!
# Summaries

The text of a block and of everything that hangs from it, as in `let x = (1 + 2) in x`.  Fields and
children come in the order of the inputs.  An empty socket for a value shows as a question mark, the
stack in an input stands in braces, and a value that has sockets of its own stands in parentheses.

The text is written token by token (`Summary.push`): tokens are set apart by a blank, except that
none goes before a semicolon, a comma or a closing parenthesis, nor after an opening one.
-/

namespace BlockGraph

namespace Summary

/-- The tokens that follow what is before them without a blank. -/
def isTight (token : String) : Bool := token == ";" || token == ")" || token == ","

/-- Whether a blank goes between what is written, latest character first, and a token. -/
def needsBlank (written : List Char) (token : String) : Bool :=
  match written with
  | [] => false
  | '(' :: _ => false
  | _ => !isTight token

/-- Writes a token; `written` has the latest character first. -/
def push (written : List Char) (token : String) : List Char :=
  if token.isEmpty then written
  else token.toList.reverse ++ (if needsBlank written token then ' ' :: written else written)

/-- What the text of a block is made of. -/
inductive Part where
  | word (token : String)
  /-- One block, in parentheses or not. -/
  | block (id : BlockId) (parentheses : Bool)
  /-- A block and those below it in its stack. -/
  | stack (id : BlockId)

end Summary

namespace Workspace

/-- The parts of an input after its fields. -/
def socketParts (w : Workspace) (kind : InputKind) (child : Option BlockId) :
    Except Fault (List Summary.Part) :=
  match kind, child with
  | .value, some child => do return [.block child (← w.getBlock child).hasSockets]
  | .value, none => .ok [.word "?"]
  | .statement, child =>
    .ok ([.word "\x7b"] ++ child.toList.map Summary.Part.stack ++ [.word "\x7d"])
  | .dummy, _ => .ok []

def inputParts (w : Workspace) (input : Input) : Except Fault (List Summary.Part) := do
  let words ← input.fields.mapM fun field => w.fieldText field.value
  let child ← w.occupant? input.connection
  return words.map Summary.Part.word ++ (← w.socketParts input.kind child)

/-- The parts of a block, input by input. -/
def blockParts (w : Workspace) (b : BlockId) (parentheses : Bool) :
    Except Fault (List Summary.Part) := do
  let parts ← (← w.getBlock b).inputs.mapM w.inputParts
  return if parentheses then [.word "("] ++ parts.flatten ++ [.word ")"] else parts.flatten

/-- Writes a part and what it stands for, down to the given depth. -/
def writePart (w : Workspace) : Nat → List Char → Summary.Part → Except Fault (List Char)
  | 0, written, _ => .ok written
  | _ + 1, written, .word token => .ok (Summary.push written token)
  | depth + 1, written, .block b parentheses => do
    (← w.blockParts b parentheses).foldlM (w.writePart depth) written
  | depth + 1, written, .stack b => do
    match ← w.next? b with
    | some next =>
      let written ← w.writePart depth written (.block b false)
      w.writePart depth (Summary.push written ";") (.stack next)
    | none => w.writePart depth written (.block b false)

/-- The text of a block and of every statement below it. -/
def summary (w : Workspace) (b : BlockId) : Except Fault String := do
  return String.ofList (← w.writePart (2 * w.depthBound + 2) [] (.stack b)).reverse

/-! ## One line for a workspace -/

/-- A one-line account of a workspace: its options and the sizes of its parts. -/
def describe (w : Workspace) : String :=
  "Workspace \x7b options: WorkspaceOptions \x7b typed: " ++ toString w.options.typed ++
    ", heal_stack_on_delete: " ++ toString w.options.healOnDelete ++
    ", resolve_on_connect: " ++ toString w.options.resolveOnConnect ++
    " \x7d, blocks: " ++ toString w.blockCount ++
    ", top_blocks: [" ++ ", ".intercalate (w.top.map BlockId.description) ++
    "], free_connections: " ++ toString w.free.size ++ " \x7d"

end Workspace

end BlockGraph
