import BlockGraph.Descriptor
import BlockGraph.Workspace.Infer

/-!
# Applying descriptors

`Workspace.applyDescriptor` appends the inputs and fields of a descriptor to a block.  Elements that
cannot be applied are skipped and reported in the order in which they stand.
-/

namespace BlockGraph.Workspace

/-- Appends described fields to an input; gives also what was skipped. -/
def extendFields (w : Workspace) (b : BlockId) (index : Nat) :
    List FieldDescriptor → Except Fault (List DescriptorError × Workspace)
  | [] => .ok ([], w)
  | field :: rest => do
    match field.fieldValue with
    | .ok value =>
      let w ← w.appendField b index ⟨field.name, value⟩
      w.extendFields b index rest
    | .error error =>
      let (errors, w) ← w.extendFields b index rest
      return (error :: errors, w)

/-- Appends a described input with its fields; gives also what was skipped. -/
def extendInput (w : Workspace) (b : BlockId) (input : InputDescriptor) :
    Except Fault (List DescriptorError × Workspace) := do
  match input.inputKind? with
  | none => return ([.unknownInputKind input.name input.kind], w)
  | some kind =>
    if !input.name.isEmpty then
      if ((← w.getBlock b).input? input.name).isSome then
        return ([.duplicateInput input.name], w)
    let (index, w) ← w.appendInput b kind input.name input.check
    w.extendFields b index input.fields

def extendInputs (w : Workspace) (b : BlockId) :
    List InputDescriptor → Except Fault (List DescriptorError × Workspace)
  | [] => .ok ([], w)
  | input :: rest => do
    let (errors, w) ← w.extendInput b input
    let (more, w) ← w.extendInputs b rest
    return (errors ++ more, w)

/-- Appends what a descriptor describes to a block; gives also what was skipped. -/
def applyDescriptor (w : Workspace) (b : BlockId) (d : Descriptor) :
    Except Fault (List DescriptorError × Workspace) := do
  let (errors, w) ← w.extendInputs b d.inputs
  return (errors, ← w.refresh [b])

end BlockGraph.Workspace
