import BlockGraph.Proofs.Workspace.Disposal

/-!
# Descriptors and records keep a workspace in order

A descriptor appends inputs and fields.  A record is built in two rounds: the blocks are made, each
standing alone, and then plugged into one another through the same gate as any other connection.
The order of a workspace holds between any two of these steps, so also when a record is refused
halfway and the blocks made so far are disposed of.
-/

namespace BlockGraph.Workspace

variable {b child : BlockId} {socket : ConnectionId} {error : Option RecordError} {w w' : Workspace}

/-! ## Plugging them in -/

/-- The superior connection of a block is the plug of any pair that passes the gate. -/
theorem InOrder.orient_superior (hw : w.InOrder) {superior : ConnectionId} {block : Block}
    (hblock : w.blocks[b]? = some block) (hsuperior : block.superior? = some superior)
    (hgate : w.checkStructure socket superior = .ok none) :
    w.orient socket superior = .ok (socket, superior) := by
  obtain ⟨ca, cb, ha, hb, -, hkind, -⟩ := checkStructure_eq_none hgate
  obtain ⟨j, hj, -, hsup⟩ := hw.formed.wired.joint_of_superior (frame_of_block hblock) hsuperior
  cases hj.symm.trans (joint_of_connection hb)
  have hsup : cb.kind.isSuperior = true := hsup
  rw [hkind, ConnectionKind.isSuperior_opposite] at hsup
  rw [orient_eq ha]
  simp_all

/-- What plugging in does: either it is refused, or the socket and the superior connection of the
block are linked. -/
theorem InOrder.attach_cases (hw : w.InOrder) (h : w.attach socket child = .ok (error, w')) :
    (error ≠ none ∧ w' = w) ∨ error = none ∧ ∃ superior inferior plug,
      w.checkStructure socket superior = .ok none ∧
      w.orient socket superior = .ok (socket, superior) ∧
      w.skeleton.Pairing socket superior inferior plug ∧ plug.block = child ∧
      w.link socket superior = .ok w' := by
  refine (Workspace.attach_cases h).imp_right ?_
  rintro ⟨herror, block, superior, hblock, hsuperior, hgate, hlink⟩
  obtain ⟨i, o, inferior, plug, horient, hpair, -⟩ := hw.linkable hgate
  cases horient.symm.trans (hw.orient_superior hblock hsuperior hgate)
  obtain ⟨j, hj, hb, -⟩ := hw.formed.wired.joint_of_superior (frame_of_block hblock) hsuperior
  cases hj.symm.trans hpair.plug_eq
  exact ⟨herror, superior, inferior, plug, hgate, horient, hpair, hb, hlink⟩

theorem InOrder.attach (hw : w.InOrder) (h : w.attach socket child = .ok (error, w')) :
    w'.InOrder := by
  rcases hw.attach_cases h with ⟨-, rfl⟩ | ⟨-, superior, -, -, hgate, horient, -, -, hlink⟩
  · exact hw
  · obtain ⟨i, o, inferior, plug, horient', hpair, hcheck, hcycle⟩ := hw.linkable hgate
    cases horient.symm.trans horient'
    exact hw.link hpair hcheck hcycle hlink

theorem loadClosed_inOrder : LoadClosed InOrder where
  toInputClosed := inputClosed_inOrder
  events _ hw := ⟨hw.formed, hw.checked, hw.sound⟩
  rename hw h := hw.keeps (Retouches.of_modifyVariable h).keeps
  newBlockWithId hw h := hw.newBlockWithId h
  loadField hw h := hw.keeps (keeps_loadField h)
  loadProperties hw h := hw.keeps (keeps_loadProperties h)
  attach hw h := hw.attach h

end BlockGraph.Workspace
