import BlockGraph.Proofs.Totality.Refreshing
import BlockGraph.Proofs.Workspace.Plugs

/-!
# Joining and parting end

Every lookup on the way of an edit finds something, because the structure of the workspace is in
order:

* `InOrder.exists_checkStructure`: what the gate asks of the structure is answered, and the answer
  is what it should be;
* `exists_link`, `exists_unlink`: two connections that can be joined are, and two that are joined
  can be parted; in both cases the parent that a block is given is the one that its connections say;
* `Serviceable.exists_disconnect`, `Serviceable.exists_setCheck`, `Serviceable.exists_unplug`: the
  edits.
-/

namespace BlockGraph.Workspace

open Relation

variable {child x : BlockId} {t a b c i o : ConnectionId}
  {connection ca cb socket plug : Connection} {parent : Option BlockId} {w w' : Workspace}
  {Q : Block → Prop} {tracked : Prop} {stale A : BlockId → Prop} {block : Block}

/-! ## The gate -/

/-- Two connections, put in order: the inferior one is the socket, the superior one the plug. -/
theorem exists_orient (ha : w.connections[a]? = some ca) (hb : w.connections[b]? = some cb) :
    ∃ i o socket plug, w.orient a b = .ok (i, o) ∧ w.connections[i]? = some socket ∧
      w.connections[o]? = some plug ∧
      if ca.kind.isSuperior then i = b ∧ o = a ∧ socket = cb ∧ plug = ca
      else i = a ∧ o = b ∧ socket = ca ∧ plug = cb := by
  rw [orient_eq ha]
  split
  · exact ⟨b, a, cb, ca, rfl, hb, ha, rfl, rfl, rfl, rfl⟩
  · exact ⟨a, b, ca, cb, rfl, ha, hb, rfl, rfl, rfl, rfl⟩

/-! ## Links -/

/-- A block that is there can be changed, and no block is lost. -/
theorem exists_modifyBlock (hblock : w.blocks[x]? = some block)
    (f : Block → Block) : ∃ w', w.modifyBlock x f = .ok w' ∧
      ∀ y : BlockId, (∃ found, w.blocks[y]? = some found) →
      ∃ found, w'.blocks[y]? = some found := by
  refine ⟨_, modifyBlock_eq_ok.2 ⟨block, hblock, rfl⟩, fun y hy => ?_⟩
  simp only [getElem?_insert_eq]
  split
  · exact ⟨_, rfl⟩
  · exact hy

/-- A block can be put under a parent that its connections agree with. -/
theorem exists_setParent (hattached : w.attachedTo? child = .ok parent)
    (hblock : w.blocks[child]? = some block)
    (hold : ∀ p, block.parent = some p → ∃ old, w.blocks[p]? = some old)
    (hnew : ∀ p, parent = some p → ∃ above, w.blocks[p]? = some above) :
    ∃ w', w.setParent child parent = .ok w' := by
  have hleave : ∃ w1, w.leaveParent child = .ok w1 ∧
      ∀ y : BlockId, (∃ found, w.blocks[y]? = some found) →
      ∃ found, w1.blocks[y]? = some found := by
    simp only [leaveParent, getBlock_eq_ok.2 hblock, ok_bind]
    cases hparent : block.parent with
    | none => exact ⟨w, rfl, fun _ h => h⟩
    | some p =>
      obtain ⟨old, hold⟩ := hold p hparent
      exact exists_modifyBlock hold _
  obtain ⟨w1, hw1, hlive1⟩ := hleave
  obtain ⟨block1, hblock1⟩ := hlive1 child ⟨block, hblock⟩
  obtain ⟨w2, hw2, hlive2⟩ := exists_modifyBlock hblock1 ({ · with parent })
  have hjoin : ∃ w3, w2.joinParent child parent = .ok w3 := by
    cases parent with
    | none => exact ⟨_, rfl⟩
    | some p =>
      obtain ⟨above, habove⟩ := hlive2 p (hlive1 p (hnew p rfl))
      obtain ⟨w3, hw3, -⟩ := exists_modifyBlock habove fun b =>
        { b with children := b.children ++ [child] }
      exact ⟨w3.removeTop child, by simp [joinParent, hw3]⟩
  obtain ⟨w3, hw3⟩ := hjoin
  exact ⟨w3, by simp [setParent, hattached, require, hw1, hw2, hw3]⟩

/-- No block is lost when another is put under a parent. -/
theorem exists_block_setParent (h : w.setParent child parent = .ok w')
    (hblock : w.blocks[x]? = some block) : ∃ block', w'.blocks[x]? = some block' := by
  have hframe : ∃ f, w'.skeleton.frame x = some f := by
    rw [(skeleton_setParent h).1]
    exact ⟨_, Skeleton.frame_reparent_eq_some_iff.2 ⟨_, frame_of_block hblock, rfl⟩⟩
  obtain ⟨f, hf⟩ := hframe
  obtain ⟨block', hblock', -⟩ := frame_eq_some_iff.1 hf
  exact ⟨block', hblock'⟩

/-- Two connections can be given new targets. -/
theorem exists_retargeted (hi : w.connections[i]? = some socket)
    (ho : w.connections[o]? = some plug) (hne : i ≠ o) (s t : Option ConnectionId) :
      ∃ w1 w2, w.modifyConnection i ({ · with target := s }) = .ok w1 ∧
      w1.modifyConnection o ({ · with target := t }) = .ok w2 ∧ w2.blocks = w.blocks ∧
      w2.connections[i]? = some { socket with target := s } ∧
      w2.connections[o]? = some { plug with target := t } := by
  refine ⟨_, _, modifyConnection_eq_ok.2 ⟨socket, hi, rfl⟩,
    modifyConnection_eq_ok.2 ⟨plug, ?_, rfl⟩, rfl, ?_, ?_⟩
  · simpa [getElem?_insert_eq, hne.symm] using ho
  · rw [getElem?_insert_eq, if_neg hne, getElem?_insert_eq, if_pos rfl]
  · rw [getElem?_insert_eq, if_pos rfl]

section Pairing

variable (hw : w.skeleton.Formed) {socket plug : Joint} (hpair : w.skeleton.Pairing i o socket plug)
include hw hpair

/-- The two blocks of a pairing, and what follows from it for the lookups on the way. -/
theorem exists_of_pairing : ∃ ci co above child, w.connections[i]? = some ci ∧
    w.connections[o]? = some co ∧ ci.joint = socket ∧ co.joint = plug ∧
    w.blocks[socket.block]? = some above ∧ w.blocks[plug.block]? = some child ∧
    child.superior? = some o ∧ ∀ p, child.parent = some p → ∃ old, w.blocks[p]? = some old := by
  obtain ⟨ci, hi, hci⟩ := joint_eq_some_iff.1 hpair.socket_eq
  obtain ⟨co, ho, hco⟩ := joint_eq_some_iff.1 hpair.plug_eq
  obtain ⟨f, hf, -⟩ := hw.wired.frame_of_joint hpair.socket_eq
  obtain ⟨above, habove, -⟩ := frame_eq_some_iff.1 hf
  obtain ⟨g, hg, hsup⟩ := hw.wired.superior_of_joint hpair.plug_eq hpair.isSuperior
  obtain ⟨child, hchild, rfl⟩ := frame_eq_some_iff.1 hg
  refine ⟨ci, co, above, child, hi, ho, hci, hco, habove, hchild, hsup, fun p hp => ?_⟩
  obtain ⟨f, hf⟩ := hw.related.live (p := p) (b := plug.block) ⟨_, hg, hp⟩
  obtain ⟨old, hold, -⟩ := frame_eq_some_iff.1 hf
  exact ⟨old, hold⟩

/-- A pairing can be linked. -/
theorem exists_link : ∃ w', w.link i o = .ok w' := by
  obtain ⟨ci, co, above, child, hi, ho, rfl, rfl, habove, hchild, hsup, hold⟩ :=
    exists_of_pairing hw hpair
  obtain ⟨w1, w2, hw1, hw2, hblocks, hi2, ho2⟩ := exists_retargeted hi ho hpair.ne (some o) (some i)
  rw [← hblocks] at habove hchild hold
  have hattached : ((w2.unregister i).unregister o).attachedTo? co.joint.block =
      .ok (some ci.block) := by
    simp [attachedTo?, parentConnection?, unregister, getBlock, getConnection, hi2, ho2,
      hsup, hchild]
  obtain ⟨w3, hw3⟩ := exists_setParent hattached hchild hold fun p hp => ⟨above, by
    cases hp
    exact habove⟩
  obtain ⟨above', habove'⟩ := exists_block_setParent hw3 habove
  rw [hblocks] at hchild
  have hchild : w.getBlock co.block = .ok child := getBlock_eq_ok.2 hchild
  have hw3 : Workspace.setParent _ co.block _ = .ok w3 := hw3
  have habove' : w3.getBlock ci.block = .ok above' := getBlock_eq_ok.2 habove'
  simp only [link, getConnection_eq_ok.2 hi, getConnection_eq_ok.2 ho, hchild, hw1, hw2, hw3,
    habove', ok_bind, pure_eq_ok]
  exact ⟨_, rfl⟩

end Pairing

/-- A connection that is joined can be parted from its target. -/
theorem exists_unlink (hw : w.skeleton.Formed) (hc : w.connections[c]? = some connection)
    (ht : connection.target = some t) (announce : Bool) :
    ∃ joined w', w.unlink c announce = .ok (joined, w') := by
  obtain ⟨i, o, socket, plug, horient, hpair, -⟩ := pairing_of_target hw hc ht
  obtain ⟨ci, co, above, child, hi, ho, rfl, rfl, habove, hchild, hsup, hold⟩ :=
    exists_of_pairing hw hpair
  obtain ⟨w1, w2, hw1, hw2, hblocks, hi2, ho2⟩ := exists_retargeted hi ho hpair.ne none none
  have habove' : w.getBlock ci.block = .ok above := getBlock_eq_ok.2 habove
  rw [← hblocks] at hchild hold
  have hattached : ((w2.register i).register o).attachedTo? co.joint.block = .ok none := by
    simp [attachedTo?, parentConnection?, register, getBlock, getConnection, ho2, hsup, hchild]
  obtain ⟨w3, hw3⟩ := exists_setParent hattached hchild hold fun p hp => by cases hp
  obtain ⟨child', hchild'⟩ := exists_block_setParent hw3 hchild
  have hw3 : Workspace.setParent _ co.block _ = .ok w3 := hw3
  have hchild' : w3.getBlock co.block = .ok child' := getBlock_eq_ok.2 hchild'
  simp only [unlink, getConnection_eq_ok.2 hc, ht, horient, getConnection_eq_ok.2 hi,
    getConnection_eq_ok.2 ho, habove', hw1, hw2, hw3, ok_bind, pure_eq_ok]
  cases announce with
  | false => exact ⟨_, _, rfl⟩
  | true =>
    simp only [hchild', if_true, ok_bind]
    exact ⟨_, _, rfl⟩

/-- Two connections that pass the gate can be joined. -/
theorem InOrder.exists_link_of_gate (hw : w.InOrder) (hgate : w.checkStructure a b = .ok none)
    (horient : w.orient a b = .ok (i, o)) : ∃ w', w.link i o = .ok w' := by
  obtain ⟨i', o', socket, plug, horient', hpair, -⟩ := hw.linkable hgate
  cases horient.symm.trans horient'
  exact exists_link hw.formed hpair

/-! ## Disconnecting -/

/-- Blocks that were joined or parted can be refreshed. -/
theorem Serviceable.exists_refresh_rewired (hQ : Serviceable Q)
    (h : Tended Q tracked (fun _ => False) stale w) (hrewires : Rewires A w w') (hw' : w'.InOrder)
    (bs : List BlockId) (hA : ∀ x, A x → x ∈ bs) :
    ∃ w'', w'.refresh bs = .ok w'' := by
  refine h.exists_refresh_touch hQ.equipped (hrewires.standing hQ.toSteady h.standing hw')
    (hrewires.confined _) bs ?_
  rintro r - (hfalse | ⟨x, hx, hbelow⟩)
  · exact hfalse.elim
  · exact ⟨x, hA x hx, hbelow⟩

theorem Serviceable.exists_disconnect (hQ : Serviceable Q) (h : Upheld Q tracked w)
    (hc : w.connections[c]? = some connection) (ht : connection.target = some t) :
    ∃ w', w.disconnect c = .ok w' := by
  have hw := h.standing.inOrder
  obtain ⟨⟨parent, child⟩, w1, hunlink⟩ := exists_unlink hw.formed hc ht true
  have hunlinked := hw.unlinked hunlink
  obtain ⟨w', hrefresh⟩ := hQ.exists_refresh_rewired h hunlinked.rewires hunlinked.inOrder
    [parent, child] (by simp)
  exact ⟨w', by simp only [Workspace.disconnect, hunlink, ok_bind, hrefresh]⟩

/-- The stack below a block can be looked up. -/
theorem InOrder.exists_below? (hw : w.InOrder)
    (hblock : w.blocks[x]? = some block) : ∃ below, w.below? x = .ok below ∧
      ∀ next previous, below = some (next, previous) → ∃ connection other,
        w.connections[next]? = some connection ∧ connection.target = some previous ∧
        w.connections[previous]? = some other := by
  simp only [below?, getBlock_eq_ok.2 hblock, ok_bind]
  cases hnext : block.next with
  | none => exact ⟨none, rfl, fun _ _ h => by cases h⟩
  | some next =>
    obtain ⟨connection, hconnection, -⟩ := hw.structured.owned hblock (c := next)
      (by simp [Block.connections, hnext])
    refine ⟨connection.target.map (next, ·), by simp [getConnection_eq_ok.2 hconnection], ?_⟩
    intro next' previous h
    obtain ⟨t, ht, heq⟩ := Option.map_eq_some_iff.1 h
    cases heq
    obtain ⟨other, hother, -⟩ := hw.structured.target hconnection ht
    exact ⟨connection, other, hconnection, ht, hother⟩

/-- A block can be taken out of its stack: the first parting leaves its joint with the block
above. -/
theorem InOrder.exists_unplugHealing (hw : w.InOrder) {above next previous : ConnectionId}
    (habove : w.parentConnection? x = .ok (some above))
    (hbelow : w.below? x = .ok (some (next, previous))) :
    ∃ w', w.unplugHealing above next previous = .ok w' := by
  obtain ⟨block, -, plug, hblock, -, -, -, hplug, -⟩ := hw.plugs_of_below hbelow
  obtain ⟨below, hbelow', hnext⟩ := hw.exists_below? hblock
  cases hbelow.symm.trans hbelow'
  obtain ⟨connection, -, hconnection, ht, -⟩ := hnext next previous rfl
  obtain ⟨⟨parent, child⟩, w1, h1⟩ := exists_unlink hw.formed hconnection ht true
  obtain ⟨lower, -, hjoined⟩ := hw.unlinked_below hbelow h1
  cases hjoined
  have hplugs := hw.plugs_iff.2 habove
  have hu1 := hw.unlinked h1
  have hne : x ≠ lower.block := fun heq => hw.acyclic x (.single (heq ▸ hu1.old))
  obtain ⟨t, j, hj, rfl, hsup, htarget⟩ := (plugs_unlink hw.formed h1).2 ⟨hne, hplugs⟩
  obtain ⟨s, hs, hback, -⟩ := hu1.inOrder.formed.wired.target hj htarget
  obtain ⟨socket1, hsocket1, rfl⟩ := joint_eq_some_iff.1 hs
  obtain ⟨joined, w2, h2⟩ := exists_unlink hu1.inOrder.formed hsocket1 hback true
  obtain ⟨socket, hsocket, hinferior⟩ := hw.connection_of_plugs hplugs
  have hout := hw.takenOut habove hsocket hbelow hplug h1 h2
  obtain ⟨ca, hca, hkind⟩ := joint_eq_some_iff.1 hout.socket_eq
  obtain ⟨cb, hcb, -⟩ := joint_eq_some_iff.1 hout.plug_eq
  have horient : w2.orient above previous = .ok (above, previous) := by
    have hkind : ca.kind = socket.kind := congrArg Joint.kind hkind
    rw [orient_eq hca, hkind, hinferior]
    rfl
  obtain ⟨answer, hanswer, -⟩ := hout.inOrder.exists_checkStructure hca hcb horient hca hcb
  simp only [Workspace.unplugHealing, h1, h2, hanswer, ok_bind]
  cases answer with
  | none => exact hout.inOrder.exists_link_of_gate hanswer horient
  | some error => exact ⟨w2, rfl⟩

theorem Serviceable.exists_unplug (hQ : Serviceable Q)
    (h : Tended Q tracked (fun _ => False) stale w) (hblock : w.blocks[x]? = some block)
    (heal : Bool) : ∃ w', w.unplug x heal = .ok w' := by
  have hw := h.standing.inOrder
  obtain ⟨above?, habove⟩ := hw.exists_parentConnection? hblock
  simp only [Workspace.unplug, habove, ok_bind]
  cases above? with
  | none => exact ⟨w, rfl⟩
  | some above =>
    obtain ⟨t, j, hj, -, -, htarget⟩ := hw.parentConnection habove
    obtain ⟨s, hs, hback, -⟩ := hw.formed.wired.target hj htarget
    obtain ⟨socket, hsocket, rfl⟩ := joint_eq_some_iff.1 hs
    obtain ⟨below, hbelow, hnext⟩ := hw.exists_below? hblock
    obtain ⟨joined, alone, hunlink⟩ := exists_unlink hw.formed hsocket hback true
    have hunlinked := hw.unlinked_above habove hsocket hunlink
    obtain ⟨w', hrefresh⟩ := hQ.exists_refresh_rewired h hunlinked.rewires hunlinked.inOrder
      [x, socket.block] (by simp)
    simp only [getConnection_eq_ok.2 hsocket, hbelow, ok_bind]
    match below with
    | none => exact ⟨w', by simp only [hunlink, ok_bind, hrefresh]⟩
    | some (next, previous) =>
      by_cases hheal : (heal && socket.kind == .nextStatement) = true
      · obtain ⟨-, other, -, -, hother⟩ := hnext next previous rfl
        obtain ⟨w1, hw1⟩ := hw.exists_unplugHealing habove hbelow
        have hkind : socket.kind = .nextStatement := by simp_all
        have hhealed := hw.healed habove hsocket hkind hbelow hother hw1
        obtain ⟨w', hrefresh⟩ := hQ.exists_refresh_rewired h hhealed.rewires hhealed.inOrder
          [x, socket.block, other.block] (by simp +contextual)
        exact ⟨w', by simp only [hheal, if_true, getConnection_eq_ok.2 hother, ok_bind, hw1,
          hrefresh]⟩
      · exact ⟨w', by simp only [hheal, hunlink, ok_bind, hrefresh]; rfl⟩

end BlockGraph.Workspace
