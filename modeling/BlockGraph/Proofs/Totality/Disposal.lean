import BlockGraph.Proofs.Totality.Links

/-!
# Disposal ends

Only a connection that is free can be disposed of, and only a variable that is there.  A tree is
released from its leaves to its root: the walk over a tree meets parents before children, so
backwards each block comes when its children are gone (`InOrder.exists_releaseAll`).  Then nothing
is plugged into it any more, and parting it from its parent leaves all its connections free
(`InOrder.exists_release`).

`Serviceable.exists_dispose` is the whole edit.
-/

namespace BlockGraph.Workspace

variable {w w' w0 : Workspace} {Q : Block → Prop} {tracked : Prop} {stale N : BlockId → Prop}
  {b : BlockId} {block : Block} {c : ConnectionId}

/-! ## One block -/

/-- A connection is free if nothing is plugged into it and its block is plugged into nothing. -/
theorem InOrder.target_eq_none (hw : w.InOrder) {connection : Connection}
    (hc : w.connections[c]? = some connection)
    (hout : connection.kind.isSuperior = true → ∀ d, ¬ w.Plugs connection.block d)
    (hin : ∀ x, ¬ w.Plugs x c) :
    connection.target = none := by
  cases htarget : connection.target with
  | none => rfl
  | some t =>
    cases hsup : connection.kind.isSuperior with
    | true => exact absurd ⟨c, _, joint_of_connection hc, rfl, hsup, htarget⟩ (hout hsup t)
    | false =>
      obtain ⟨plug, hplug, hback, hopposite, -⟩ :=
        hw.formed.wired.target (joint_of_connection hc) htarget
      refine absurd ⟨t, plug, hplug, rfl, ?_, hback⟩ (hin plug.block)
      rw [hopposite, ConnectionKind.isSuperior_opposite,
        show connection.joint.kind.isSuperior = false from hsup]
      rfl

/-- A block without parent and children has free connections. -/
theorem InOrder.free_of_alone (hw : w.InOrder) (hroot : ∀ p, ¬ w.ParentOf p b)
    (hleaf : ∀ x, ¬ w.ParentOf b x) (hblock : w.blocks[b]? = some block)
    (hc : c ∈ block.connections) :
    ∃ connection, w.connections[c]? = some connection ∧ connection.target = none := by
  obtain ⟨connection, hconnection, rfl⟩ := hw.structured.owned hblock hc
  refine ⟨connection, hconnection, hw.target_eq_none hconnection (fun _ d hd => ?_) fun x hx => ?_⟩
  · obtain ⟨socket, hsocket, -⟩ := hw.connection_of_plugs hd
    exact hroot _ (hw.parentOf_of_plugs hd hsocket)
  · exact hleaf x (hw.parentOf_of_plugs hx hconnection)

theorem exists_disposeConnections {cs : List ConnectionId} (hnodup : cs.Nodup)
    (hfree : ∀ c ∈ cs, ∃ connection, w.connections[c]? = some connection ∧
      connection.target = none) :
    ∃ w', cs.foldlM disposeConnection w = .ok w' := by
  induction cs generalizing w with
  | nil => exact ⟨w, rfl⟩
  | cons c cs ih =>
    obtain ⟨hnot, hnodup⟩ := List.nodup_cons.1 hnodup
    obtain ⟨connection, hconnection, htarget⟩ := hfree c List.mem_cons_self
    have hstep : w.disposeConnection c =
        .ok { w.unregister c with connections := w.connections.erase c } := by
      simp [disposeConnection, getConnection_eq_ok.2 hconnection, htarget, require, unregister]
    rw [List.foldlM_cons, hstep]
    refine ih hnodup fun d hd => ?_
    obtain ⟨found, hfound, hfree⟩ := hfree d (List.mem_cons_of_mem c hd)
    have hne : d ≠ c := fun heq => hnot (heq ▸ hd)
    exact ⟨found, by rw [getElem?_erase_eq, if_neg hne, hfound], hfree⟩

/-- The variable that a block holds, if it holds one, can be disposed of. -/
theorem Housed.exists_disposeVariables (ho : w.Housed) (hblock : w.blocks[b]? = some block)
    (hvars : w'.vars = w.vars) {vs : List VariableId} (hvs : vs.Sublist block.vars) :
    ∃ w'', vs.foldlM disposeVariable w' = .ok w'' := by
  rw [(ho.tidy hblock).vars] at hvs
  cases hown : block.own? with
  | none =>
    rw [hown, Option.toList_none, List.sublist_nil] at hvs
    exact ⟨w', by rw [hvs]; rfl⟩
  | some v =>
    rw [hown, Option.toList_some, List.sublist_singleton] at hvs
    obtain ⟨found, hfound, -⟩ := ho.var hblock hown
    rw [← hvars] at hfound
    rcases hvs with rfl | rfl
    · exact ⟨w', rfl⟩
    · exact ⟨_, by simp only [List.foldlM_cons, disposeVariable, getVariable_eq_ok.2 hfound,
        ok_bind, pure_eq_ok]; rfl⟩

theorem InOrder.exists_sever (hw : w.InOrder) (hblock : w.blocks[b]? = some block) :
    ∃ w', w.sever b = .ok w' := by
  simp only [Workspace.sever, getBlock_eq_ok.2 hblock, ok_bind]
  cases hsuperior : block.superior? with
  | none => exact ⟨w, rfl⟩
  | some c =>
    obtain ⟨connection, hc, -⟩ :=
      hw.structured.owned hblock (Block.mem_connections_of_superior hsuperior)
    simp only [getConnection_eq_ok.2 hc, ok_bind]
    cases htarget : connection.target with
    | none => exact ⟨w, by simp [Connection.isConnected, htarget]⟩
    | some t =>
      obtain ⟨joined, w', hunlink⟩ := exists_unlink hw.formed hc htarget false
      exact ⟨w', by simp [Connection.isConnected, htarget, hunlink]⟩

/-- A leaf can be released. -/
theorem InOrder.exists_release (hw : w.InOrder) (ho : w.Housed) (hblock : w.blocks[b]? = some block)
    (hleaf : ∀ x, ¬ w.ParentOf b x) : ∃ w', w.release b = .ok w' := by
  obtain ⟨w1, hsever⟩ := hw.exists_sever hblock
  obtain ⟨hrewires, hparentOf⟩ := hw.severed hsever
  have hw1 := hw.sever hsever
  obtain ⟨block1, hblock1, -⟩ := hrewires.innards.exists_block_after hblock
  obtain ⟨w2, hw2⟩ := exists_disposeConnections (hw1.nodup_connections hblock1) fun c =>
    hw1.free_of_alone (fun p hp => ((hparentOf p b).1 hp).1 rfl)
      (fun x hx => hleaf x ((hparentOf b x).1 hx).2) hblock1
  have hvars2 : w2.vars = w1.vars := by
    rw [(disposeConnections_spec (A := fun _ => True) (fun _ _ _ _ => trivial) hw2).2]
  obtain ⟨w3, hw3⟩ := (ho.keeps hrewires.innards).exists_disposeVariables hblock1 hvars2 (.refl _)
  exact ⟨_, by simp only [Workspace.release, hsever, ok_bind, getBlock_eq_ok.2 hblock1, hw2, hw3,
    pure_eq_ok]; rfl⟩

/-! ## Trees -/

/-- Blocks can be released one after the other, if none comes before its children. -/
theorem InOrder.exists_releaseAll (hw : w.InOrder) (ho : w.Housed) {l : List BlockId}
    (hnodup : l.Nodup) (hlive : ∀ b ∈ l, ∃ block, w.blocks[b]? = some block)
    (hclosed : ∀ b ∈ l, ∀ x, w.ParentOf b x → x ∈ l)
    (horder : l.Pairwise fun x y => ¬ w.ParentOf x y) :
    ∃ w', l.foldlM Workspace.release w = .ok w' := by
  induction l generalizing w with
  | nil => exact ⟨w, rfl⟩
  | cons b l ih =>
    obtain ⟨hnot, hnodup⟩ := List.nodup_cons.1 hnodup
    obtain ⟨hfirst, horder⟩ := List.pairwise_cons.1 horder
    obtain ⟨block, hblock⟩ := hlive b List.mem_cons_self
    have hleaf : ∀ x, ¬ w.ParentOf b x := fun x hx => by
      rcases List.mem_cons.1 (hclosed b List.mem_cons_self x hx) with rfl | hmem
      · exact hw.acyclic x (.single hx)
      · exact hfirst x hmem hx
    obtain ⟨w1, hrelease⟩ := hw.exists_release ho hblock hleaf
    have hreleased := hw.released hrelease
    rw [List.foldlM_cons, hrelease]
    refine ih (hw.release hrelease) (ho.release hw hrelease) hnodup (fun x hx => ?_)
      (fun x hx y hy => ?_) (horder.imp fun hxy hy => hxy ((hreleased.parentOf _ _).1 hy).2)
    · obtain ⟨found, hfound⟩ := hlive x (List.mem_cons_of_mem b hx)
      obtain ⟨found', hfound', -⟩ :=
        exists_of_map_eq (hreleased.block x fun heq => hnot (heq ▸ hx)) hfound
      exact ⟨found', hfound'⟩
    · obtain ⟨hne, hy⟩ := (hreleased.parentOf x y).1 hy
      exact (List.mem_cons.1 (hclosed x (List.mem_cons_of_mem b hx) y hy)).resolve_left hne

/-- The stack below a block can be cut off. -/
theorem InOrder.exists_cutBelow (hw : w.InOrder) (hblock : w.blocks[b]? = some block) :
    ∃ below w', w.cutBelow b = .ok (below, w') := by
  obtain ⟨below, hbelow, hnext⟩ := hw.exists_below? hblock
  simp only [Workspace.cutBelow, hbelow, ok_bind]
  cases below with
  | none => exact ⟨none, w, rfl⟩
  | some ends =>
    obtain ⟨next, previous⟩ := ends
    obtain ⟨connection, -, hconnection, htarget, -⟩ := hnext next previous rfl
    obtain ⟨⟨parent, child⟩, w', hunlink⟩ := exists_unlink hw.formed hconnection htarget true
    exact ⟨some child, w', by simp only [hunlink, ok_bind, pure_eq_ok]⟩

/-- A block can be disposed of. -/
theorem Serviceable.exists_dispose (hQ : Serviceable Q) (h : Kept Q tracked N w0 stale w) (hb : N b)
    (hblock : w.blocks[b]? = some block) (heal : Bool) : ∃ w', w.dispose b heal = .ok w' := by
  obtain ⟨w1, hunplug⟩ := hQ.exists_unplug h.tended hblock heal
  obtain ⟨hk1, hunplugged⟩ := h.unplug hQ.toSteady hb hunplug
  have htop := hunplugged.mem_top hk1.inOrder hblock
  obtain ⟨block1, hblock1⟩ := hk1.inOrder.live_of_top htop
  obtain ⟨below, w2, hcutBelow⟩ := hk1.inOrder.exists_cutBelow hblock1
  have hcut := hk1.inOrder.cut hcutBelow
  obtain ⟨block2, hblock2, -⟩ := hcut.rewires.innards.exists_block_after hblock1
  obtain ⟨doomed, hdoomed, hnodup, hmem, horder⟩ := hcut.inOrder.exists_ordered_descendants hblock2
  obtain ⟨w3, hrelease⟩ :=
    hcut.inOrder.exists_releaseAll (hk1.owned.toHoused.keeps hcut.rewires.innards)
      (List.nodup_reverse.2 hnodup)
      (fun x hx => Below.live hblock2 ((hmem x).1 (List.mem_reverse.1 hx)))
    (fun x hx y hy => List.mem_reverse.2
      ((hmem y).2 (((hmem x).1 (List.mem_reverse.1 hx)).tail hy)))
    (List.pairwise_reverse.2 horder)
  have hfreed := (hk1.tended.freed hQ.toSteady htop hcutBelow hdoomed hrelease).fire hQ.toSteady
    (.delete b doomed)
  obtain ⟨w', hrefresh⟩ := hk1.tended.exists_refresh_touch hQ.equipped hfreed.standing
    (hfreed.confined.coarsen (View.coarser_all _)) (block.parent.toList ++ below.toList) (by
      rintro r hr (hfalse | htouched)
      · exact hfalse.elim
      · obtain ⟨c, hc, hbelow⟩ := hfreed.touched r hr htouched
        exact ⟨c, by simp [hc], hbelow⟩)
  exact ⟨w', by simp only [Workspace.dispose, getBlock_eq_ok.2 hblock, hunplug, hcutBelow, hdoomed,
    hrelease, ok_bind, hrefresh]⟩

end BlockGraph.Workspace
