import BlockGraph.Proofs.Events.Telling
import BlockGraph.Proofs.Upkeep.Links

/-!
# Edits and what they tell

Connecting, disconnecting, unplugging, disposing, changing inputs, and making blocks, each followed
through its steps.  The blocks that go in a disposal are released without a word; until the deletion
is announced the events lag behind, and the deletion then accounts for all of them at once.
-/

namespace BlockGraph.Workspace

open Relation

variable {w1 w w' w'' : Workspace} {id b : BlockId} {o c : ConnectionId} {check : Check}
  {kind : Kind} {l : List BlockId} {index : Nat} {block : Block}

/-! ## Connecting and disconnecting -/

/-- A superior connection that is joined to nothing leaves its block plugged into nothing. -/
theorem not_plugs_of_target (hw : w.skeleton.Formed) {plug : Joint}
    (hplug : w.skeleton.joint o = some plug) (hsup : plug.kind.isSuperior = true)
    (htarget : plug.target = none) (d : ConnectionId) : ¬ w.Plugs plug.block d := by
  rintro ⟨t, j, hj, hb, hjsup, hjtarget⟩
  cases hw.wired.superior_unique hj hplug hb hjsup hsup
  cases hj.symm.trans hplug
  rw [htarget] at hjtarget
  cases hjtarget

namespace InOrder

variable (hw : w.InOrder)
include hw

/-- Two connections that have passed the gate are joined, by one move. -/
theorem tells_join {a d i : ConnectionId} {ca : Connection}
    (hgate : w.checkStructure a d = .ok none) (hca : w.connections[a]? = some ca)
    (hapart : ca.target ≠ some d) (horient : w.orient a d = .ok (i, o)) (h : w.link i o = .ok w') :
    Tells w w' := by
  obtain ⟨i', o', socket, plug, horient', hpair, hcheck, hcycle⟩ := hw.linkable hgate
  cases horient.symm.trans horient'
  -- the two are not joined, and neither is joined to a third
  have htarget : plug.target = none := by
    refine hpair.plug_target.resolve_right fun htarget => hapart ?_
    rw [orient_eq hca] at horient
    split at horient
    · cases horient
      cases hpair.plug_eq.symm.trans (joint_of_connection hca)
      exact htarget
    · cases horient
      exact hw.formed.wired.target_back hpair.plug_eq htarget (joint_of_connection hca)
  exact hw.tells_link hpair hcheck hcycle
    (not_plugs_of_target hw.formed hpair.plug_eq hpair.isSuperior htarget) h

/-- A pair that does not pass a replaced check is parted, by one move. -/
theorem tells_expel {joined : BlockId × BlockId}
    (h1 : w.modifyConnection c ({ · with check }) = .ok w1)
    (h : w1.unlink c true = .ok (joined, w')) : Tells w w' := by
  have hscene : SameScene w w1 := sameScene_recheck h1
  have hquiet : Quiet w w1 := .of_modifyConnection h1
  obtain ⟨old, hold, rfl⟩ := modifyConnection_eq_ok.1 h1
  obtain ⟨hformed, hw'⟩ := hw.unlink_recheck hold h
  exact tells_parting hw hquiet hscene hformed h hw'

/-! ## Unplugging -/

/-- Taking a block out of a stack is told by up to three moves. -/
theorem tells_unplugHealing {above next previous : ConnectionId}
    (habove : w.parentConnection? b = .ok (some above))
    (hbelow : w.below? b = .ok (some (next, previous)))
    (h : w.unplugHealing above next previous = .ok w') : Tells w w' := by
  obtain ⟨joined1, w1, joined2, w2, answer, h1, h2, hanswer, hcases⟩ := hw.healing_cases habove h
  have hw1 := hw.unlink h1
  have htells : Tells w w2 := (hw.tells_unlink h1).trans (hw1.tells_unlink h2)
  rcases hcases with ⟨-, rfl⟩ | ⟨rfl, horient, hlink⟩
  · exact htells
  · obtain ⟨socket, hsocket, -⟩ := hw.connection_of_plugs (hw.plugs_iff.2 habove)
    obtain ⟨-, -, below, -, -, -, -, hprevious, -⟩ := hw.plugs_of_below hbelow
    have hout := hw.takenOut habove hsocket hbelow hprevious h1 h2
    obtain ⟨i, o, socket, plug, horient', hpair, hcheck, hcycle⟩ := hout.inOrder.linkable hanswer
    cases horient.symm.trans horient'
    refine htells.trans (hout.inOrder.tells_link hpair hcheck hcycle (fun d hd => ?_) hlink)
    -- the block below has been parted from the one that goes
    cases hpair.plug_eq.symm.trans hout.plug_eq
    exact ((hout.plugs _ d).1 hd).2.1 rfl

/-! ## Disposal -/

/-- A block that is severed may be parted from its parent. -/
theorem skeleton_sever (h : w.sever b = .ok w') :
    w'.skeleton = w.skeleton ∨
      ∃ i o parent child, w'.skeleton = w.skeleton.rewire i o parent child false := by
  rcases sever_cases h with ⟨-, rfl⟩ | ⟨-, c, ⟨parent, child⟩, -, -, hunlink⟩
  · exact .inl rfl
  · obtain ⟨i, o, socket, plug, -, -, -, -, hskel, -⟩ := skeleton_unlink hw.formed hunlink
    exact .inr ⟨i, o, _, _, hskel⟩

/-- A block that is released loses its entry, and no other block does. -/
theorem entryOf?_release (h : w.release b = .ok w') :
    w.blocks[b]? ≠ none ∧ ∀ x, w'.entryOf? x = if x = b then none else w.entryOf? x := by
  have hw' := hw.release h
  obtain ⟨w1, block, h1, hblock, hfree, hskel, -⟩ := skeleton_release h
  have hw1 := hw.sever h1
  have hkind1 : ∀ x, (w1.skeleton.frame x).map Frame.kind =
      (w.skeleton.frame x).map Frame.kind := by
    obtain hs | ⟨i, o, p, d, hs⟩ := hw.skeleton_sever h1
    · exact fun x => by rw [hs]
    · exact fun x => by rw [hs, Skeleton.kind_rewire]
  have hseat1 : ∀ d, w1.skeleton.seat? d = w.skeleton.seat? d := by
    obtain hs | ⟨i, o, p, d, hs⟩ := hw.skeleton_sever h1
    · exact fun x => by rw [hs]
    · exact fun x => by rw [hs, Skeleton.seat?_rewire]
  refine ⟨fun hb => ?_, fun x => ?_⟩
  · rw [← live_of_kind (hkind1 b), hblock] at hb
    cases hb
  · split
    · rename_i hx
      have hgone : w'.skeleton.frame x = none := by
        rw [hskel, hx]
        exact Function.update_self ..
      exact entryOf?_eq_none_iff.2 (Option.map_eq_none_iff.1 hgone)
    · rename_i hx
      have hframe : w'.skeleton.frame x = w1.skeleton.frame x := by
        rw [hskel]
        exact Function.update_of_ne hx ..
      refine entryOf?_congr hw hw' (by rw [hframe, hkind1]) (fun d => ?_) fun d hd => ?_
      · rw [hw.plugs_release h]
        simp [hx]
      · rw [← hseat1]
        -- what the block is plugged into does not belong to the one that goes
        obtain ⟨t, j, hj, -, -, htarget⟩ := (hw.plugs_sever h1).2 ⟨hx, hd⟩
        obtain ⟨j', hj', hback, -⟩ := hw1.formed.wired.target hj htarget
        have hmem : d ∉ block.frame.connections := fun hmem => by
          rw [hfree d hmem j' hj'] at hback
          cases hback
        have howner : j'.block ≠ b := fun heq =>
          hmem ((hw1.formed.wired.mem_connections (frame_of_block hblock)).2 ⟨j', hj', heq⟩)
        refine Skeleton.seat?_congr ?_ fun i hi => ?_
        · rw [hskel]
          exact if_neg hmem
        · cases hj'.symm.trans hi
          rw [hskel]
          exact congrArg (Option.bind · _) (Function.update_of_ne howner ..)

end InOrder

theorem InOrder.entryOf?_releaseAll :
    ∀ {w w' : Workspace}, w.InOrder → l.foldlM Workspace.release w = .ok w' →
      (∀ x ∈ l, w.blocks[x]? ≠ none) ∧
      ∀ x, w'.entryOf? x = if x ∈ l then none else w.entryOf? x := by
  induction l with
  | nil =>
    intro w w' _ h
    cases h
    simp
  | cons b l ih =>
    intro w w' hw h
    obtain ⟨w1, h1, h⟩ := bind_eq_ok.1 h
    obtain ⟨hlive, hentry⟩ := hw.entryOf?_release h1
    obtain ⟨hlives, hentries⟩ := ih (hw.release h1) h
    refine ⟨fun x hx hnone => ?_, fun x => ?_⟩
    · rcases List.mem_cons.1 hx with rfl | hmem
      · exact hlive hnone
      · refine hlives x hmem (entryOf?_eq_none_iff.1 ?_)
        rw [hentry, entryOf?_eq_none_iff.2 hnone, ite_self]
    · rw [hentries, hentry]
      by_cases hx : x = b <;> simp [hx]

/-- Blocks that were released silently are accounted for by one deletion. -/
theorem InOrder.tells_releaseAll (hw : w.InOrder) {ids : List BlockId}
    (h : l.foldlM Workspace.release w = .ok w') (hids : ∀ x, x ∈ ids ↔ x ∈ l) (b : BlockId) :
    Tells w (w'.fire (.delete b ids)) := by
  obtain ⟨hlive, hentry⟩ := InOrder.entryOf?_releaseAll hw h
  have hw' : w'.InOrder := foldlM_induction (fun _ _ _ _ hv hstep => hv.release hstep) hw h
  refine .of_fire (.of_foldlM (fun _ _ _ => quiet_release) h) rfl (hw'.keeps (.of_fire w' _)) ?_ ?_
  · have hall : ∀ x ∈ ids, w.entryOf? x ≠ none := fun x hx hnone =>
      hlive x ((hids x).1 hx) (entryOf?_eq_none_iff.1 hnone)
    refine Replica.leads_singleton.2 ⟨hall, funext fun x => ?_⟩
    simp only [Replica.follow, hids]
    exact (hentry x).symm
  · intro x hx
    refine entryOf?_eq_none_iff.1 ((hentry x).trans ?_)
    rw [entryOf?_eq_none_iff.2 hx, ite_self]

/-! ## Inputs -/

theorem InOrder.tells_appendInput (hw : w.InOrder) {kind : InputKind} {name : String}
    (h : w.appendInput b kind name check = .ok (index, w')) : Tells w w' :=
  .of_quiet hw (hw.appendInput h) (quiet_appendInput h) (hw.sameScene_appendInput h)

/-- Once what is plugged into an input has been disposed of, the input goes silently. -/
theorem InOrder.sameScene_removeInput (hw : w.InOrder) (hblock : w.blocks[b]? = some block)
    {w2 : Workspace}
    (h1 : w.modifyBlock b (fun block => { block with inputs := block.inputs.eraseIdx index }) =
      .ok w1)
      (h2 : ((block.inputs[index]?.getD default).fields.filterMap (·.value.heldVariable?)).foldlM
        disposeVariable w1 = .ok w2)
    (h : (block.inputs[index]?.getD default).connection.toList.foldlM disposeConnection w2 =
      .ok w') :
    w'.InOrder ∧ Quiet w w' ∧ SameScene w w' := by
  have hkeeps : Keeps w1 w2 := .of_foldlM (fun _ _ _ => keeps_disposeVariable) h2
  have hquiet := quiet_dropInput h1 h2 h
  cases hinput : block.inputs[index]? with
  | some input =>
    rw [hinput] at h
    exact ⟨hw.dropInput hblock hinput h1 hkeeps h, hquiet,
      hw.sameScene_dropInput hblock hinput h1 hkeeps h⟩
  | none =>
    rw [hinput] at h
    cases h
    have hsame : Keeps w w1 := by
      refine .of_modifyBlock h1 fun block' hblock' => ?_
      cases hblock.symm.trans hblock'
      rw [List.eraseIdx_of_length_le (List.getElem?_eq_none_iff.1 hinput)]
    have hkeeps' := hsame.trans hkeeps
    exact ⟨hw.keeps hkeeps', hquiet, .of_keeps hkeeps'⟩

/-- Edits tell what they do, after whatever was told before. -/
theorem inputClosed_tells (w : Workspace) : InputClosed (Tells w) where
  refresh h hrun := h.refresh hrun
  join h hgate hca hapart horient hrun :=
    h.trans (h.inOrder.tells_join hgate hca hapart horient hrun)
  part h hrun := h.trans (h.inOrder.tells_unlink hrun)
  heal h habove hbelow hrun := h.trans (h.inOrder.tells_unplugHealing habove hbelow hrun)
  erase h hrun := h.trans (h.inOrder.tells_releaseAll hrun (by simp) _)
  recheck h hc hrun hpass := h.trans (.of_quiet h.inOrder (h.inOrder.recheck hc hrun hpass)
    (.of_modifyConnection hrun) (sameScene_recheck hrun))
  expel h h1 hrun := h.trans (h.inOrder.tells_expel h1 hrun)
  appendInput h hrun := h.trans (h.inOrder.tells_appendInput hrun)
  extend h h1 hrun := by
    have happended := h.trans (h.inOrder.tells_appendInput h1)
    exact happended.trans
      (.of_keeps happended.inOrder (keeps_extendFields hrun) (quiet_extendFields hrun))
  dropInput h hblock h1 h2 hrun := by
    obtain ⟨hw', hquiet, hscene⟩ := h.inOrder.sameScene_removeInput hblock h1 h2 hrun
    exact h.trans (.of_quiet h.inOrder hw' hquiet hscene)

/-! ## New blocks -/

theorem InOrder.sameScene_applyStem (hw : w.InOrder) {stem : Kind.Stem}
    (hblock : w.blocks[b]? = some block) (hprev : block.previous = none)
    (h : w.applyStem b stem = .ok w') : SameScene w w' := by
  cases stem with
  | output check => exact hw.sameScene_declareOutput h
  | statement =>
    simp only [Workspace.applyStem, bind_eq_ok] at h
    obtain ⟨w1, h1, h⟩ := h
    have hw1 := (hw.declarePrevious (fun block' hblock' => by
      cases hblock.symm.trans hblock'
      exact hprev) h1).1
    exact (hw.sameScene_declarePrevious h1).trans (hw1.sameScene_declareNext h)

theorem InOrder.sameScene_appendPlannedInput (hw : w.InOrder) {plan : Kind.InputPlan}
    (h : w.appendPlannedInput b plan = .ok w') : SameScene w w' := by
  simp only [Workspace.appendPlannedInput, bind_eq_ok] at h
  obtain ⟨⟨index, w1⟩, h1, h⟩ := h
  exact (hw.sameScene_appendInput h1).trans
    (.of_keeps (.of_foldlM (fun _ _ _ => keeps_appendPlannedField) h))

/-- The workspace once a block has been entered, without connections. -/
def enter (w : Workspace) (kind : Kind) (id : BlockId) : Workspace :=
  { w with
    nextBlock := max w.nextBlock (id.index + 1)
    blocks := w.blocks.insert id { kind }
    top := w.top ++ [id] }

/-- A block that has just been entered stands alone, and all others are where they were. -/
theorem InOrder.entryOf?_enter (hw : w.InOrder) (hnone : w.blocks[id]? = none) (x : BlockId) :
    (w.enter kind id).entryOf? x = if x = id then some { kind } else w.entryOf? x := by
  have hw' : (w.enter kind id).InOrder := hw.enterBlock hnone _
  have hframe : ∀ y, (w.enter kind id).skeleton.frame y =
      if y = id then some { kind } else w.skeleton.frame y := by
    intro y
    simp only [enter, skeleton, getElem?_insert_eq]
    split <;> rfl
  split
  · rename_i hx
    subst hx
    refine hw'.entryOf?_of_free (by rw [hframe, if_pos rfl]) ?_
    rintro d ⟨t, j, hj, rfl, -⟩
    obtain ⟨connection, hc, rfl⟩ := joint_eq_some_iff.1 hj
    obtain ⟨block, hblock⟩ := hw.block_of_connection (c := t) hc
    exact absurd (hnone.symm.trans hblock) (by simp)
  · rename_i hx
    refine entryOf?_congr hw hw' (by rw [hframe, if_neg hx]) (fun _ => Iff.rfl) fun d hd => ?_
    refine Skeleton.seat?_congr rfl fun j hj => ?_
    obtain ⟨connection, hc, rfl⟩ := joint_eq_some_iff.1 hj
    obtain ⟨block, hblock⟩ := hw.block_of_connection hc
    have hne : connection.joint.block ≠ id := by
      rintro rfl
      exact absurd (hnone.symm.trans hblock) (by simp)
    rw [hframe, if_neg hne]

variable (hw : w.InOrder) (h : w.newBlockWithId kind id = .ok w')
include hw h

/-- After a block has been entered, nothing is said and no entry changes until it is announced. -/
theorem InOrder.exists_entered :
    ∃ w1, w.blocks[id]? = none ∧ (w.enter kind id).InOrder ∧ Quiet (w.enter kind id) w1 ∧
      SameScene (w.enter kind id) w1 ∧ w' = w1.fire (.create id kind) := by
  simp only [Workspace.newBlockWithId, bind_eq_ok, require_eq_ok] at h
  obtain ⟨_, hunused, v, hlayout, w1, htypes, h⟩ := h
  cases h
  have hnone : w.blocks[id]? = none := containsBlock_eq_false_iff.1 (by simpa using hunused)
  have hentered : (w.enter kind id).InOrder := hw.enterBlock hnone _
  refine ⟨w1, hnone, hentered, ?_, ?_, rfl⟩
  · exact (quiet_applyLayout hlayout).trans (quiet_declareTypesIfTyped htypes)
  · have hself : (w.enter kind id).blocks[id]? = some { kind } := by
      rw [enter, getElem?_insert_eq, if_pos rfl]
    simp only [applyLayout, bind_eq_ok] at hlayout
    obtain ⟨u, hstem, hinputs⟩ := hlayout
    have hu : u.InOrder := hentered.applyStem hself rfl rfl rfl hstem
    have hscene : v.InOrder ∧ SameScene u v := by
      refine foldlM_induction (P := fun x => x.InOrder ∧ SameScene u x)
        (fun _ _ x x' hx hstep => ?_) ⟨hu, .refl u⟩ hinputs
      exact ⟨hx.1.appendPlannedInput hstep, hx.2.trans (hx.1.sameScene_appendPlannedInput hstep)⟩
    exact (hentered.sameScene_applyStem hself rfl hstem).trans
      (hscene.2.trans (.of_keeps (retypes_declareTypesIfTyped htypes).keeps))

/-- A new block stands alone, and all others are where they were. -/
theorem InOrder.entryOf?_newBlockWithId :
    w.blocks[id]? = none ∧ ∀ x, w'.entryOf? x = if x = id then some { kind } else w.entryOf? x := by
  have hw' := hw.newBlockWithId h
  obtain ⟨w1, hnone, hentered, -, hscene, rfl⟩ := hw.exists_entered h
  refine ⟨hnone, fun x => ?_⟩
  rw [(hscene.trans (.of_keeps (.of_fire w1 _))).entryOf?_eq hentered hw', hw.entryOf?_enter hnone]

/-- A new block is told by its creation, and numbered. -/
theorem InOrder.tells_newBlockWithId : Tells w w' := by
  have hw' := hw.newBlockWithId h
  obtain ⟨hnone, hentry⟩ := hw.entryOf?_newBlockWithId h
  obtain ⟨w1, -, -, hquiet, -, heq⟩ := hw.exists_entered h
  refine ⟨hw', ⟨[.create id kind], ?_, ?_⟩, fun hn => ?_⟩
  · rw [heq]
    change w1.events.fire _ = _
    rw [hquiet.events]
    rfl
  · refine Replica.leads_singleton.2 ⟨entryOf?_eq_none_iff.2 hnone, funext fun x => ?_⟩
    rw [Replica.follow, Function.update_apply, hentry]
  · intro x block hx
    have hnext : w'.nextBlock = max w.nextBlock (id.index + 1) := by
      rw [heq]
      exact hquiet.nextBlock
    rw [hnext]
    by_cases hxid : x = id
    · rw [hxid]
      omega
    · cases hold : w.blocks[x]? with
      | none =>
        have hgone := hentry x
        rw [if_neg hxid, entryOf?_eq_none_iff.2 hold, entryOf?_eq_none_iff, hx] at hgone
        cases hgone
      | some old =>
        have := hn hold
        omega

end BlockGraph.Workspace
