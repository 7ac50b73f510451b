import BlockGraph.Proofs.Events.Scene
import BlockGraph.Proofs.Workspace.Quiet

/-!
# The events tell what happens

`Workspace.Tells` says of a step that the events it fires lead a replica of the workspace before to
a replica of the workspace after.  Steps that are quiet and leave the scene as it is tell nothing,
rightly (`Tells.of_quiet`); a joint is told by a move of one block (`InOrder.tells_link`,
`tells_parting`), a new block by its creation (`InOrder.tells_newBlockWithId`), and blocks that are
released silently by one deletion (`InOrder.tells_releaseAll`).  Every operation on blocks is a
chain of these.

Along the way the numbers of blocks stay below the next number (`Workspace.Numbered`).
-/

namespace BlockGraph.Workspace

open Relation

variable {w w' w'' : Workspace} {b : BlockId} {c i o : ConnectionId} {socket plug : Joint}
  {name : String} {joined : BlockId × BlockId}

/-- The numbers of all blocks are below the next one. -/
def Numbered (w : Workspace) : Prop :=
  ∀ {b : BlockId} {block : Block}, w.blocks[b]? = some block → b.index < w.nextBlock

/-- The events fired in between lead from a replica of one workspace to a replica of the other,
which is in order and has numbered its blocks. -/
structure Tells (w w' : Workspace) : Prop where
  inOrder : w'.InOrder
  told : ∃ events, w'.events = events.foldl Bus.fire w.events ∧
    Replica.Leads w.entryOf? events w'.entryOf?
  numbered : w.Numbered → w'.Numbered

theorem depth_foldl_fire (events : List Event) :
    ∀ bus : Bus, (events.foldl Bus.fire bus).depth = bus.depth := by
  induction events with
  | nil => exact fun _ => rfl
  | cons event rest ih =>
    intro bus
    rw [List.foldl_cons, ih, Bus.fire]
    split
    · rfl
    · split <;> rfl

namespace Tells

theorem refl (hw : w.InOrder) : Tells w w := ⟨hw, ⟨[], rfl, Replica.leads_nil.2 rfl⟩, fun h => h⟩

theorem trans (h : Tells w w') (h' : Tells w' w'') : Tells w w'' where
  inOrder := h'.inOrder
  told := by
    obtain ⟨events, heq, hleads⟩ := h.told
    obtain ⟨events', heq', hleads'⟩ := h'.told
    exact ⟨events ++ events', by rw [heq', heq, List.foldl_append],
      Replica.leads_append.2 ⟨_, hleads, hleads'⟩⟩
  numbered hn := h'.numbered (h.numbered hn)

/-- Nothing is told where nothing happens. -/
theorem of_silent (hw : w.InOrder) (hw' : w'.InOrder) (hevents : w'.events = w.events)
    (hnext : w'.nextBlock = w.nextBlock) (hscene : SameScene w w') : Tells w w' where
  inOrder := hw'
  told := ⟨[], hevents, Replica.leads_nil.2 (hscene.entryOf?_eq hw hw').symm⟩
  numbered hn := by
    intro b block hblock
    rw [hnext]
    cases hb : w.blocks[b]? with
    | none => exact absurd (hscene.live_iff.2 hb) (by simp [hblock])
    | some old => exact hn hb

theorem of_quiet (hw : w.InOrder) (hw' : w'.InOrder) (hquiet : Quiet w w')
    (hscene : SameScene w w') :
    Tells w w' :=
  .of_silent hw hw' hquiet.events hquiet.nextBlock hscene

theorem of_keeps (hw : w.InOrder) (hkeeps : Keeps w w') (hquiet : Quiet w w') : Tells w w' :=
  .of_quiet hw (hw.keeps hkeeps) hquiet (.of_keeps hkeeps)

theorem of_retouches (hw : w.InOrder) (h : Retouches w w') : Tells w w' :=
  .of_silent hw (hw.keeps h.keeps) (by rw [h.rest]) (by rw [h.rest]) (.of_keeps h.keeps)

theorem refresh (h : Tells w w') {blocks : List BlockId} (hrefresh : w'.refresh blocks = .ok w'') :
    Tells w w'' :=
  h.trans (.of_retouches h.inOrder (retouches_refresh hrefresh))

/-- A step that is quiet up to one event at its end. -/
theorem of_fire {w1 : Workspace} {event : Event} (hquiet : Quiet w w1) (h : w' = w1.fire event)
    (hw' : w'.InOrder) (hevent : Replica.Leads w.entryOf? [event] w'.entryOf?)
    (hlive : ∀ b : BlockId, w.blocks[b]? = none → w'.blocks[b]? = none) : Tells w w' where
  inOrder := hw'
  told := by
    refine ⟨[event], ?_, hevent⟩
    rw [h, ← hquiet.events]
    rfl
  numbered hn := by
    intro b block hblock
    have hnext : w'.nextBlock = w.nextBlock := by rw [h, ← hquiet.nextBlock]; rfl
    rw [hnext]
    cases hb : w.blocks[b]? with
    | none => exact absurd (hlive b hb) (by simp [hblock])
    | some old => exact hn hb

/-- A change of a property is nothing to a replica. -/
theorem of_change (hw : w.InOrder) (hkeeps : Keeps w w') (hquiet : Quiet w w') (b : BlockId)
    (property : Property) (old new : String) : Tells w (w'.fire (.change b property old new)) := by
  have hfire := hkeeps.trans (.of_fire w' (.change b property old new))
  have hscene : SameScene w _ := .of_keeps hfire
  refine .of_fire hquiet rfl (hw.keeps hfire) ?_ fun b => hscene.live_iff.2
  rw [hscene.entryOf?_eq hw (hw.keeps hfire), Replica.leads_change, Replica.leads_nil]

end Tells

/-! ## Fields and properties -/

/-- A property of a block is set, and a change of it is announced. -/
theorem Restyled.tells {f : Block → Block} (h : Restyled b f w w') (hw : w.InOrder)
    (hf : ∀ block, (f block).frame = block.frame) : Tells w w' := by
  obtain ⟨w1, h1, hw'⟩ := h
  have hkeeps : Keeps w w1 := .of_modifyBlock h1 fun block _ => hf block
  rcases hw' with rfl | ⟨_, _, _, rfl⟩
  · exact .of_keeps hw hkeeps (.of_modifyBlock h1)
  · exact .of_change hw hkeeps (.of_modifyBlock h1) ..

theorem InOrder.tells_renameVariable (hw : w.InOrder) {field : String}
    (h : w.renameVariable b field name = .ok w') : Tells w w' := by
  obtain ⟨_, v, _, w1, -, -, -, h1, h⟩ := renameVariable_cases h
  exact (Tells.of_change hw (.of_modifyVariable h1) (.of_modifyVariable h1) ..).refresh h

/-- A block that is shifted stays alone. -/
theorem InOrder.tells_moveBy (hw : w.InOrder) {dx dy : Float} (h : w.moveBy b dx dy = .ok w') :
    Tells w w' := by
  simp only [moveBy, bind_eq_ok, getBlock_eq_ok, require_eq_ok] at h
  obtain ⟨block, hblock, _, hparent, w1, h1, h⟩ := h
  cases h
  have hkeeps := (Keeps.of_modifyBlock h1 fun _ _ => rfl).trans (.of_fire w1 (.move b
    { coordinate := some block.offset }
    { coordinate := some ⟨block.offset.x + dx, block.offset.y + dy⟩ }))
  have hscene : SameScene w _ := .of_keeps hkeeps
  have hfree : ∀ c, ¬ w.Plugs b c := by
    intro c hc
    obtain ⟨connection, hconnection, -⟩ := hw.connection_of_plugs hc
    obtain ⟨block', hblock', hp⟩ := hw.parentOf_of_plugs hc hconnection
    cases hblock.symm.trans hblock'
    rw [hp] at hparent
    cases hparent
  refine .of_fire (.of_modifyBlock h1) rfl (hw.keeps hkeeps) ?_ fun b => hscene.live_iff.2
  rw [hscene.entryOf?_eq hw (hw.keeps hkeeps)]
  have hentry := hw.entryOf?_of_free (frame_of_block hblock) hfree
  exact Replica.leads_move hentry rfl rfl hentry fun _ _ => rfl

/-! ## Joints -/

/-- Two connections are joined, and then it is announced. -/
theorem exists_announced_link (hpair : w.skeleton.Pairing i o socket plug)
    (h : w.link i o = .ok w') :
    ∃ w1 name offset, Quiet w w1 ∧ w.skeleton.seat? i = some (socket.block, name) ∧
      w' = w1.fire (.move plug.block { coordinate := some offset }
        { parent := some socket.block, input := name }) := by
  have hskel := (skeleton_link hpair h).1
  simp only [link, bind_eq_ok, getConnection_eq_ok, getBlock_eq_ok] at h
  obtain ⟨inferior, hi, superior, ho, child, -, w1, h1, w2, h2, w3, h3, above, habove, h⟩ := h
  cases hpair.socket_eq.symm.trans (joint_of_connection hi)
  cases hpair.plug_eq.symm.trans (joint_of_connection ho)
  cases h
  have hregister : Quiet w2 ((w2.unregister i).unregister o) := ⟨rfl, rfl, rfl⟩
  refine ⟨w3, above.inputNameOf? i, child.offset, ?_, ?_, rfl⟩
  · exact (Quiet.of_modifyConnection h1).trans
      ((Quiet.of_modifyConnection h2).trans (hregister.trans (quiet_setParent h3)))
  · -- names and owners can be read off after the step
    have hseat : w3.skeleton.seat? i = w.skeleton.seat? i := by
      rw [show w3.skeleton = _ from hskel, Skeleton.seat?_rewire]
    have hjoint : w3.skeleton.joint i = some { inferior.joint with target := some o } := by
      rw [show w3.skeleton = _ from hskel]
      exact hpair.joint_inferior true
    rw [← hseat, Skeleton.seat?_eq hjoint (frame_of_block habove), Block.nameOf?_frame]

/-- Other blocks are where they were. -/
theorem InOrder.entryOf?_link (hw : w.InOrder) (hw' : w'.InOrder)
    (hpair : w.skeleton.Pairing i o socket plug) (h : w.link i o = .ok w') {x : BlockId}
    (hx : x ≠ plug.block) : w'.entryOf? x = w.entryOf? x := by
  have hskel := (skeleton_link hpair h).1
  refine entryOf?_congr hw hw' ?_ (fun d => ?_) fun d _ => ?_
  · rw [hskel, Skeleton.kind_rewire]
  · rw [plugs_link hw.formed hpair h, if_neg hx]
  · rw [hskel, Skeleton.seat?_rewire]

/-- A joint is told by the move of the block that is plugged in. -/
theorem InOrder.tells_link (hw : w.InOrder) (hpair : w.skeleton.Pairing i o socket plug)
    (hcheck : Check.intersects socket.check plug.check = true)
    (hcycle : w.skeleton.ParentOf socket.block plug.block ∨
      ¬ ReflTransGen w.skeleton.ParentOf plug.block socket.block)
      (hfree : ∀ c, ¬ w.Plugs plug.block c)
    (h : w.link i o = .ok w') : Tells w w' := by
  have hw' := hw.link hpair hcheck hcycle h
  have hskel := (skeleton_link hpair h).1
  have hkind : ∀ x, (w'.skeleton.frame x).map Frame.kind = (w.skeleton.frame x).map Frame.kind := by
    intro x
    rw [hskel, Skeleton.kind_rewire]
  obtain ⟨f, hf, -⟩ := hw.formed.wired.frame_of_joint hpair.plug_eq
  obtain ⟨f', hf', hkind'⟩ := Option.map_eq_some_iff.1 ((hkind plug.block).trans (by rw [hf]; rfl))
  obtain ⟨w1, name, offset, hquiet, hname, heq⟩ := exists_announced_link hpair h
  refine .of_fire hquiet heq hw' ?_ fun b hb => (live_of_kind (hkind b)).2 hb
  refine Replica.leads_move (hw.entryOf?_of_free hf hfree) rfl rfl ?_ fun x hx => ?_
  · have hplugs : w'.Plugs plug.block i := (plugs_link hw.formed hpair h).2 (by simp)
    have hseat : w'.skeleton.seat? i = some (socket.block, name) := by
      rw [hskel, Skeleton.seat?_rewire, hname]
    have hentry := hw'.entryOf?_of_plugs hf' hplugs hseat
    rw [hkind'] at hentry
    exact hentry
  · exact hw.entryOf?_link hw' hpair h hx

/-- Two connections are parted, and then it is announced. -/
theorem exists_announced_unlink (hw : w.skeleton.Formed) {parent child : BlockId}
    (h : w.unlink c true = .ok ((parent, child), w')) :
    ∃ w1 d name offset, Quiet w w1 ∧ w.Plugs child d ∧ w.skeleton.seat? d = some (parent, name) ∧
      w' = w1.fire (.move child { parent := some parent, input := name }
        { coordinate := some offset }) := by
  obtain ⟨w1, hquiet,
    ⟨hannounce, -⟩ | ⟨-, t, i, o, socket, plug, above, offset, hc, horient, hi, hparent, ho, hchild,
      habove, hw'⟩⟩ := exists_parted h
  · cases hannounce
  · obtain ⟨connection, hconnection, htarget⟩ := Option.bind_eq_some_iff.1 hc
    subst hparent hchild
    refine ⟨w1, i, above.inputNameOf? i, offset, hquiet, ?_, ?_, hw'⟩
    · obtain ⟨i', o', socket', plug', horient', hpair, -⟩ :=
        pairing_of_target hw hconnection htarget
      cases horient.symm.trans horient'
      cases hpair.plug_eq.symm.trans (joint_of_connection ho)
      refine ⟨o, plug.joint, joint_of_connection ho, rfl, hpair.isSuperior, ?_⟩
      rw [orient_eq hconnection] at horient
      split at horient
      · cases horient
        cases hconnection.symm.trans ho
        exact htarget
      · cases horient
        exact hw.wired.target_back (joint_of_connection hconnection) htarget
          (joint_of_connection ho)
    · rw [Skeleton.seat?_eq (joint_of_connection hi) (frame_of_block habove), Block.nameOf?_frame]
      rfl

/-- Parting is told by the move of the block that was plugged in.  Before, one check may have been
replaced. -/
theorem tells_parting {w0 : Workspace} (hw0 : w0.InOrder) (hquiet0 : Quiet w0 w)
    (hscene0 : SameScene w0 w) (hw : w.skeleton.Formed) (h : w.unlink c true = .ok (joined, w'))
    (hw' : w'.InOrder) : Tells w0 w' := by
  obtain ⟨parent, child⟩ := joined
  obtain ⟨i, o, socket, plug, hpair, -, -, hchild, hskel, -⟩ := skeleton_unlink hw h
  have hkind : ∀ x, (w'.skeleton.frame x).map Frame.kind =
      (w0.skeleton.frame x).map Frame.kind := by
    intro x
    rw [hskel, Skeleton.kind_rewire, hscene0.kind]
  have hseat : ∀ {x : BlockId} {d : ConnectionId}, w0.Plugs x d →
      w'.skeleton.seat? d = w0.skeleton.seat? d := by
    intro x d hx
    rw [hskel, Skeleton.seat?_rewire, hscene0.seat hx]
  have hplugs : ∀ {x : BlockId} {d : ConnectionId}, w'.Plugs x d ↔ x ≠ child ∧ w0.Plugs x d := by
    intro x d
    rw [plugs_unlink hw h, hscene0.plugs]
  obtain ⟨w1, d, name, offset, hquiet, hplug, hname, heq⟩ := exists_announced_unlink hw h
  have hplug0 : w0.Plugs child d := hscene0.plugs.1 hplug
  obtain ⟨f, hf⟩ : ∃ f, w0.skeleton.frame child = some f := by
    obtain ⟨f, hf, -⟩ := hw.wired.frame_of_joint hpair.plug_eq
    obtain ⟨f0, hf0, -⟩ :=
      Option.map_eq_some_iff.1 ((hscene0.kind plug.block).symm.trans (by rw [hf]; rfl))
    exact ⟨f0, hchild ▸ hf0⟩
  obtain ⟨f', hf', hkind'⟩ := Option.map_eq_some_iff.1 ((hkind child).trans (by rw [hf]; rfl))
  refine .of_fire (hquiet0.trans hquiet) heq hw' ?_ fun b hb => (live_of_kind (hkind b)).2 hb
  refine Replica.leads_move
    (hw0.entryOf?_of_plugs hf hplug0 ((hscene0.seat hplug0).symm.trans hname))
    rfl rfl ?_ fun x hx => ?_
  · have hentry := hw'.entryOf?_of_free hf' fun e he => (hplugs.1 he).1 rfl
    rw [hkind'] at hentry
    exact hentry
  · exact entryOf?_congr hw0 hw' (hkind x) (fun e => by simp [hplugs, hx]) fun _ => hseat

theorem InOrder.tells_unlink (hw : w.InOrder) (h : w.unlink c true = .ok (joined, w')) :
    Tells w w' :=
  tells_parting hw (.refl w) (.refl w) hw.formed h (hw.unlink h)

end BlockGraph.Workspace
