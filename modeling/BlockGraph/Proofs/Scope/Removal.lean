import BlockGraph.Proofs.Scope.Healing
import BlockGraph.Proofs.Workspace.Quiet

/-!
# What disposing of a block removes

`dispose_removes` says what is gone after `Workspace.dispose`, and what the rest looks like.  The
block is first set apart (`Workspace.SetApart`): it loses the connection above it and the stack
below it, which may take its place.  What hangs from its inputs is not touched by that, so the tree
that is then freed (`Workspace.Released`) is the one that hung from them all along
(`SetApart.exists_trees`).
-/

namespace BlockGraph.Workspace

open Relation

variable {w w' w'' : Workspace} {b x y : BlockId} {block : Block} {c next : ConnectionId}
  {u v : VariableId} {heal : Bool} {cs : List ConnectionId} {below : Option BlockId}
  {bs : List BlockId}

/-! ## Trees -/

theorem targetBlocks_congr (h : ∀ c ∈ cs, w'.targetBlock? c = w.targetBlock? c) :
    w'.targetBlocks cs = w.targetBlocks cs := by
  induction cs with
  | nil => rfl
  | cons c cs ih =>
    simp only [targetBlocks, h c List.mem_cons_self, ih fun d hd => h d (List.mem_cons_of_mem c hd)]

theorem mem_targetBlocks :
    ∀ {ids : List BlockId}, w.targetBlocks cs = .ok ids →
      (x ∈ ids ↔ ∃ c ∈ cs, w.targetBlock? c = .ok (some x)) := by
  induction cs with
  | nil =>
    intro ids h
    cases h
    simp
  | cons c cs ih =>
    intro ids h
    simp only [targetBlocks, bind_eq_ok] at h
    obtain ⟨child, hchild, rest, hrest, h⟩ := h
    cases h
    simp [ih hrest, hchild]

/-- Where the same is plugged in, the same is found. -/
theorem InOrder.targetBlock?_congr (hw : w.InOrder) (hw' : w'.InOrder) {block' : Block}
    (hblock : w.blocks[b]? = some block) (hblock' : w'.blocks[b]? = some block')
    (hinnards : block'.innards = block.innards) (hc : c ∈ block.inferiors)
    (hplugs : ∀ x, w'.Plugs x c ↔ w.Plugs x c) : w'.targetBlock? c = w.targetBlock? c := by
  have hc' : c ∈ block'.inferiors := Block.inferiors_of_innards hinnards ▸ hc
  have hfound : ∀ {w : Workspace} {block : Block}, w.InOrder → w.blocks[b]? = some block →
      c ∈ block.inferiors → ∃ found, w.targetBlock? c = .ok found ∧ ∀ x, x ∈ found ↔
      w.Plugs x c := by
    intro w block hw hblock hc
    obtain ⟨j, hj, -⟩ := (hw.mem_inferiors hblock).1 hc
    obtain ⟨connection, hconnection, rfl⟩ := joint_eq_some_iff.1 hj
    obtain ⟨found, hfound⟩ := hw.exists_targetBlock? hconnection
    exact ⟨found, hfound, fun x => by rw [← hw.targetBlock?_eq_some_iff hblock hc, hfound]; simp⟩
  obtain ⟨found, hfound0, hmem⟩ := hfound hw hblock hc
  obtain ⟨found', hfound', hmem'⟩ := hfound hw' hblock' hc'
  rw [hfound0, hfound']
  exact congrArg Except.ok
    (Option.ext fun x => by rw [← Option.mem_def, ← Option.mem_def, hmem', hplugs, hmem])

/-- The blocks of a tree do not depend on the rest of the workspace, nor on the bound for the
walk. -/
theorem InOrder.descendantsWithin_congr (hw : w.InOrder) {m : Nat} :
    ∀ {n : Nat} {b : BlockId} {block : Block}, w.blocks[b]? = some block →
      (∀ x, w.Below b x → w'.children x = w.children x) → reachCount w.ParentOf w.liveBlocks b < m →
      reachCount w.ParentOf w.liveBlocks b < n →
      w'.descendantsWithin m b = w.descendantsWithin n b := by
  induction m with
  | zero => exact fun _ _ hlt => absurd hlt (Nat.not_lt_zero _)
  | succ m ih =>
    intro n b block hblock hchildren hm hn
    obtain ⟨n, rfl⟩ : ∃ k, n = k + 1 := ⟨n - 1, by omega⟩
    obtain ⟨children, hfound, -, hmem⟩ := hw.exists_children hblock
    simp only [descendantsWithin, hchildren b .refl, hfound, ok_bind]
    rw [mapM_congr fun x hx => ?_]
    have hparent := (hmem x).1 hx
    obtain ⟨child, hchild, -⟩ := id hparent
    have hfewer := hw.reachCount_lt_of_parentOf hparent
    exact ih hchild (fun y hy => hchildren y (.head hparent hy)) (by omega) (by omega)

/-! ## Events -/

/-- Nothing but moves has been told. -/
def Moves (w w' : Workspace) : Prop :=
  ∃ moves : List Event, (∀ event ∈ moves, ∃ x old new, event = .move x old new) ∧
    w'.events = moves.foldl Bus.fire w.events

theorem Moves.quiet (h : Moves w w') (hquiet : w''.events = w'.events) : Moves w w'' := by
  obtain ⟨moves, hmoves, hevents⟩ := h
  exact ⟨moves, hmoves, hquiet.trans hevents⟩

theorem linkClosed_moves (w : Workspace) : LinkClosed (Moves w) where
  place h hrun _ := h.quiet (Quiet.of_modifyBlock hrun).events
  aim h hrun := h.quiet (Quiet.of_modifyConnection hrun).events
  list _ _ h := h
  fire b old new h := by
    obtain ⟨moves, hmoves, hevents⟩ := h
    refine ⟨moves ++ [.move b old new], fun event hevent => ?_, ?_⟩
    · rcases List.mem_append.1 hevent with hold | hlast
      · exact hmoves event hold
      · exact ⟨b, old, new, List.mem_singleton.1 hlast⟩
    · rw [List.foldl_append, ← hevents]
      rfl

theorem moves_unplug (h : w.unplug b heal = .ok w') : Moves w w' := by
  have hnone : Moves w w := ⟨[], by simp, rfl⟩
  rcases unplug_cases h with ⟨-, rfl⟩ | ⟨above, socket, -, -,
    ⟨-, -, next, previous, plug, w1, -, -, hhealing, hrefresh⟩ | ⟨-, joined, w1, hunlink, hrefresh⟩⟩
  · exact hnone
  · exact (unplugHealing_induction (linkClosed_moves w).link (linkClosed_moves w).unlink hnone
      hhealing).quiet (events_refresh hrefresh)
  · exact ((linkClosed_moves w).unlink hnone hunlink).quiet (events_refresh hrefresh)

/-! ## Setting a block apart -/

/-- `x` is directly below `b` in its stack. -/
def Follows (w : Workspace) (b x : BlockId) : Prop :=
  ∃ block next, w.blocks[b]? = some block ∧ block.next = some next ∧ w.Plugs x next

theorem InOrder.below?_of_follows (hw : w.InOrder) (h : w.Follows b x) :
    ∃ next previous, w.below? b = .ok (some (next, previous)) := by
  obtain ⟨block, next, hblock, hnext, t, j, hj, -, -, htarget⟩ := h
  obtain ⟨j', hj', hback, -⟩ := hw.formed.wired.target hj htarget
  obtain ⟨connection, hc, rfl⟩ := joint_eq_some_iff.1 hj'
  have hback : connection.target = some t := hback
  exact ⟨next, t, by simp [below?, getBlock_eq_ok.2 hblock, hnext, getConnection_eq_ok.2 hc, hback]⟩

/-- No block is plugged into a connection of its own. -/
theorem InOrder.not_plugs_self (hw : w.InOrder) (hblock : w.blocks[b]? = some block)
    (hc : c ∈ block.connections) : ¬ w.Plugs b c := by
  intro h
  obtain ⟨connection, hconnection, howner⟩ := hw.structured.owned hblock hc
  have hparent := hw.parentOf_of_plugs h hconnection
  rw [howner] at hparent
  exact hw.acyclic b (.single hparent)

theorem InOrder.plugs_cutBelow (hw : w.InOrder)
    (h : w.cutBelow b = .ok (below, w')) : w'.Plugs x c ↔ ¬ w.Follows b x ∧ w.Plugs x c := by
  rcases cutBelow_cases h with ⟨hnone, -, rfl⟩ | ⟨next, previous, parent, child, hbelow, hunlink, -⟩
  · refine (and_iff_right fun hfollows => ?_).symm
    obtain ⟨next, previous, hbelow⟩ := hw.below?_of_follows hfollows
    cases hnone.symm.trans hbelow
  · obtain ⟨block, upper, plug, hblock, hnext, -, -, -, -, hplugs⟩ := hw.plugs_of_below hbelow
    rw [plugs_unlink hw.formed hunlink, hw.eq_of_unlink hplugs hunlink]
    refine and_congr_left fun _ => not_congr ⟨?_, ?_⟩
    · rintro rfl
      exact ⟨block, next, hblock, hnext, hplugs⟩
    · rintro ⟨block', next', hblock', hnext', hx⟩
      cases hblock.symm.trans hblock'
      cases hnext.symm.trans hnext'
      exact hx.block_unique hw.formed hplugs

/-- A block was set apart from what is above it and from the stack below it. -/
structure SetApart (b : BlockId) (heal : Bool) (w w' : Workspace) : Prop where
  inOrder : w'.InOrder
  block : ∀ x : BlockId, w'.blocks[x]?.map Block.innards = w.blocks[x]?.map Block.innards
  bare : KeepsBare w w'
  moves : Moves w w'
  kept : ∀ {x c}, w.Plugs x c → x ≠ b → ¬ w.Follows b x → w'.Plugs x c
  only : ∀ {x c}, w'.Plugs x c → w.Plugs x c ∧ x ≠ b ∧ ¬ w.Follows b x ∨
    heal = true ∧ w.Plugs b c ∧ w.Follows b x

theorem Rewires.refreshed {A : BlockId → Prop} (h : Rewires A w w') (hw' : w'.InOrder)
    (hrefresh : w'.refresh bs = .ok w'') :
    (∀ x : BlockId, w''.blocks[x]?.map Block.innards = w.blocks[x]?.map Block.innards) ∧
    KeepsBare w w'' := by
  have hrebound := hw'.rebound_refresh hrefresh
  exact ⟨fun x => by rw [hrebound.blocks, h.innards.block],
    fun v => by rw [hrebound.bare v, h.vars]⟩

theorem follows_congr
    (hblock : ∀ x : BlockId, w'.blocks[x]?.map Block.innards = w.blocks[x]?.map Block.innards)
    (hplugs : ∀ {block next}, w.blocks[b]? = some block → block.next = some next →
      (w'.Plugs x next ↔ w.Plugs x next)) : w'.Follows b x ↔ w.Follows b x := by
  constructor
  · rintro ⟨block', next, hblock', hnext, hx⟩
    obtain ⟨block, hold, heq⟩ := exists_of_map_eq (hblock b).symm hblock'
    have hnext : block.next = some next := (Block.next_of_innards heq).trans hnext
    exact ⟨block, next, hold, hnext, (hplugs hold hnext).1 hx⟩
  · rintro ⟨block, next, hold, hnext, hx⟩
    obtain ⟨block', hnew, heq⟩ := exists_of_map_eq (hblock b) hold
    exact ⟨block', next, hnew, (Block.next_of_innards heq).trans hnext, (hplugs hold hnext).2 hx⟩

theorem InOrder.setApart (hw : w.InOrder) {w1 : Workspace} (h1 : w.unplug b heal = .ok w1)
    (h2 : w1.cutBelow b = .ok (below, w')) : SetApart b heal w w' := by
  have hw1 := hw.unplug h1
  have hcut := hw1.cut h2
  have hmoves : Moves w w' := by
    rcases cutBelow_cases h2 with ⟨-, -, rfl⟩ | ⟨next, previous, parent, child, -, hunlink, -⟩
    · exact moves_unplug h1
    · exact (linkClosed_moves w).unlink (moves_unplug h1) hunlink
  have hown : ∀ {block next}, w.blocks[b]? = some block → block.next = some next →
    ¬ w.Plugs b next :=
    fun hblock hnext => hw.not_plugs_self hblock (by simp [Block.connections, hnext])
  -- without healing, the block loses what is above it, and then what is below it
  have halone : (∀ x : BlockId, w1.blocks[x]?.map Block.innards = w.blocks[x]?.map Block.innards) ∧
      KeepsBare w w1 → (∀ x c, w1.Plugs x c ↔ x ≠ b ∧ w.Plugs x c) → SetApart b heal w w' := by
    intro hsame hplugs
    have hfollows : ∀ x, w1.Follows b x ↔ w.Follows b x := fun x =>
      follows_congr hsame.1 fun hblock hnext => by
        rw [hplugs]
        exact and_iff_right_of_imp fun hx heq => hown hblock hnext (heq ▸ hx)
    refine ⟨hcut.inOrder, fun x => (hcut.rewires.innards.block x).trans (hsame.1 x),
      fun v => by rw [hcut.rewires.vars, hsame.2 v], hmoves, fun hx hb hnot => ?_,
      fun {x c} hx => .inl ?_⟩
    · rw [hw1.plugs_cutBelow h2, hfollows, hplugs]
      exact ⟨hnot, hb, hx⟩
    · rw [hw1.plugs_cutBelow h2, hfollows, hplugs] at hx
      exact ⟨hx.2.2, hx.2.1, hx.1⟩
  rcases unplug_cases h1 with ⟨hnone, rfl⟩ | ⟨above, socket, habove, hsocket,
    ⟨hheal, hkind, next, previous, plug, w0, hbelow, hplug, hhealing, hrefresh⟩ | ⟨-, joined, w0,
      hunlink, hrefresh⟩⟩
  · refine halone ⟨fun _ => rfl, fun _ => rfl⟩ fun x c =>
      (and_iff_right_of_imp fun hx heq => ?_).symm
    rw [heq, hw.plugs_iff, hnone] at hx
    cases hx
  · have hhealed := hw.healed habove hsocket hkind hbelow hplug hhealing
    have hsame := hhealed.rewires.refreshed hhealed.inOrder hrefresh
    obtain ⟨block, upper, plug', hblock, hnext, -, -, hplug', -, hunder⟩ := hw.plugs_of_below hbelow
    cases hplug.symm.trans hplug'
    have hplugs : ∀ x c, w1.Plugs x c ↔ if x = plug.block then
        Check.intersects socket.check plug.check = true ∧ c = above else x ≠ b ∧ w.Plugs x c :=
      fun x c => (plugs_of_skeleton (keeps_refresh hrefresh).skeleton_eq).trans (hhealed.plugs x c)
    have hfollows : ∀ x, w.Follows b x ↔ x = plug.block := fun x => by
      constructor
      · rintro ⟨block', next', hblock', hnext', hx⟩
        cases hblock.symm.trans hblock'
        cases hnext.symm.trans hnext'
        exact hx.block_unique hw.formed hunder
      · rintro rfl
        exact ⟨block, next, hblock, hnext, hunder⟩
    have hnone : ∀ x, ¬ w1.Follows b x := by
      rintro x ⟨block', next', hblock', hnext', hx⟩
      obtain ⟨old, hold, heq⟩ := exists_of_map_eq (hsame.1 b).symm hblock'
      cases hblock.symm.trans hold
      cases hnext.symm.trans ((Block.next_of_innards heq).trans hnext')
      rw [hplugs] at hx
      split at hx
      · exact hown hblock hnext (hx.2 ▸ hw.plugs_iff.2 habove)
      · next hne => exact hne (hx.2.block_unique hw.formed hunder)
    refine ⟨hcut.inOrder, fun x => (hcut.rewires.innards.block x).trans (hsame.1 x),
      fun v => by rw [hcut.rewires.vars, hsame.2 v], hmoves, fun hx hb hnot => ?_,
      fun {x c} hx => ?_⟩
    · rw [hw1.plugs_cutBelow h2, hplugs, if_neg ((hfollows _).not.1 hnot)]
      exact ⟨hnone _, hb, hx⟩
    · rw [hw1.plugs_cutBelow h2, hplugs] at hx
      rw [hfollows]
      split at hx
      · next heq => exact .inr ⟨hheal, hx.2.2 ▸ hw.plugs_iff.2 habove, heq⟩
      · next hne => exact .inl ⟨hx.2.2, hx.2.1, hne⟩
  · obtain ⟨parent, child⟩ := joined
    exact halone ((hw.unlinked hunlink).rewires.refreshed (hw.unlink hunlink) hrefresh)
      (hw.unplug_alone habove hsocket hunlink hrefresh).2

/-! ## The tree that goes -/

/-- What is plugged into the inputs of a block, each with all that is below it. -/
def Hanging (w : Workspace) (block : Block) (x : BlockId) : Prop :=
  ∃ c ∈ block.sockets, ∃ child, w.Plugs child c ∧ w.Below child x

namespace InOrder

variable (hw : w.InOrder) (hblock : w.blocks[b]? = some block)
include hw hblock

theorem parentOf_of_socket (hc : c ∈ block.sockets) (hx : w.Plugs x c) : w.ParentOf b x := by
  obtain ⟨connection, hconnection, rfl⟩ := hw.structured.owned hblock
    (by simp [Block.connections, hc] : c ∈ block.connections)
  exact hw.parentOf_of_plugs hx hconnection

/-- Nothing is above itself, so the block is not among what hangs from it. -/
theorem not_below_of_hanging (hx : w.Hanging block x) : ¬ w.Below x b := by
  obtain ⟨c, hc, child, hchild, hbelow⟩ := hx
  exact fun hb => hw.acyclic b
    (TransGen.head' (hw.parentOf_of_socket hblock hc hchild) (hbelow.trans hb))

/-- The stack below a block does not hang from its inputs. -/
theorem not_hanging_of_follows (hx : w.Follows b x) (hy : w.Below x y) :
    y ≠ b ∧ ¬ w.Hanging block y := by
  obtain ⟨block', next, hblock', hnext, hplugs⟩ := hx
  cases hblock.symm.trans hblock'
  obtain ⟨connection, hconnection, howner⟩ := hw.structured.owned hblock
    (by simp [Block.connections, hnext] : next ∈ block.connections)
  have hparent : w.ParentOf b x := howner ▸ hw.parentOf_of_plugs hplugs hconnection
  refine ⟨fun heq => hw.acyclic b (TransGen.head' hparent (heq ▸ hy)), ?_⟩
  rintro ⟨c, hc, child, hchild, hbelow⟩
  obtain rfl := hw.disjoint_below (hw.parentOf_of_socket hblock hc hchild) hparent hbelow hy
  exact hw.next_ne_of_mem_sockets hblock hc
    (hnext.trans (congrArg some (hplugs.unique hw.formed hchild)))

end InOrder

namespace SetApart

variable (h : SetApart b heal w w') (hw : w.InOrder)
include h

theorem exists_block_after {old : Block} (hx : w.blocks[x]? = some old) :
    ∃ new, w'.blocks[x]? = some new ∧ new.innards = old.innards :=
  exists_of_map_eq (h.block x) hx

theorem depthBound_eq : w'.depthBound = w.depthBound := by
  have hlive : w'.liveBlocks = w.liveBlocks := Finset.ext fun x => by
    have hmap := congrArg Option.isSome (h.block x)
    rw [Option.isSome_map, Option.isSome_map] at hmap
    rw [mem_liveBlocks, mem_liveBlocks, ← Option.isSome_iff_exists,
      ← Option.isSome_iff_exists, hmap]
  rw [depthBound, depthBound, ← card_liveBlocks, ← card_liveBlocks, hlive]

include hw

variable (hblock : w.blocks[b]? = some block)
include hblock

/-- What is plugged into the inputs of the block, or hangs from there, stays where it is. -/
theorem plugs_iff {owner : BlockId} {upper : Block}
    (howner : owner = b ∧ c ∈ block.sockets ∨ w.Hanging block owner)
    (hupper : w.blocks[owner]? = some upper) (hc : c ∈ upper.inferiors) :
    w'.Plugs x c ↔ w.Plugs x c := by
  obtain ⟨connection, hconnection, rfl⟩ := hw.structured.owned hupper
    (by rw [Block.connections, List.append_assoc]; exact List.mem_append_right _ hc :
      c ∈ upper.connections)
  -- the block itself is not plugged in down there
  have hself : ¬ w.Plugs b c := fun hb => by
    have hparent := hw.parentOf_of_plugs hb hconnection
    rcases howner with ⟨howner, -⟩ | hhanging
    · exact hw.acyclic b (.single (howner ▸ hparent))
    · exact hw.not_below_of_hanging hblock hhanging (.single hparent)
  refine ⟨fun hx => ?_, fun hx => h.kept hx (fun heq => hself (heq ▸ hx)) fun hfollows => ?_⟩
  · rcases h.only hx with hold | ⟨-, hb, -⟩
    · exact hold.1
    · exact absurd hb hself
  · rcases howner with ⟨-, hsocket⟩ | hhanging
    · exact (hw.not_hanging_of_follows hblock hfollows .refl).2 ⟨c, hsocket, x, hx, .refl⟩
    · obtain ⟨d, hd, child, hchild, hbelow⟩ := hhanging
      exact (hw.not_hanging_of_follows hblock hfollows .refl).2
        ⟨d, hd, child, hchild, hbelow.tail (hw.parentOf_of_plugs hx hconnection)⟩

/-- The block has lost the one below it, and no other child. -/
theorem children_eq : w'.children b = w.targetBlocks block.sockets := by
  obtain ⟨block', hblock', hinnards⟩ := h.exists_block_after hblock
  have hinputs : w'.targetBlocks block.sockets = w.targetBlocks block.sockets :=
    targetBlocks_congr fun c hc => hw.targetBlock?_congr h.inOrder hblock hblock' hinnards
      (List.mem_append_left _ hc)
      fun x => h.plugs_iff hw hblock (.inl ⟨rfl, hc⟩) hblock (List.mem_append_left _ hc)
  have hnext : w'.targetBlocks block.next.toList = .ok [] := by
    cases hnext : block.next with
    | none => rfl
    | some next =>
      have hmem : next ∈ block'.inferiors := by
        rw [Block.inferiors_of_innards hinnards]
        simp [Block.inferiors, hnext]
      obtain ⟨j, hj, -⟩ := (h.inOrder.mem_inferiors hblock').1 hmem
      obtain ⟨connection, hconnection, -⟩ := joint_eq_some_iff.1 hj
      obtain ⟨found, hfound⟩ := h.inOrder.exists_targetBlock? hconnection
      cases found with
      | none => simp [targetBlocks, hfound]
      | some x =>
        rcases h.only ((h.inOrder.targetBlock?_eq_some_iff hblock' hmem).1 hfound) with
          ⟨hx, -, hnot⟩ | ⟨-, hb, -⟩
        · exact absurd ⟨block, next, hblock, hnext, hx⟩ hnot
        · exact absurd hb (hw.not_plugs_self hblock (by simp [Block.connections, hnext]))
  rw [children, getBlock_eq_ok.2 hblock', ok_bind, Block.inferiors_of_innards hinnards,
    Block.inferiors, targetBlocks_append, hinputs, hnext]
  cases w.targetBlocks block.sockets <;> simp

/-- A tree that hung from an input is what it was. -/
theorem descendantsWithin_eq (hc : c ∈ block.sockets) (hx : w.Plugs x c) :
    w'.descendantsWithin w.blockCount x = w.descendants x := by
  have hparent := hw.parentOf_of_socket hblock hc hx
  obtain ⟨child, hchild, -⟩ := id hparent
  have hfewer := hw.reachCount_lt_of_parentOf hparent
  have hbound : reachCount w.ParentOf w.liveBlocks b < w.blockCount + 1 :=
    hw.reachCount_lt_depthBound hblock
  refine hw.descendantsWithin_congr hchild (fun y hy => ?_) (by omega)
    (hw.reachCount_lt_depthBound hchild)
  obtain ⟨upper, hupper⟩ := hy.live hchild
  obtain ⟨upper', hupper', heq⟩ := h.exists_block_after hupper
  rw [children, children, getBlock_eq_ok.2 hupper, getBlock_eq_ok.2 hupper', ok_bind, ok_bind,
    Block.inferiors_of_innards heq]
  exact targetBlocks_congr fun d hd => hw.targetBlock?_congr h.inOrder hupper hupper' heq hd
    fun z => h.plugs_iff hw hblock (.inr ⟨c, hc, x, hx, hy⟩) hupper hd

/-- The tree that is left under the block consists of the trees that hung from its inputs. -/
theorem exists_trees :
    ∃ children trees, w.targetBlocks block.sockets = .ok children ∧
      children.mapM w.descendants = .ok trees ∧ w'.descendants b = .ok (b :: trees.flatten) ∧
      ∀ x, x ∈ trees.flatten ↔ w.Hanging block x := by
  obtain ⟨block', hblock', -⟩ := h.exists_block_after hblock
  obtain ⟨ids, hids, -⟩ := h.inOrder.exists_children hblock'
  have hfound : w.targetBlocks block.sockets = .ok ids := (h.children_eq hw hblock).symm.trans hids
  have hplugs : ∀ x, x ∈ ids ↔ ∃ c ∈ block.sockets, w.Plugs x c := fun x => by
    rw [mem_targetBlocks hfound]
    exact exists_congr fun c => and_congr_right fun hc =>
      hw.targetBlock?_eq_some_iff hblock (List.mem_append_left _ hc)
  have htree : ∀ x ∈ ids, ∃ tree, w.descendants x = .ok tree ∧ ∀ y, y ∈ tree ↔ w.Below x y :=
      fun x hx => by
    obtain ⟨c, hc, hx⟩ := (hplugs x).1 hx
    obtain ⟨child, hchild, -⟩ := hw.parentOf_of_socket hblock hc hx
    exact (hw.exists_descendants hchild).imp fun _ h => ⟨h.1, h.2.2⟩
  obtain ⟨trees, htrees⟩ := exists_mapM_iff.2 fun x hx => (htree x hx).imp fun _ => And.left
  refine ⟨ids, trees, hfound, htrees, ?_, fun y => ?_⟩
  · have hwalk : ∀ x ∈ ids, w'.descendantsWithin w.blockCount x = w.descendants x := fun x hx => by
      obtain ⟨c, hc, hx⟩ := (hplugs x).1 hx
      exact h.descendantsWithin_eq hw hblock hc hx
    rw [descendants, h.depthBound_eq, depthBound]
    simp only [descendantsWithin, h.children_eq hw hblock, hfound, ok_bind,
      mapM_congr hwalk, htrees]
    rfl
  · obtain ⟨hleft, hright⟩ := exists_mem_of_forall₂ (mapM_eq_ok.1 htrees)
    rw [List.mem_flatten]
    constructor
    · rintro ⟨tree, htree', hy⟩
      obtain ⟨x, hx, hwalk⟩ := hright tree htree'
      obtain ⟨tree', hwalk', hmem⟩ := htree x hx
      cases hwalk.symm.trans hwalk'
      obtain ⟨c, hc, hplug⟩ := (hplugs x).1 hx
      exact ⟨c, hc, x, hplug, (hmem y).1 hy⟩
    · rintro ⟨c, hc, x, hplug, hy⟩
      have hx := (hplugs x).2 ⟨c, hc, hplug⟩
      obtain ⟨tree, hmem, hwalk⟩ := hleft x hx
      obtain ⟨tree', hwalk', hiff⟩ := htree x hx
      cases hwalk.symm.trans hwalk'
      exact ⟨tree, hmem, (hiff y).2 hy⟩

end SetApart

/-! ## Disposal -/

/-- What disposing of `b` has left, if the blocks of `removed` are gone. -/
structure Disposed (b : BlockId) (heal : Bool) (removed : List BlockId) (w w' : Workspace) :
    Prop where
  block : ∀ x : BlockId, w'.blocks[x]? = none ↔ w.blocks[x]? = none ∨ x ∈ removed
  connection : ∀ c : ConnectionId, w'.connections[c]? = none ↔ w.connections[c]? = none ∨
    ∃ x ∈ removed, ∃ block : Block, w.blocks[x]? = some block ∧ c ∈ block.connections
  var : ∀ v : VariableId, w'.vars[v]? = none ↔ w.vars[v]? = none ∨ ∃ x ∈ removed, w.HeldBy v x
  announced : ∃ moves : List Event, (∀ event ∈ moves, ∃ x old new, event = .move x old new) ∧
    w'.events = (moves.foldl Bus.fire w.events).fire (.delete b removed)
  kept : ∀ {x : BlockId} {c : ConnectionId} {socket : Connection}, w.Plugs x c →
    w.connections[c]? = some socket → x ∉ removed → socket.block ∉ removed → w'.Plugs x c
  only : ∀ {x : BlockId} {c : ConnectionId}, w'.Plugs x c →
    w.Plugs x c ∨ heal = true ∧ w.Plugs b c ∧ w.Follows b x
  unbound : ∀ {u v : VariableId} {use value : Variable}, w.vars[v]? = some value →
    value.isReference = false → w'.vars[v]? = none → w'.vars[u]? = some use → use.binding? ≠ some v

theorem Denotes.exists_var {name : String} (h : w.Denotes name x v) :
    ∃ found, w.vars[v]? = some found := by
  induction h with
  | here _ hoffers =>
    obtain ⟨-, found, -, hfound, -⟩ := hoffers
    exact ⟨found, hfound⟩
  | above _ _ _ ih => exact ih

theorem KeepsBare.eq_none_iff (h : KeepsBare w w') (v : VariableId) : w'.vars[v]? = none ↔
    w.vars[v]? = none := by
  rw [← Option.map_eq_none_iff (f := Variable.bare), h v, Option.map_eq_none_iff]

/-- A refresh binds no use to a declaration that is not there. -/
theorem InOrder.not_bound_of_refresh (hw : w.InOrder) (h : w.refresh bs = .ok w')
    (hgone : w'.vars[v]? = none) (hold : ∀ {use}, w.vars[u]? = some use → use.binding? ≠ some v)
    {use : Variable} (hu : w'.vars[u]? = some use) : use.binding? ≠ some v := by
  have hrebound := hw.rebound_refresh h
  intro hbound
  rcases hrebound.kept u with hsame | ⟨x, -, hat⟩
  · rw [boundTo?, hu, Option.bind_some, hbound] at hsame
    obtain ⟨old, hu', hbound'⟩ := Option.bind_eq_some_iff.1 hsame.symm
    exact hold hu' hbound'
  · have href : use.isReference = true := by
      obtain ⟨name, block, role⟩ := use
      cases role with
      | value => cases hbound
      | reference => rfl
    obtain ⟨value, hvalue⟩ := ((hat use hu href v).1 hbound).exists_var
    cases hgone.symm.trans hvalue

/-- A block was disposed of: it was set apart, some blocks were freed, and trees were refreshed. -/
structure Uprooted (b : BlockId) (heal : Bool) (removed : List BlockId) (w w2 w3 w' : Workspace) :
    Prop where
  apart : SetApart b heal w w2
  released : removed.reverse.foldlM release w2 = .ok w3
  refreshed : ∃ bs, (w3.fire (.delete b removed)).refresh bs = .ok w'

namespace Uprooted

variable {removed : List BlockId} {w2 w3 : Workspace} (h : Uprooted b heal removed w w2 w3 w')
include h

theorem block_of_not_mem (hx : x ∉ removed) :
    w'.blocks[x]?.map Block.innards = w.blocks[x]?.map Block.innards := by
  obtain ⟨bs, hrefresh⟩ := h.refreshed
  rw [(rest_refresh hrefresh).2]
  exact ((h.apart.inOrder.releasedAll h.released).block x fun hmem => hx
    (List.mem_reverse.1 hmem)).trans (h.apart.block x)

theorem block_eq_none_iff (x : BlockId) : w'.blocks[x]? = none ↔ w.blocks[x]? = none ∨
    x ∈ removed := by
  by_cases hx : x ∈ removed
  · obtain ⟨bs, hrefresh⟩ := h.refreshed
    rw [(rest_refresh hrefresh).2]
    exact iff_of_true ((h.apart.inOrder.releasedAll h.released).gone x (List.mem_reverse.2 hx))
      (.inr hx)
  · rw [← Option.map_eq_none_iff (f := Block.innards), h.block_of_not_mem hx,
      Option.map_eq_none_iff]
    exact (or_iff_left hx).symm

/-- A connection goes with the block that lists it. -/
theorem connection_eq_none_iff (hw : w.InOrder) (hw' : w'.InOrder) (c : ConnectionId) :
    w'.connections[c]? = none ↔ w.connections[c]? = none ∨
      ∃ x ∈ removed, ∃ block : Block, w.blocks[x]? = some block ∧ c ∈ block.connections := by
  constructor
  · intro hgone
    cases hc : w.connections[c]? with
    | none => exact .inl rfl
    | some connection =>
      obtain ⟨block, hblock, hcount, -⟩ := hw.structured.listed hc
      have hmem : c ∈ block.connections := List.one_le_count_iff.1 hcount.ge
      refine .inr ⟨connection.block, by_contra fun hx => ?_, block, hblock, hmem⟩
      obtain ⟨block', hblock', heq⟩ := exists_of_map_eq (h.block_of_not_mem hx) hblock
      obtain ⟨left, hleft, -⟩ :=
        hw'.structured.owned hblock' (Block.connections_of_innards heq ▸ hmem)
      cases hgone.symm.trans hleft
  · intro hgone
    by_contra hc
    obtain ⟨connection, hc⟩ := Option.ne_none_iff_exists'.1 hc
    obtain ⟨block', hblock', hcount, -⟩ := hw'.structured.listed hc
    have hx : connection.block ∉ removed := fun hx => by
      cases hblock'.symm.trans ((h.block_eq_none_iff _).2 (.inr hx))
    obtain ⟨block, hblock, heq⟩ := exists_of_map_eq (h.block_of_not_mem hx).symm hblock'
    -- the block that has it now had it before, so no other block lists it
    obtain ⟨old, hold, hown⟩ := hw.structured.owned hblock
      (Block.connections_of_innards heq ▸ List.one_le_count_iff.1 hcount.ge)
    rcases hgone with hnone | ⟨x, hremoved, listing, hlisting, hmem⟩
    · cases hnone.symm.trans hold
    · obtain ⟨old', hold', hown'⟩ := hw.structured.owned hlisting hmem
      cases hold.symm.trans hold'
      exact hx (hown ▸ hown' ▸ hremoved)

theorem plugs_iff (x : BlockId) (c : ConnectionId) : w'.Plugs x c ↔ x ∉ removed ∧ w2.Plugs x c := by
  obtain ⟨bs, hrefresh⟩ := h.refreshed
  rw [plugs_of_skeleton (keeps_refresh hrefresh).skeleton_eq]
  exact (InOrder.plugs_releaseAll h.apart.inOrder h.released).trans (by rw [List.mem_reverse])

end Uprooted

/-- What disposing of a block comes down to: the block goes with what hangs from its inputs. -/
theorem InOrder.dispose_cases (hw : w.InOrder) (hblock : w.blocks[b]? = some block)
    (h : w.dispose b heal = .ok w') :
    ∃ children trees w2 w3, w.targetBlocks block.sockets = .ok children ∧
      children.mapM w.descendants = .ok trees ∧ (b :: trees.flatten).Nodup ∧
      (∀ x, x ∈ trees.flatten ↔ w.Hanging block x) ∧
      Uprooted b heal (b :: trees.flatten) w w2 w3 w' := by
  simp only [Workspace.dispose, bind_eq_ok, getBlock_eq_ok] at h
  obtain ⟨_, -, w1, h1, ⟨below, w2⟩, h2, doomed, hdoomed, w3, h3, hrefresh⟩ := h
  have hapart := hw.setApart h1 h2
  obtain ⟨children, trees, hchildren, htrees, hwalk, hmem⟩ := hapart.exists_trees hw hblock
  cases hdoomed.symm.trans hwalk
  obtain ⟨block2, hblock2, -⟩ := hapart.exists_block_after hblock
  obtain ⟨ids, hids, hnodup, -⟩ := hapart.inOrder.exists_descendants hblock2
  cases hdoomed.symm.trans hids
  exact ⟨children, trees, w2, w3, hchildren, htrees, hnodup, hmem, hapart, h3, _, hrefresh⟩

/-- **What goes with a block.**  In every reachable workspace, disposing of a block removes the
block and the trees that hang from its inputs, each with the stacks in it, and nothing of the stack
below the block.  The connections and variables that are freed are those of the removed blocks.  The
last event lists the removed blocks in the order of the walk, after moves only.  Links between other
blocks are kept, none is made but the one that closes the stack, and no use is left bound to a
declaration that is gone. -/
theorem dispose_removes (hw : w.Reachable) (hblock : w.blocks[b]? = some block)
    (h : w.dispose b heal = .ok w') :
    ∃ children trees, w.targetBlocks block.sockets = .ok children ∧
      children.mapM w.descendants = .ok trees ∧ (b :: trees.flatten).Nodup ∧
      (∀ x y, w.Follows b x → w.Below x y → y ∉ b :: trees.flatten) ∧
      Disposed b heal (b :: trees.flatten) w w' := by
  have hin := hw.inOrder
  obtain ⟨children, trees, w2, w3, hchildren, htrees, hnodup, hmem, huprooted⟩ :=
    hin.dispose_cases hblock h
  obtain ⟨hapart, h3, bs, hrefresh⟩ := id huprooted
  have hgone := huprooted.block_eq_none_iff
  have hplugs := huprooted.plugs_iff
  have hreleased := hapart.inOrder.releasedAll h3
  have hin3 : (w3.fire (.delete b (b :: trees.flatten))).InOrder :=
    (foldlM_induction (fun _ _ _ _ hv hstep => hv.release hstep) hapart.inOrder h3).keeps
      (.of_fire w3 _)
  have hrebound := hin3.rebound_refresh hrefresh
  have hvar : ∀ v : VariableId, w'.vars[v]? = none ↔ w3.vars[v]? = none := hrebound.bare.eq_none_iff
  refine ⟨children, trees, hchildren, htrees, hnodup, fun x y hx hy => ?_, hgone, fun c => ?_,
    fun v => ?_, ?_, fun {x c socket} hx hsocket hnot hnot' => ?_, fun {x c} hx => ?_,
    fun {u v use value} hv hvalue hfreed huse => ?_⟩
  · obtain ⟨hne, hnot⟩ := hin.not_hanging_of_follows hblock hx hy
    rw [List.mem_cons, hmem]
    exact not_or.2 ⟨hne, hnot⟩
  · exact huprooted.connection_eq_none_iff hin (hin3.keeps (keeps_refresh hrefresh)) c
  · rw [hvar, hreleased.var, hapart.bare.eq_none_iff]
    simp only [heldBy_congr (hapart.block _), List.mem_reverse]
  · obtain ⟨moves, hmoves, hevents⟩ := hapart.moves
    refine ⟨moves, hmoves, ?_⟩
    rw [events_refresh hrefresh, ← hevents,
      ← (Quiet.of_foldlM (fun _ _ _ => quiet_release) h3).events]
    rfl
  · refine (hplugs x c).2 ⟨hnot, hapart.kept hx (fun heq => hnot (heq ▸ List.mem_cons_self)) ?_⟩
    rintro ⟨block', next, hblock', hnext, hx'⟩
    obtain ⟨socket', hsocket', howner⟩ := hin.structured.owned hblock'
      (by simp [Block.connections, hnext] : next ∈ block'.connections)
    cases hx.unique hin.formed hx'
    cases hsocket.symm.trans hsocket'
    exact hnot' (howner ▸ List.mem_cons_self)
  · exact (hapart.only ((hplugs x c).1 hx).2).imp_left And.left
  · obtain ⟨value2, hv2, -, -, href⟩ := hapart.bare.symm.exists_var hv
    exact hin3.not_bound_of_refresh hrefresh hfreed
      (hreleased.freed ((hvar v).1 hfreed) hv2 (href.symm.trans hvalue)) huse

/-- A loop between two prints, in its body a function that gives its argument, and beside them a use
that is bound to the argument. -/
def loopInStack : Except Fault Workspace :=
  [Call.newBlock .printValue, .newBlock .repeatTimes, .newBlock .printValue, .newBlock .printValue,
    .newBlock .printValue, .newBlock .lambda, .newBlock .variablesGet, .newBlock .variablesGet,
    .connect ⟨1⟩ ⟨3⟩, .connect ⟨4⟩ ⟨7⟩, .connect ⟨6⟩ ⟨10⟩, .connect ⟨11⟩ ⟨13⟩, .connect ⟨17⟩ ⟨18⟩,
    .connect ⟨12⟩ ⟨16⟩, .resolveReferences ⟨8⟩ (some ⟨17⟩)].foldlM Call.run (Workspace.new {})

theorem dispose_removes_loopInStack :
    ∃ w w', loopInStack = .ok w ∧ w.dispose ⟨2⟩ true = .ok w' ∧
      Disposed ⟨2⟩ true [⟨2⟩, ⟨4⟩, ⟨6⟩, ⟨7⟩, ⟨5⟩] w w' ∧ w'.blockIds = [⟨1⟩, ⟨3⟩, ⟨8⟩] ∧
      w'.parentConnection? ⟨3⟩ = .ok (some ⟨1⟩) ∧ w.boundTo? ⟨2⟩ = some ⟨0⟩ ∧
      w'.boundTo? ⟨2⟩ ≠ some ⟨0⟩ := by
  obtain ⟨w, hrun, ⟨block, hblock, hsockets, hwalk⟩, hbound, ⟨value, hvalue, href⟩, hdispose⟩ :
      ∃ w, loopInStack = .ok w ∧
        (∃ block ∈ w.blocks[(⟨2⟩ : BlockId)]?, w.targetBlocks block.sockets = .ok [⟨4⟩] ∧
          [(⟨4⟩ : BlockId)].mapM w.descendants = .ok [[⟨4⟩, ⟨6⟩, ⟨7⟩, ⟨5⟩]]) ∧
        w.boundTo? ⟨2⟩ = some ⟨0⟩ ∧
        (∃ value ∈ w.vars[(⟨0⟩ : VariableId)]?, value.isReference = false) ∧
        (w.dispose ⟨2⟩ true).toOption.any (fun w' => decide (w'.blockIds = [⟨1⟩, ⟨3⟩, ⟨8⟩] ∧
          w'.parentConnection? ⟨3⟩ = .ok (some ⟨1⟩) ∧ w'.vars[(⟨0⟩ : VariableId)]?.isNone = true)) =
          true :=
    exists_ok_of_any (by decide +kernel)
  obtain ⟨w', h, hids, hplugged, hgone⟩ := exists_ok_of_any hdispose
  have hw : w.Reachable := (Reachable.new {}).foldlM (by simp [Call.Permitted]) hrun
  obtain ⟨children, trees, hchildren, htrees, -, -, hdisposed⟩ := dispose_removes hw hblock h
  cases hsockets.symm.trans hchildren
  cases hwalk.symm.trans htrees
  refine ⟨w, w', hrun, h, hdisposed, hids, hplugged, hbound, fun hstill => ?_⟩
  obtain ⟨use, huse, hstill⟩ := Option.bind_eq_some_iff.1 hstill
  exact hdisposed.unbound hvalue href (Option.isNone_iff_eq_none.1 hgone) huse hstill

end BlockGraph.Workspace
