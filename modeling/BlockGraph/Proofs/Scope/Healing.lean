import BlockGraph.Proofs.Scope.Holders
import BlockGraph.Proofs.Totality.Links
import BlockGraph.Proofs.Upkeep.Bindings

/-!
# Taking a block out of its stack

`unplug_heals` says which links there are after `Workspace.unplug`.  In the middle of a stack, and
if healing is asked for, the block goes with what is plugged into its inputs, and the block below
takes its place, or stands alone if its check does not let it (`Workspace.Healed`).  In all other
cases one link is undone.

The uses in the stack below keep their bindings.  A block declares nothing into its next connection
(`InOrder.not_offers_below`), so the names that the stack saw are those that are seen from the place
it now has (`Healed.denotes_iff`).
-/

namespace BlockGraph

open Relation

theorem Variable.binding?_eq_none {v : Variable} (h : v.isReference = false) :
    v.binding? = none := by
  obtain ⟨name, block, role⟩ := v
  cases role with
  | value => rfl
  | reference => cases h

namespace Workspace

variable {w w' w'' : Workspace} {a b d r x : BlockId} {above next : ConnectionId} {u v : VariableId}
  {name : String} {fits : Prop} {block : Block} {socket : Connection}

/-! ## Names -/

theorem InOrder.not_offers_below (hw : w.InOrder) (hblock : w.blocks[b]? = some block)
    (hnext : block.next = some next) (hd : w.Plugs d next) : ¬ w.Offers name b d v := by
  rintro ⟨hencloses, -⟩
  obtain ⟨input, c, -, hsocket, htarget⟩ := (encloses_iff hblock).1 hencloses
  have hplugs := (hw.targetBlock?_eq_some_iff hblock (Block.mem_inferiors_of_socket? hsocket)).1
    htarget
  obtain ⟨found, hfound, hconnection⟩ := Option.bind_eq_some_iff.1 hsocket
  exact hw.next_ne_of_mem_sockets hblock
    (List.mem_filterMap.2 ⟨found, List.mem_of_find?_eq_some hfound, hconnection⟩)
    (hnext.trans (congrArg some (hd.unique hw.formed hplugs)))

/-! ## Roots and bindings -/

theorem InOrder.root_eq (hw : w.InOrder) (hr : r ∈ w.top) (hx : w.Below r x) :
    w.containsBlock x = true ∧ w.root x = .ok r := by
  obtain ⟨top, htop⟩ := hw.live_of_top hr
  obtain ⟨block, hblock⟩ := hx.live htop
  obtain ⟨r', hroot, hr', hx'⟩ := hw.exists_root hblock
  exact ⟨containsBlock_iff.2 ⟨block, hblock⟩, hw.root_unique hr hr' hx hx' ▸ hroot⟩

theorem heldBy_congr (h : w'.blocks[x]?.map Block.innards = w.blocks[x]?.map Block.innards) :
    w'.HeldBy u x ↔ w.HeldBy u x := by
  constructor
  · rintro ⟨block', hblock', hu⟩
    obtain ⟨block, hblock, heq⟩ := exists_of_map_eq h.symm hblock'
    exact ⟨block, hblock, Block.vars_of_innards heq ▸ hu⟩
  · rintro ⟨block, hblock, hu⟩
    obtain ⟨block', hblock', heq⟩ := exists_of_map_eq h hblock
    exact ⟨block', hblock', (Block.vars_of_innards heq).symm ▸ hu⟩

/-- A use that is bound, before and after, to what its name denotes in a place is bound as it
was. -/
theorem boundTo?_eq_of_boundAt (hbare : KeepsBare w w') (h : w.BoundAt u x) (h' : w'.BoundAt u x)
    (hdenotes : ∀ name v, w'.Denotes name x v ↔ w.Denotes name x v) :
    w'.boundTo? u = w.boundTo? u := by
  rw [boundTo?, boundTo?]
  cases hnew : w'.vars[u]? with
  | none =>
    have heq := hbare u
    rw [hnew] at heq
    rw [Option.map_eq_none_iff.1 heq.symm]
  | some new =>
    obtain ⟨old, hold, hname, -, hreference⟩ := hbare.exists_var hnew
    rw [hold, Option.bind_some, Option.bind_some]
    cases hold' : old.isReference with
    | true =>
      refine Option.ext fun v => ?_
      rw [h' new hnew (hreference.trans hold'), h old hold hold', hdenotes, hname]
    | false =>
      rw [Variable.binding?_eq_none hold', Variable.binding?_eq_none (hreference.trans hold')]

namespace Healed

variable (h : Healed fits b above a d w w')
include h

/-- Nothing new stands below the block that was taken out. -/
theorem below_of_below (hx : w'.Below b x) : w.Below b x := by
  induction hx with
  | refl => exact .refl
  | @tail y z _ hp ih =>
    rw [h.parentOf] at hp
    split at hp
    · next hz => exact hz ▸ .single h.under
    · exact ih.tail hp.2

variable (hw : w.InOrder)
include hw

theorem mem_top : b ∈ w'.top := by
  obtain ⟨block, hblock, -⟩ := h.upper
  obtain ⟨block', hblock', -⟩ := h.rewires.innards.exists_block_after hblock
  exact h.inOrder.mem_top_of_root hblock' (h.root hw)

/-- The stack below holds together. -/
theorem below_stack (hx : w.Below d x) : w'.Below d x := by
  induction hx with
  | refl => exact .refl
  | @tail y z hy hp ih =>
    have hd : z ≠ d := by
      rintro rfl
      exact hw.acyclic z (TransGen.tail' hy hp)
    have hb : z ≠ b := by
      rintro rfl
      exact hw.acyclic z ((TransGen.tail' hy hp).head h.under)
    exact ih.tail ((h.parentOf y z).2 (by rw [if_neg hd]; exact ⟨hb, hp⟩))

section Fits

variable (hfits : fits) (hplugs : w.Plugs b above) (hnone : ∀ name v, ¬ w.Offers name b d v)
include hfits hplugs hnone

/-- Names denote what they did in the tree that the stack is in. -/
theorem denotes_iff (hr : r ∈ w'.top) (hne : r ≠ b) (hx : w'.Below r x) :
    w'.Denotes name x v ↔ w.Denotes name x v := by
  have hoffers : ∀ {p x : BlockId}, x ≠ b → x ≠ d → ∀ {v}, w'.Offers name p x v ↔
    w.Offers name p x v :=
    fun hb hd => h.rewires.offers_iff hw h.inOrder fun c => by simp [h.plugs, hb, hd]
  induction hx generalizing v with
  | refl =>
    have hroot := not_parentOf_of_mem_top h.inOrder hr
    have hd : r ≠ d := by
      rintro rfl
      exact hroot a ((h.parentOf a r).2 (by rw [if_pos rfl]; exact ⟨hfits, rfl⟩))
    have hroot' : ∀ p, ¬ w.ParentOf p r := fun p hp =>
      hroot p ((h.parentOf p r).2 (by rw [if_neg hd]; exact ⟨hne, hp⟩))
    exact (gives_root hroot name v).symm.trans (gives_root hroot' name v)
  | @tail y x _ hp ih =>
    have hold := (h.parentOf y x).1 hp
    by_cases hx : x = d
    · -- the place of the stack is that of the block, which offered the stack nothing
      subst hx
      rw [if_pos rfl] at hold
      have hplace : ∀ {v}, w'.Offers name y x v ↔ w.Offers name y b v :=
        h.rewires.offers_iff hw h.inOrder fun c => by
          rw [h.plugs, if_pos rfl]
          exact ⟨fun hc => hc.2 ▸ hplugs, fun hc => ⟨hfits, hc.unique hw.formed hplugs⟩⟩
      rw [hp.denotes_iff, h.under.denotes_iff, (hold.2 ▸ h.upper : w.ParentOf y b).denotes_iff]
      simp only [hplace, ih, hnone, false_or, not_false_eq_true, implies_true, true_and]
    · rw [if_neg hx] at hold
      rw [hp.denotes_iff, hold.2.denotes_iff]
      simp only [hoffers hold.1 hx, ih]

/-- The tree of the stack is brought up to date last, so every use in it is bound as it was. -/
theorem boundTo?_eq (htyped : w.isTyped = true) (hbound : ∀ x u, w.HeldBy u x → w.BoundAt u x)
    (hrun : w'.refresh [b, a, d] = .ok w'') (hx : w.Below d x) (hu : w.HeldBy u x) :
    w''.boundTo? u = w.boundTo? u := by
  have hparent : w'.ParentOf a d := (h.parentOf a d).2 (by rw [if_pos rfl]; exact ⟨hfits, rfl⟩)
  obtain ⟨block, hblock, -⟩ := id hparent
  obtain ⟨r, -, hr, hrd⟩ := h.inOrder.exists_root hblock
  have hra : w'.Below r a := (hrd.of_parentOf hparent).resolve_left fun heq =>
    not_parentOf_of_mem_top h.inOrder hr a (heq ▸ hparent)
  have hne : r ≠ b := by
    rintro rfl
    exact hw.acyclic a (TransGen.head' h.upper (h.below_of_below hra))
  have hroots : w'.rootsOf [b, a, d] [] = .ok ([b] ++ [r]) := by
    simp [rootsOf, h.inOrder.root_eq (h.mem_top hw) .refl, h.inOrder.root_eq hr hra,
      h.inOrder.root_eq hr hrd, hne]
  have hheld : ∀ {x : BlockId}, w'.HeldBy u x ↔ w.HeldBy u x :=
    heldBy_congr (h.rewires.innards.block _)
  obtain ⟨y, hy, hheld', hbound'⟩ :=
    h.inOrder.boundAt_of_refresh ((isTyped_congr h.rewires.innards.options).trans htyped) hroots
      hrun (hheld.2 hu) (hrd.trans (h.below_stack hw hx))
  have hrebound := h.inOrder.rebound_refresh hrun
  refine boundTo?_eq_of_boundAt (fun v => by rw [hrebound.bare v, h.rewires.vars])
    (hbound y u (hheld.1 hheld')) hbound' fun name v => ?_
  rw [hrebound.denotes_iff, h.denotes_iff hw hfits hplugs hnone hr hne hy]

end Fits

end Healed

/-! ## Unplugging -/

theorem Upheld.boundAt {Q : Block → Prop} {tracked : Prop} (h : Upheld Q tracked w)
    (htyped : w.isTyped = true) (hu : w.HeldBy u x) : w.BoundAt u x := by
  obtain ⟨block, hblock, hmem⟩ := hu
  rw [(h.standing.owned.tidy hblock).vars, Option.mem_toList] at hmem
  obtain ⟨found, hfound, rfl, -⟩ := h.standing.owned.var hblock hmem
  intro use huse href v
  cases hfound.symm.trans huse
  exact h.resolved htyped u found hfound href v

/-- One link is undone, the one above the block. -/
theorem InOrder.unplug_alone (hw : w.InOrder) (habove : w.parentConnection? b = .ok (some above))
    (hsocket : w.connections[above]? = some socket) {joined : BlockId × BlockId} {bs : List BlockId}
    (hunlink : w.unlink above true = .ok (joined, w'))
    (hrefresh : w'.refresh bs = .ok w'') : b ∈ w''.top ∧ ∀ x c, w''.Plugs x c ↔ x ≠ b ∧
    w.Plugs x c := by
  obtain ⟨parent, child⟩ := joined
  have hunlinked := hw.unlinked_above habove hsocket hunlink
  have hkeeps := keeps_refresh hrefresh
  obtain ⟨block, hblock, -⟩ := hunlinked.old
  obtain ⟨block', hblock', -⟩ := hunlinked.rewires.innards.exists_block_after hblock
  refine ⟨hkeeps.top_eq ▸ hunlinked.inOrder.mem_top_of_root hblock' fun p hp =>
    ((hunlinked.parentOf p b).1 hp).1 rfl, fun x c => ?_⟩
  rw [plugs_of_skeleton hkeeps.skeleton_eq, plugs_unlink hw.formed hunlink,
    hw.eq_of_unlink (hw.plugs_iff.2 habove) hunlink]

/-- What taking a block out of the middle of its stack leaves: `socket` is the connection above it,
and `plug` that of the block below. -/
structure StackClosed (b : BlockId) (block : Block) (above next : ConnectionId)
    (socket plug : Connection) (w w' : Workspace) : Prop where
  inputs : ∀ c ∈ block.sockets, ∀ x, w'.Plugs x c ↔ w.Plugs x c
  alone : ∀ x, ¬ w'.Plugs x next
  closed : Check.intersects socket.check plug.check = true → w'.Plugs plug.block above
  parted : Check.intersects socket.check plug.check = false → plug.block ∈ w'.top
  elsewhere : ∀ x c, x ≠ b → x ≠ plug.block → (w'.Plugs x c ↔ w.Plugs x c)
  bindings : Check.intersects socket.check plug.check = true → w.isTyped = true →
    (∀ x u, w.HeldBy u x → w.BoundAt u x) →
    ∀ x u, w.Below plug.block x → w.HeldBy u x → w'.boundTo? u = w.boundTo? u

theorem InOrder.stackClosed (hw : w.InOrder) {plug : Connection} {previous : ConnectionId}
    (habove : w.parentConnection? b = .ok (some above))
    (hsocket : w.connections[above]? = some socket) (hkind : socket.kind = .nextStatement)
    (hblock : w.blocks[b]? = some block) (hbelow : w.below? b = .ok (some (next, previous)))
    (hplug : w.connections[previous]? = some plug)
    (hhealing : w.unplugHealing above next previous = .ok w')
    (hrefresh : w'.refresh [b, socket.block, plug.block] = .ok w'') :
    b ∈ w''.top ∧ StackClosed b block above next socket plug w w'' := by
  have h := hw.healed habove hsocket hkind hbelow hplug hhealing
  have hkeeps := keeps_refresh hrefresh
  have hplugs := hw.plugs_iff.2 habove
  obtain ⟨block', upper, plug', hblock', hnext, hupper, hb, hplug', -, hunder⟩ :=
    hw.plugs_of_below hbelow
  cases hplug.symm.trans hplug'
  cases hblock.symm.trans hblock'
  have hiff : ∀ x c, w''.Plugs x c ↔ if x = plug.block then
      Check.intersects socket.check plug.check = true ∧ c = above else x ≠ b ∧ w.Plugs x c :=
    fun x c => (plugs_of_skeleton hkeeps.skeleton_eq).trans (h.plugs x c)
  -- nothing is plugged into a connection of the block itself by the new link, nor was the block
  have hown : ∀ {c : ConnectionId} {connection : Connection}, w.connections[c]? = some connection →
      connection.block = b → c ≠ above ∧ ¬ w.Plugs b c := by
    intro c connection hc howner
    have hnot : ¬ w.Plugs b c := fun hself => by
      have hcycle := hw.parentOf_of_plugs hself hc
      rw [howner] at hcycle
      exact hw.acyclic b (.single hcycle)
    exact ⟨fun heq => hnot (heq ▸ hplugs), hnot⟩
  refine ⟨hkeeps.top_eq ▸ h.mem_top hw, fun c hc x => ?_, fun x => ?_, fun hfits => ?_,
    fun hfits => ?_, fun x c hx hd => ?_, fun hfits htyped hbound x u hx hu => ?_⟩
  · obtain ⟨connection, hconnection, howner⟩ := hw.structured.owned hblock
      (by simp [Block.connections, hc] : c ∈ block.connections)
    have hne := hown hconnection howner
    rw [hiff]
    split
    · next hd =>
      subst hd
      refine iff_of_false (fun hx => hne.1 hx.2) fun hx => ?_
      exact hw.next_ne_of_mem_sockets hblock hc
        (hnext.trans (congrArg some (hunder.unique hw.formed hx)))
    · exact ⟨And.right, fun hx => ⟨fun heq => hne.2 (heq ▸ hx), hx⟩⟩
  · rw [hiff]
    split
    · exact fun hx => (hown hupper hb).1 hx.2
    · next hd => exact fun hx => hd (hx.2.block_unique hw.formed hunder)
  · rw [hiff, if_pos rfl]
    exact ⟨hfits, rfl⟩
  · obtain ⟨below, hlive, -⟩ := h.under
    obtain ⟨below', hlive', -⟩ := h.rewires.innards.exists_block_after hlive
    refine hkeeps.top_eq ▸ h.inOrder.mem_top_of_root hlive' fun p => ?_
    rw [h.parentOf, if_pos rfl, hfits]
    exact fun hp => Bool.noConfusion hp.1
  · rw [hiff, if_neg hd]
    exact and_iff_right hx
  · exact h.boundTo?_eq hw hfits hplugs (fun _ _ => hw.not_offers_below hblock hnext hunder) htyped
      hbound hrefresh hx hu

/-- **Taking a block out of its stack.**  In every reachable workspace a block that is unplugged
stands alone.  If healing is asked for, the block was plugged into a connection for statements and
there is one below it, then that one is plugged into the connection above if the checks of the two
have something in common, and stands alone else.  The block keeps what its inputs hold, all other
links are as they were, and the uses in a stack that moved up keep their bindings.  In all other
cases the link above the block is undone and no other.  After edits and moves of inputs, unplugging
has an outcome. -/
theorem unplug_heals {socket : Connection} (hw : w.Reachable)
    (habove : w.parentConnection? b = .ok (some above))
    (hsocket : w.connections[above]? = some socket) (heal : Bool) :
    (w.ReachableBy Call.IsReordering → ∃ w', w.unplug b heal = .ok w') ∧
      ∀ w', w.unplug b heal = .ok w' → b ∈ w'.top ∧
        (heal = true → socket.kind = .nextStatement → ∀ block next previous plug,
          w.blocks[b]? = some block → w.below? b = .ok (some (next, previous)) →
          w.connections[previous]? = some plug → StackClosed b block above next socket plug w w') ∧
        (heal = false ∨ socket.kind ≠ .nextStatement ∨ w.below? b = .ok none →
          ∀ x c, w'.Plugs x c ↔ x ≠ b ∧ w.Plugs x c) := by
  have hin := hw.inOrder
  obtain ⟨block, hblock, -⟩ := hin.parentOf_of_plugs (hin.plugs_iff.2 habove) hsocket
  refine ⟨fun hw => ?_, fun w' h => ?_⟩
  · exact serviceable_regular.exists_unplug
      (hw.upheld_reordering Block.steady_regular Block.unordered_regular) hblock heal
  rcases unplug_cases h with ⟨hnone, -⟩ | ⟨above', socket', habove', hsocket', hcases⟩
  · cases habove.symm.trans hnone
  cases habove.symm.trans habove'
  cases hsocket.symm.trans hsocket'
  rcases hcases with ⟨rfl, hkind, next, previous, plug, w1, hbelow, hplug, hhealing, hrefresh⟩ |
    ⟨halone, joined, w1, hunlink, hrefresh⟩
  · obtain ⟨htop, hclosed⟩ :=
      hin.stackClosed habove hsocket hkind hblock hbelow hplug hhealing hrefresh
    refine ⟨htop, fun _ _ block' next' previous' plug' hblock' hbelow' hplug' => ?_,
      fun hother => ?_⟩
    · cases hblock.symm.trans hblock'
      cases hbelow.symm.trans hbelow'
      cases hplug.symm.trans hplug'
      exact hclosed
    · rcases hother with hfalse | hne | hnone
      · cases hfalse
      · exact absurd hkind hne
      · cases hbelow.symm.trans hnone
  · obtain ⟨htop, hplugs⟩ := hin.unplug_alone habove hsocket hunlink hrefresh
    refine ⟨htop, fun hheal hkind block' next' previous' plug' _ hbelow' _ => ?_, fun _ => hplugs⟩
    rcases halone with hfalse | hne | hnone
    · cases hheal.symm.trans hfalse
    · exact absurd hkind hne
    · cases hbelow'.symm.trans hnone

/-- Three prints in a stack; the last prints a function that gives its argument. -/
def printedFunction : Except Fault Workspace :=
  [Call.newBlock .printValue, .newBlock .printValue, .newBlock .printValue, .newBlock .lambda,
    .newBlock .variablesGet, .connect ⟨1⟩ ⟨3⟩, .connect ⟨4⟩ ⟨6⟩, .connect ⟨8⟩ ⟨9⟩,
    .connect ⟨10⟩ ⟨11⟩].foldlM Call.run (Workspace.new {})

theorem unplug_heals_printedFunction :
    ∃ w w', printedFunction = .ok w ∧ w.isTyped = true ∧ w.top =
      [⟨1⟩] ∧ w.unplug ⟨2⟩ true = .ok w' ∧ ⟨2⟩ ∈ w'.top ∧ w'.Plugs ⟨3⟩ ⟨1⟩ ∧
      (∀ x, ¬ w'.Plugs x ⟨4⟩) ∧ w.boundTo? ⟨1⟩ = some ⟨0⟩ ∧ w'.boundTo? ⟨1⟩ = some ⟨0⟩ := by
  obtain ⟨w, hrun, htyped, htop, habove, ⟨socket, hsocket, hkind, hcheck⟩,
      ⟨block, hblock, -⟩, hbelow, ⟨plug, hplug, hthree, hcheck'⟩, hbound, ⟨four, hfour, hthree'⟩,
      ⟨five, hfive, hfour', hheld⟩⟩ : ∃ w, printedFunction = .ok w ∧ w.isTyped = true ∧
      w.top = [⟨1⟩] ∧
        w.parentConnection? ⟨2⟩ = .ok (some ⟨1⟩) ∧
        (∃ socket ∈ w.connections[(⟨1⟩ : ConnectionId)]?, socket.kind = .nextStatement ∧
          socket.check = none) ∧
        (∃ block ∈ w.blocks[(⟨2⟩ : BlockId)]?, True) ∧ w.below? ⟨2⟩ = .ok (some (⟨4⟩, ⟨6⟩)) ∧
        (∃ plug ∈ w.connections[(⟨6⟩ : ConnectionId)]?, plug.block = ⟨3⟩ ∧ plug.check = none) ∧
        w.boundTo? ⟨1⟩ = some ⟨0⟩ ∧
          (∃ block ∈ w.blocks[(⟨4⟩ : BlockId)]?, block.parent = some ⟨3⟩) ∧
        ∃ block ∈ w.blocks[(⟨5⟩ : BlockId)]?, block.parent = some ⟨4⟩ ∧ ⟨1⟩ ∈ block.vars :=
    exists_ok_of_any (by decide +kernel)
  have hw : w.ReachableBy Call.IsReordering :=
    (ReachableBy.new {}).foldlM (by simp [Call.IsReordering, Call.IsEdit]) hrun
  have hreachable : w.Reachable := (Reachable.new {}).foldlM (by simp [Call.Permitted]) hrun
  have hupheld := hw.upheld_reordering Block.steady_regular Block.unordered_regular
  have hfits : Check.intersects socket.check plug.check = true := by rw [hcheck, hcheck']; rfl
  obtain ⟨hends, hafter⟩ := unplug_heals hreachable habove hsocket true
  obtain ⟨w', h⟩ := hends hw
  obtain ⟨htop', hclosed, -⟩ := hafter w' h
  have hclosed := hclosed rfl hkind block _ _ plug hblock hbelow hplug
  have hbelow5 : w.Below plug.block ⟨5⟩ :=
    hthree ▸ (ReflTransGen.single ⟨four, hfour, hthree'⟩).tail ⟨five, hfive, hfour'⟩
  exact ⟨w, w', hrun, htyped, htop, h, htop', hthree ▸ hclosed.closed hfits, hclosed.alone, hbound,
    (hclosed.bindings hfits htyped (fun _ _ => hupheld.boundAt htyped) ⟨5⟩ ⟨1⟩ hbelow5
      ⟨five, hfive, hheld⟩).trans hbound⟩

end Workspace

end BlockGraph
