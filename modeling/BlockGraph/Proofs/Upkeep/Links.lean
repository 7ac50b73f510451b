import BlockGraph.Proofs.Upkeep.Kept
import BlockGraph.Proofs.Workspace.Plugs

/-!
# Joining and parting keep trees up to date

`Workspace.Linked` and `Workspace.Unlinked` say what one joint made or undone changes: the two
blocks, and the parent of the one below.  After either, `refresh` is given blocks of every tree that
was changed, so all trees are up to date again: `Upheld.connect`, `Upheld.disconnect`,
`Upheld.setCheck`, `Kept.unplug`.
-/

namespace BlockGraph.Workspace

open Relation

variable {b child parent : BlockId} {a above c previous next i o : ConnectionId}
  {joined : BlockId × BlockId} {announce heal : Bool} {socket connection plug : Connection}
  {bs : List BlockId} {check : Check} {w w0 w1 w' : Workspace} {Q : Block → Prop} {tracked : Prop}
  {stale A N : BlockId → Prop} {answer : Option ConnectError}

/-! ## One joint -/

/-- `child` was joined to `parent`, which may have been its parent before. -/
structure Linked (parent child : BlockId) (w w' : Workspace) : Prop where
  inOrder : w'.InOrder
  rewires : Rewires (fun b => b = parent ∨ b = child) w w'
  old : ∀ p, w.ParentOf p child → p = parent
  parentOf : ∀ p b, w'.ParentOf p b ↔ if b = child then p = parent else w.ParentOf p b

/-- `child` was parted from its parent. -/
structure Unlinked (parent child : BlockId) (w w' : Workspace) : Prop where
  inOrder : w'.InOrder
  rewires : Rewires (fun b => b = parent ∨ b = child) w w'
  old : w.ParentOf parent child
  parentOf : ∀ p b, w'.ParentOf p b ↔ b ≠ child ∧ w.ParentOf p b

theorem exists_linked (hw : w.InOrder) {b : ConnectionId} (hgate : w.checkStructure a b = .ok none)
    (horient : w.orient a b = .ok (i, o)) (h : w.link i o = .ok w') :
    ∃ socket plug, w.connections[i]? = some socket ∧ w.connections[o]? = some plug ∧
      (∀ plug', w'.connections[o]? = some plug' → plug'.block = plug.block) ∧
      Linked socket.block plug.block w w' := by
  obtain ⟨i', o', socket, plug, horient', hpair, hcheck, hcycle⟩ := hw.linkable hgate
  cases horient.symm.trans horient'
  obtain ⟨socket, hi, rfl⟩ := joint_eq_some_iff.1 hpair.socket_eq
  obtain ⟨plug, ho, rfl⟩ := joint_eq_some_iff.1 hpair.plug_eq
  have hold : ∀ p, w.ParentOf p plug.block → p = socket.block := by
    intro p hp
    obtain ⟨f, hf, hparent⟩ := parentOf_skeleton.2 hp
    obtain ⟨c, j, t, j', hj, hb, hsup, htarget, hj', rfl⟩ := (hw.formed.parent hf).1 hparent
    have hc := hw.formed.wired.superior_unique hj (joint_of_connection ho) hb hsup hpair.isSuperior
    subst hc
    cases hj.symm.trans (joint_of_connection ho)
    rcases hpair.plug_target with hnone | hsome
    · cases htarget.symm.trans hnone
    · cases htarget.symm.trans hsome
      cases hj'.symm.trans (joint_of_connection hi)
      rfl
  have howner : ∀ plug', w'.connections[o]? = some plug' → plug'.block = plug.block := by
    intro plug' hplug'
    have hj := joint_of_connection hplug'
    rw [(skeleton_link hpair h).1] at hj
    obtain ⟨j, hj, hjoint⟩ := Skeleton.joint_wire_eq_some_iff.1 hj
    cases hj.symm.trans (joint_of_connection ho)
    have hblock := congrArg Joint.block hjoint
    exact hblock.symm
  exact ⟨socket, plug, hi, ho, howner, hw.link hpair hcheck hcycle h,
    .link h hi ho hpair.ne.symm (Or.inl rfl) (Or.inr rfl) fun p hp => Or.inl (hold p hp), hold,
    parentOf_link h hpair hw.formed⟩

theorem InOrder.unlinked (hw : w.InOrder)
    (h : w.unlink c announce = .ok ((parent, child), w')) : Unlinked parent child w w' := by
  obtain ⟨i, o, socket, plug, hi, ho, hmem, rfl, rfl, hsup, htarget, htarget', hskel, hrewires⟩ :=
    exists_unlinked hw.formed h
  obtain ⟨hold, hparent⟩ := parentOf_unlink hw.formed h
  exact ⟨hw.unlink h, hrewires, hold, hparent⟩

theorem Rewires.standing (h : Rewires A w w') (hQ : Steady Q) (hs : Standing Q w)
    (hw' : w'.InOrder) :
    Standing Q w' :=
  hs.keepsInnards hQ hw' h.innards

theorem Rewires.confined (h : Rewires A w w') (view : View) : Confined view A w w' :=
  .of_types (h.agree.coarsen (View.coarser_all view)) h.types

theorem Parted.of_sub (h : Parted N w) (hsub : ∀ p b, w'.ParentOf p b → w.ParentOf p b) :
    Parted N w' :=
  fun p b hp => h p b (hsub p b hp)

theorem Linked.parted (h : Linked parent child w w') (hN : Parted N w)
    (hiff : N parent ↔ N child) : Parted N w' := by
  intro p b hp
  rw [h.parentOf] at hp
  split at hp
  · rename_i hb
    rw [hp, hb]
    exact hiff
  · exact hN p b hp

/-- A step in `N` and a refresh of all trees it touched. -/
theorem Kept.editWithin (h : Kept Q tracked N w0 stale w) (hs : Standing Q w1)
    (hconfined : Confined .all A w w1) (hA : ∀ b, A b → N b) (hparted : Parted N w1)
    (htouched : ∀ r ∈ w1.top, w1.Touched A r → ∃ b ∈ bs, w1.Below r b)
    (hbs : ∀ b ∈ bs, (∃ block, w1.blocks[b]? = some block) → N b) (hrun : w1.refresh bs = .ok w') :
    Kept Q tracked N w0 (fun r => stale r ∧ ∀ b ∈ bs, ¬ w'.Below r b) w' :=
  h.edit hs (hconfined.coarsen (View.coarser_all _))
    ((hconfined.agree.mono hA).coarsen (View.coarser_all _)) hparted htouched hbs hrun

/-- Parting two blocks and refreshing the trees of both. -/
theorem Kept.part (hQ : Steady Q) (h : Kept Q tracked N w0 stale w)
    (hunlinked : Unlinked parent child w w1) (hchild : N child) (hparent : parent ∈ bs)
    (hmem : child ∈ bs) (hbs : ∀ b ∈ bs, N b) (hrun : w1.refresh bs = .ok w') :
    Kept Q tracked N w0 (fun r => stale r ∧ ∀ b ∈ bs, ¬ w'.Below r b) w' := by
  have hrewires := hunlinked.rewires
  refine h.editWithin (hrewires.standing hQ h.standing hunlinked.inOrder) (hrewires.confined _) ?_
    (h.parted.of_sub fun p b hp => ((hunlinked.parentOf p b).1 hp).2) ?_
    (fun b hb _ => hbs b hb) hrun
  · rintro b (rfl | rfl)
    · exact hbs b hparent
    · exact hchild
  · rintro r - ⟨b, rfl | rfl, hb⟩
    · exact ⟨b, hparent, hb⟩
    · exact ⟨b, hmem, hb⟩

/-! ## Between edits -/

/-- Every tree is up to date. -/
def Upheld (Q : Block → Prop) (tracked : Prop) (w : Workspace) : Prop :=
  Tended Q tracked (fun _ => False) (fun _ => False) w

theorem AgreeOff.everything {view : View} (h : w'.options = w.options) :
    AgreeOff view (fun _ => True) w w' := by
  refine ⟨h, fun hA => absurd trivial hA, fun _ hA => absurd trivial hA,
    fun _ hA => absurd trivial hA, fun l hl => ?_⟩
  have hnil : l = [] := List.eq_nil_iff_forall_not_mem.2 fun b hb => hl b hb trivial
  simp [hnil]

theorem Upheld.kept (h : Upheld Q tracked w) :
    Kept Q tracked (fun _ => True) w (fun _ => False) w :=
  .start h (parted_true w) fun _ _ => trivial

theorem Kept.upheld (h : Kept Q tracked N w0 stale w) (hstale : ∀ r ∈ w.top, ¬ stale r) :
    Upheld Q tracked w :=
  h.tended.relax (fun _ _ hr => hr) fun r hr hs => hstale r hr hs

/-- A step and a refresh of all trees it touched. -/
theorem Upheld.edit (h : Upheld Q tracked w) (hs : Standing Q w1)
    (hconfined : Confined .sense A w w1)
    (htouched : ∀ r ∈ w1.top, w1.Touched A r → ∃ b ∈ bs, w1.Below r b)
    (hrun : w1.refresh bs = .ok w') : Upheld Q tracked w' :=
  (h.kept.edit hs hconfined (.everything hconfined.agree.options) (parted_true w1) htouched
    (fun _ _ _ => trivial) hrun).upheld fun _ _ hr => hr.1

/-- A step that concerns nothing in any tree. -/
theorem Upheld.aside (h : Upheld Q tracked w) (hs : Standing Q w')
    (hconfined : Confined .sense (fun _ => False) w w') : Upheld Q tracked w' :=
  (h.touch hs hconfined).relax (fun _ _ hr => hr.elim id fun ⟨_, hfalse, _⟩ => hfalse)
    fun _ _ hr => hr.elim id fun ⟨_, hfalse, _⟩ => hfalse

/-! ## Connecting and disconnecting -/

theorem checkStructure_of_checkConnection {b : ConnectionId}
    (h : w.checkConnection a b = .ok none) : w.checkStructure a b = .ok none := by
  simp only [checkConnection, bind_eq_ok] at h
  obtain ⟨structural, hstructural, h⟩ := h
  cases structural with
  | none => exact hstructural
  | some error => cases h

/-- What joining two connections comes down to: they are refused or joined already, or they pass the
gate, are joined, and the lower block is refreshed. -/
theorem connect_cases (hw : w.InOrder) {b : ConnectionId} (h : w.connect a b = .ok (answer, w')) :
    w' = w ∧ (answer = none → ∃ ca, w.connections[a]? = some ca ∧ ca.target = some b) ∨
      ∃ i o socket plug w1, answer = none ∧ w.checkConnection a b = .ok none ∧
        w.orient a b = .ok (i, o) ∧ w.connections[i]? = some socket ∧
        w.connections[o]? = some plug ∧ w.link i o = .ok w1 ∧ Linked socket.block plug.block w w1 ∧
        w1.refresh [plug.block] = .ok w' := by
  simp only [connect, bind_eq_ok] at h
  obtain ⟨answer', hgate, h⟩ := h
  split at h
  · cases h
    exact .inl ⟨rfl, nofun⟩
  · simp only [bind_eq_ok, getConnection_eq_ok] at h
    obtain ⟨ca, hca, h⟩ := h
    split at h
    · next htarget =>
      cases h
      exact .inl ⟨rfl, fun _ => ⟨ca, hca, htarget⟩⟩
    · simp only [bind_eq_ok, getConnection_eq_ok] at h
      obtain ⟨⟨i, o⟩, horient, w1, hlink, plug', hplug', w2, hrefresh, h⟩ := h
      cases h
      obtain ⟨socket, plug, hi, ho, howner, hlinked⟩ :=
        exists_linked hw (checkStructure_of_checkConnection hgate) horient hlink
      rw [howner plug' hplug'] at hrefresh
      exact .inr ⟨i, o, socket, plug, w1, rfl, hgate, horient, hi, ho, hlink, hlinked, hrefresh⟩

theorem Upheld.connect (hQ : Steady Q) (h : Upheld Q tracked w) {b : ConnectionId}
    (hrun : w.connect a b = .ok (answer, w')) : Upheld Q tracked w' := by
  rcases connect_cases h.standing.inOrder hrun with ⟨rfl, -⟩ |
    ⟨i, o, socket, plug, w1, -, -, -, -, -, -, hlinked, hrefresh⟩
  · exact h
  · refine h.edit (hlinked.rewires.standing hQ h.standing hlinked.inOrder)
      (hlinked.rewires.confined _) ?_ hrefresh
    rintro r - ⟨x, rfl | rfl, hx⟩
    · exact ⟨plug.block, List.mem_singleton_self _,
        hx.tail ((hlinked.parentOf _ _).2 (if_pos rfl ▸ rfl))⟩
    · exact ⟨plug.block, List.mem_singleton_self _, hx⟩

theorem Upheld.disconnect (hQ : Steady Q) (h : Upheld Q tracked w)
    (hrun : w.disconnect c = .ok w') : Upheld Q tracked w' := by
  simp only [Workspace.disconnect, bind_eq_ok] at hrun
  obtain ⟨⟨⟨parent, child⟩, w1⟩, hunlink, hrun⟩ := hrun
  exact (h.kept.part hQ (h.standing.inOrder.unlinked hunlink) trivial (by simp) (by simp)
    (fun _ _ => trivial) hrun).upheld fun _ _ hr => hr.1

/-- A check is not seen in a tree. -/
theorem AgreeOff.recheck (hc : w.connections[c]? = some connection) (check : Check) :
    AgreeOff .sense (fun _ => False) w
      { w with connections := w.connections.insert c { connection with check } } := by
  refine ⟨rfl, fun _ => rfl, fun {x found} hx _ => ?_, fun h _ => by rw [h]; rfl,
    fun _ _ => Iff.rfl⟩
  rw [getElem?_insert_eq]
  split
  · rename_i heq
    subst heq
    cases hc.symm.trans hx
    rfl
  · rw [hx]
    rfl

/-- Two blocks are parted whose checks do not fit any more. -/
theorem Standing.unlink_recheck (hQ : Steady Q) (hs : Standing Q w)
    (hc : w.connections[c]? = some connection)
    (hrun : { w with connections := w.connections.insert c { connection with check } }.unlink c
      announce = .ok ((parent, child), w')) :
    Standing Q w' ∧ Confined .sense (fun x => x = parent ∨ x = child) w w' := by
  obtain ⟨hformed, hw'⟩ := hs.inOrder.unlink_recheck hc hrun
  obtain ⟨-, -, -, -, -, -, -, -, -, -, -, -, -, hrewires⟩ := exists_unlinked hformed hrun
  have hinnards :
    KeepsInnards w { w with connections := w.connections.insert c { connection with check } } :=
    .of_eq rfl rfl rfl rfl
  refine ⟨hs.keepsInnards hQ hw' (hinnards.trans hrewires.innards), ?_⟩
  exact (Confined.of_types ((AgreeOff.recheck hc check).mono fun b hb => hb.elim) rfl).trans
    (hrewires.confined .sense)

theorem Upheld.setCheck (hQ : Steady Q) (h : Upheld Q tracked w)
    (hrun : w.setCheck c check = .ok w') : Upheld Q tracked w' := by
  have hw' := checkClosed_inOrder.setCheck h.standing.inOrder hrun
  simp only [Workspace.setCheck, bind_eq_ok, modifyConnection_eq_ok] at hrun
  obtain ⟨w1, ⟨connection, hc, rfl⟩, connection1, -, hrun⟩ := hrun
  have haside : ∀ {w'},
      .ok { w with connections := w.connections.insert c { connection with check } } =
      (.ok w' : Except Fault Workspace) → w'.InOrder → Upheld Q tracked w' := by
    rintro w' ⟨⟩ hw'
    exact h.aside (h.standing.keepsInnards hQ hw' (.of_eq rfl rfl rfl rfl))
      (.of_types (.recheck hc check) rfl)
  split at hrun
  · simp only [bind_eq_ok] at hrun
    obtain ⟨other, -, hrun⟩ := hrun
    split at hrun
    · exact haside hrun hw'
    · simp only [Workspace.disconnect, bind_eq_ok] at hrun
      obtain ⟨⟨⟨parent, child⟩, w2⟩, hunlink, hrun⟩ := hrun
      obtain ⟨hs2, hconfined⟩ := h.standing.unlink_recheck hQ hc hunlink
      refine h.edit hs2 hconfined ?_ hrun
      rintro r - ⟨b, rfl | rfl, hb⟩
      · exact ⟨b, by simp, hb⟩
      · exact ⟨b, by simp, hb⟩
  · exact haside hrun hw'

/-! ## Unplugging -/

/-- The block that is parted from the connection it is plugged into. -/
theorem InOrder.unlinked_above (hw : w.InOrder) (habove : w.parentConnection? b = .ok (some above))
    (hsocket : w.connections[above]? = some socket)
    (h : w.unlink above announce = .ok (joined, w')) : Unlinked socket.block b w w' := by
  obtain ⟨parent, child⟩ := joined
  have hplugs := hw.plugs_iff.2 habove
  have hunlinked := hw.unlinked h
  obtain rfl := hw.eq_of_unlink hplugs h
  rwa [(hw.parentOf_of_plugs hplugs hsocket).unique hunlinked.old]

theorem Keeps.parentOf_iff (h : Keeps w w') {p : BlockId} : w'.ParentOf p b ↔ w.ParentOf p b := by
  rw [← parentOf_skeleton, h.skeleton_eq, parentOf_skeleton]

theorem Keeps.live_iff (h : Keeps w w') :
    (∃ block, w'.blocks[b]? = some block) ↔ ∃ block, w.blocks[b]? = some block := by
  have hframe : w'.skeleton.frame b = w.skeleton.frame b := by rw [h.skeleton_eq]
  constructor
  · rintro ⟨block, hblock⟩
    obtain ⟨old, hold, -⟩ := frame_eq_some_iff.1 (hframe ▸ frame_of_block hblock)
    exact ⟨old, hold⟩
  · rintro ⟨block, hblock⟩
    obtain ⟨new, hnew, -⟩ := frame_eq_some_iff.1 (hframe.symm ▸ frame_of_block hblock)
    exact ⟨new, hnew⟩

/-- What is below a block in its stack is plugged into its next connection. -/
theorem InOrder.plugs_of_below (hw : w.InOrder) (h : w.below? b = .ok (some (next, previous))) :
    ∃ block upper plug, w.blocks[b]? = some block ∧ block.next = some next ∧
      w.connections[next]? = some upper ∧ upper.block = b ∧ w.connections[previous]? = some plug ∧
      plug.kind = .previousStatement ∧ w.Plugs plug.block next := by
  simp only [below?, bind_eq_ok, getBlock_eq_ok] at h
  obtain ⟨block, hblock, h⟩ := h
  split at h
  · rename_i next' hnext
    simp only [bind_eq_ok, getConnection_eq_ok, pure_eq_ok, Except.ok.injEq,
      Option.map_eq_some_iff, Prod.mk.injEq] at h
    obtain ⟨upper, hupper, t, ht, rfl, rfl⟩ := h
    have hmem : (next', ConnectionKind.nextStatement) ∈ block.frame.places := by
      simp [Frame.places, Block.frame, hnext]
    obtain ⟨j, hj, hb, hkind⟩ := hw.formed.wired.joint_of_frame (frame_of_block hblock) hmem
    cases hj.symm.trans (joint_of_connection hupper)
    have hkind : upper.kind = .nextStatement := hkind
    obtain ⟨plug, hplug, hback, hopposite, -⟩ := hw.structured.target hupper ht
    rw [hkind] at hopposite
    exact ⟨block, upper, plug, hblock, hnext, hupper, hb, hplug, hopposite, t, plug.joint,
      joint_of_connection hplug, rfl, by rw [show plug.joint.kind = _ from hopposite]; rfl, hback⟩
  · cases h

/-- The block that is parted from the one above it in its stack. -/
theorem InOrder.unlinked_below (hw : w.InOrder) (hbelow : w.below? b = .ok (some (next, previous)))
    (h : w.unlink next announce = .ok (joined, w')) :
    ∃ plug, w.connections[previous]? = some plug ∧ joined = (b, plug.block) := by
  obtain ⟨parent, child⟩ := joined
  obtain ⟨-, upper, plug, -, -, hupper, rfl, hplug, -, hplugs⟩ := hw.plugs_of_below hbelow
  obtain rfl := hw.eq_of_unlink hplugs h
  exact ⟨plug, hplug, by rw [(hw.parentOf_of_plugs hplugs hupper).unique (hw.unlinked h).old]⟩

/-- What unplugging leaves of a block's surroundings. -/
structure Unplugged (b : BlockId) (heal : Bool) (w w' : Workspace) : Prop where
  root : ∀ p, ¬ w'.ParentOf p b
  block : ∀ x : BlockId, w'.blocks[x]?.map Block.innards = w.blocks[x]?.map Block.innards
  parentOf : heal = false → ∀ p x, w'.ParentOf p x ↔ x ≠ b ∧ w.ParentOf p x

/-- Parting a block from its parent only. -/
theorem Kept.unplugAlone (hQ : Steady Q) (h : Kept Q tracked N w0 stale w) (hb : N b)
    (habove : w.parentConnection? b = .ok (some above))
    (hsocket : w.connections[above]? = some socket)
    (hunlink : w.unlink above announce = .ok (joined, w1))
    (hrun : w1.refresh [b, socket.block] = .ok w') :
    Kept Q tracked N w0 stale w' ∧ Unplugged b heal w w' := by
  have hunlinked := h.inOrder.unlinked_above habove hsocket hunlink
  have hparent : N socket.block := (h.parted _ _ hunlinked.old).2 hb
  have hkept := h.part hQ hunlinked hb (by simp) (by simp) (by simp [hb, hparent]) hrun
  have hkeeps := keeps_refresh hrun
  refine ⟨hkept.relax (fun r _ hr => hr.1) h.inside, fun p hp => ?_, ?_, fun _ p x => ?_⟩
  · exact ((hunlinked.parentOf p b).1 (hkeeps.parentOf_iff.1 hp)).1 rfl
  · intro x
    rw [(rest_refresh hrun).2]
    exact hunlinked.rewires.innards.block x
  · exact hkeeps.parentOf_iff.trans (hunlinked.parentOf p x)

/-! ## Healing -/

theorem below_skeleton {a : BlockId} : ReflTransGen w.skeleton.ParentOf a b ↔ w.Below a b := by
  have heq : w.skeleton.ParentOf = w.ParentOf := funext fun p => funext fun b =>
    propext parentOf_skeleton
  rw [heq]
  rfl

/-- What the gate asks of the structure it finds out. -/
theorem InOrder.exists_checkStructure (hw : w.InOrder) {b : ConnectionId} {ca cb : Connection}
    (ha : w.connections[a]? = some ca) (hb : w.connections[b]? = some cb)
    (horient : w.orient a b = .ok (i, o)) (hi : w.connections[i]? = some socket)
    (ho : w.connections[o]? = some plug) :
    ∃ answer, w.checkStructure a b = .ok answer ∧ (answer = none ↔
      ca.block ≠ cb.block ∧ ca.kind.opposite = cb.kind ∧ ca.isTaken b = false ∧
        cb.isTaken a = false ∧ Check.intersects ca.check cb.check = true ∧
        (ca.target = some b ∨ ¬ w.Below plug.block socket.block)) := by
  simp only [checkStructure, getConnection_eq_ok.2 ha, getConnection_eq_ok.2 hb, horient,
    getConnection_eq_ok.2 hi, getConnection_eq_ok.2 ho, ok_bind]
  by_cases hblock : ca.block = cb.block
  · exact ⟨_, if_pos hblock, by simp [hblock]⟩
  by_cases hkind : ca.kind.opposite = cb.kind
  swap
  · exact ⟨_, (if_neg hblock).trans (if_pos hkind), by simp [hkind]⟩
  rw [if_neg hblock, if_neg (not_not.2 hkind)]
  by_cases hta : ca.isTaken b = true
  · exact ⟨_, if_pos hta, by simp [hta]⟩
  by_cases htb : cb.isTaken a = true
  · exact ⟨_, (if_neg hta).trans (if_pos htb), by simp [htb]⟩
  rw [if_neg hta, if_neg htb]
  cases hcheck : Check.intersects ca.check cb.check with
  | false => exact ⟨_, rfl, by simp⟩
  | true =>
    by_cases htarget : ca.target = some b
    · exact ⟨none, by simp [htarget], by simp [hblock, hkind, hta, htb, htarget]⟩
    · obtain ⟨parent, hparent⟩ := hw.block_of_connection hi
      obtain ⟨verdict, hverdict, hiff⟩ := hw.exists_isAncestorOrSelf plug.block hparent
      rw [below_skeleton] at hiff
      cases verdict with
      | false =>
        exact ⟨none, by simp [htarget, hverdict], by simp [hblock, hkind, hta, htb, ← hiff]⟩
      | true => exact ⟨_, by simp [htarget, hverdict]; rfl, by simp [htarget, ← hiff]⟩


/-- A block was parted from the one below it in its stack and from the connection above. -/
structure TakenOut (b : BlockId) (above previous : ConnectionId) (socket plug : Connection)
    (w w' : Workspace) : Prop where
  inOrder : w'.InOrder
  rewires : Rewires (fun x => x = socket.block ∨ x = b ∨ x = plug.block) w w'
  upper : w.ParentOf socket.block b
  under : w.ParentOf b plug.block
  parentOf : ∀ p x, w'.ParentOf p x ↔ x ≠ b ∧ x ≠ plug.block ∧ w.ParentOf p x
  plugs : ∀ x c, w'.Plugs x c ↔ x ≠ b ∧ x ≠ plug.block ∧ w.Plugs x c
  socket_eq : w'.skeleton.joint above = some { socket.joint with target := none }
  plug_eq : w'.skeleton.joint previous = some { plug.joint with target := none }

theorem InOrder.takenOut (hw : w.InOrder) (habove : w.parentConnection? b = .ok (some above))
    (hsocket : w.connections[above]? = some socket)
    (hbelow : w.below? b = .ok (some (next, previous)))
    (hplug : w.connections[previous]? = some plug) {joined1 joined2 : BlockId × BlockId}
    {w2 : Workspace} (h1 : w.unlink next announce = .ok (joined1, w1))
    (h2 : w1.unlink above announce = .ok (joined2, w2)) :
    TakenOut b above previous socket plug w w2 := by
  obtain ⟨-, upper, plug', -, -, hupper, hb, hplug', hkind, hunder⟩ := hw.plugs_of_below hbelow
  cases hplug.symm.trans hplug'
  obtain ⟨p1, c1⟩ := joined1
  obtain ⟨p2, c2⟩ := joined2
  have hplugs := hw.plugs_iff.2 habove
  have hu1 := hw.unlinked h1
  have hchild := hw.eq_of_unlink hunder h1
  have hparent : w.ParentOf b plug.block := hb ▸ hw.parentOf_of_plugs hunder hupper
  have hne : b ≠ plug.block := fun heq => hw.acyclic b (.single (heq ▸ hparent))
  have hplugs1 : w1.Plugs b above := (plugs_unlink hw.formed h1).2 ⟨hchild ▸ hne, hplugs⟩
  obtain ⟨socket1, hsocket1, -, howner⟩ := exists_connection_unlink hw.formed h1 hsocket
  have hu2 : Unlinked socket.block b w1 w2 :=
    howner ▸ hu1.inOrder.unlinked_above (hu1.inOrder.plugs_iff.1 hplugs1) hsocket1 h2
  obtain rfl := hchild
  obtain rfl := hu1.old.unique hparent
  have hjoint := fun t => hu1.inOrder.joint_unlink_eq hplugs1 h2 t
  have hjoint1 := fun t => hw.joint_unlink_eq hunder h1 t
  refine ⟨hu2.inOrder, (hu1.rewires.mono fun x hx => .inr hx).trans
    (hu2.rewires.mono fun x hx => hx.elim .inl fun heq => .inr (.inl heq)),
    hw.parentOf_of_plugs hplugs hsocket, hparent, fun p x => ?_, fun x c => ?_, ?_, ?_⟩
  · rw [hu2.parentOf, hu1.parentOf]
  · rw [plugs_unlink hu1.inOrder.formed h2, hu1.inOrder.eq_of_unlink hplugs1 h2,
      plugs_unlink hw.formed h1]
  · rw [hjoint, hjoint1, joint_of_connection hsocket]
    simp only [Option.map_some, true_or, if_true]
    split <;> rfl
  · rw [hjoint, hjoint1, joint_of_connection hplug]
    have hsup : plug.joint.block = plug.block ∧ plug.joint.kind.isSuperior = true :=
      ⟨rfl, by rw [show plug.joint.kind = _ from hkind]; rfl⟩
    rw [Option.map_some, if_pos (.inr hsup), Option.map_some]
    split <;> rfl

/-- With both sides free, the gate asks nothing but that the checks have something in common. -/
theorem TakenOut.fits_iff (hw : w.InOrder) (h : TakenOut b above previous socket plug w w')
    (hkind : socket.kind = .nextStatement) (hkind' : plug.kind = .previousStatement)
    (hanswer : w'.checkStructure above previous = .ok answer) :
    answer = none ↔ Check.intersects socket.check plug.check = true := by
  obtain ⟨ca, hca, heq⟩ := joint_eq_some_iff.1 h.socket_eq
  obtain ⟨cb, hcb, heq'⟩ := joint_eq_some_iff.1 h.plug_eq
  obtain ⟨hablock, hakind, hacheck, hafree⟩ : ca.block = socket.block ∧ ca.kind = socket.kind ∧
      ca.check = socket.check ∧ ca.target = none := by
    simpa [Connection.joint] using heq
  obtain ⟨hbblock, hbkind, hbcheck, hbfree⟩ : cb.block = plug.block ∧ cb.kind = plug.kind ∧
      cb.check = plug.check ∧ cb.target = none := by
    simpa [Connection.joint] using heq'
  have horient : w'.orient above previous = .ok (above, previous) := by
    rw [orient_eq hca, hakind, hkind]
    rfl
  obtain ⟨found, hfound, hiff⟩ := h.inOrder.exists_checkStructure hca hcb horient hca hcb
  cases hanswer.symm.trans hfound
  -- the parent stands above the block, and the block above the one below it
  have hcycle : ¬ w.Below plug.block socket.block := fun hbelow =>
    hw.acyclic _ ((TransGen.single h.upper).tail h.under |>.trans_left hbelow)
  have hnot : ¬ w'.Below plug.block socket.block := fun hbelow =>
    hcycle (ReflTransGen.mono (fun p x hp => ((h.parentOf p x).1 hp).2.2) _ _ hbelow)
  have hne : socket.block ≠ plug.block := fun heq => hcycle (heq ▸ .refl)
  rw [hiff, hablock, hbblock, hakind, hbkind, hkind, hkind', hacheck, hbcheck]
  simp [Connection.isTaken, hafree, hbfree, hne, hnot, ConnectionKind.opposite]

/-- `b` was taken out of its stack, and the block below has its place if it `fits` there. -/
structure Healed (fits : Prop) (b : BlockId) (above : ConnectionId) (parent below : BlockId)
    (w w' : Workspace) : Prop where
  inOrder : w'.InOrder
  rewires : Rewires (fun x => x = parent ∨ x = b ∨ x = below) w w'
  upper : w.ParentOf parent b
  under : w.ParentOf b below
  parentOf : ∀ p x, w'.ParentOf p x ↔ if x = below then fits ∧ p = parent else x ≠ b ∧
    w.ParentOf p x
  plugs : ∀ x c, w'.Plugs x c ↔ if x = below then fits ∧ c = above else x ≠ b ∧ w.Plugs x c

namespace Healed

variable {fits : Prop} {below : BlockId} (h : Healed fits b above parent below w w')
include h

theorem ne (hw : w.InOrder) : b ≠ below := fun heq => hw.acyclic b (.single (heq ▸ h.under))

theorem root (hw : w.InOrder) (p : BlockId) : ¬ w'.ParentOf p b := by
  rw [h.parentOf, if_neg (h.ne hw)]
  exact fun hp => hp.1 rfl

end Healed

theorem InOrder.healed (hw : w.InOrder) (habove : w.parentConnection? b = .ok (some above))
    (hsocket : w.connections[above]? = some socket) (hkind : socket.kind = .nextStatement)
    (hbelow : w.below? b = .ok (some (next, previous)))
    (hplug : w.connections[previous]? = some plug)
    (h : w.unplugHealing above next previous = .ok w') :
    Healed (Check.intersects socket.check plug.check = true) b above socket.block plug.block
      w w' := by
  obtain ⟨joined1, w1, joined2, w2, answer, h1, h2, hanswer, hcases⟩ := hw.healing_cases habove h
  have hout := hw.takenOut habove hsocket hbelow hplug h1 h2
  obtain ⟨-, -, plug', -, -, -, -, hplug', hkind', -⟩ := hw.plugs_of_below hbelow
  cases hplug.symm.trans hplug'
  have hfits := hout.fits_iff hw hkind hkind' hanswer
  rcases hcases with ⟨hne, rfl⟩ | ⟨rfl, horient, hlink⟩
  · rw [← hfits]
    refine ⟨hout.inOrder, hout.rewires, hout.upper, hout.under, fun p x => ?_, fun x c => ?_⟩
    · rw [hout.parentOf]
      split <;> simp_all
    · rw [hout.plugs]
      split <;> simp_all
  · obtain ⟨i, o, socket2, plug2, horient', hpair, -⟩ := hout.inOrder.linkable hanswer
    cases horient.symm.trans horient'
    obtain ⟨socket3, plug3, hsocket3, hplug3, -, hlinked⟩ :=
      exists_linked hout.inOrder hanswer horient hlink
    cases hpair.plug_eq.symm.trans hout.plug_eq
    have hupper := congrArg Joint.block
      (Option.some.inj ((joint_of_connection hsocket3).symm.trans hout.socket_eq))
    have hlower := congrArg Joint.block
      (Option.some.inj ((joint_of_connection hplug3).symm.trans hout.plug_eq))
    rw [show socket3.block = socket.block from hupper,
      show plug3.block = plug.block from hlower] at hlinked
    refine ⟨hlinked.inOrder, hout.rewires.trans (hlinked.rewires.mono (by tauto)), hout.upper,
      hout.under, fun p x => ?_, fun x c => ?_⟩
    · rw [hlinked.parentOf, hout.parentOf]
      split <;> simp_all
    · rw [plugs_link hout.inOrder.formed hpair hlink, hout.plugs]
      change (if x = plug.block then _ else _) ↔ _
      split <;> simp_all

/-- Unplugging a block keeps the trees up to date. -/
theorem Kept.unplug (hQ : Steady Q) (h : Kept Q tracked N w0 stale w) (hb : N b)
    (hrun : w.unplug b heal = .ok w') : Kept Q tracked N w0 stale w' ∧ Unplugged b heal w w' := by
  rcases unplug_cases hrun with ⟨habove, rfl⟩ | ⟨above, socket, habove, hsocket,
    ⟨hheal, hkind, next, previous, plug, w1, hbelow, hplug, hhealing, hrun⟩ | ⟨-, joined, w1,
      hunlink, hrun⟩⟩
  · have hroot := h.inOrder.not_parentOf_of_parentConnection habove
    refine ⟨h, hroot, fun _ => rfl, fun _ p x => ⟨fun hp => ⟨?_, hp⟩, And.right⟩⟩
    rintro rfl
    exact hroot p hp
  · have hhealed := h.inOrder.healed habove hsocket hkind hbelow hplug hhealing
    have hparent : N socket.block := (h.parted _ _ hhealed.upper).2 hb
    have hunder : N plug.block := (h.parted _ _ hhealed.under).1 hb
    have hkeeps := keeps_refresh hrun
    have hs := hhealed.rewires.standing hQ h.standing hhealed.inOrder
    have hkept := h.editWithin hs (hhealed.rewires.confined _)
      (by rintro x (rfl | rfl | rfl) <;> assumption) (fun p x hp => ?_) ?_
      (by simp [hb, hparent, hunder]) hrun
    · refine ⟨hkept.relax (fun r _ hr => hr.1) h.inside,
        fun p hp => hhealed.root h.inOrder p (hkeeps.parentOf_iff.1 hp), fun x => ?_,
        fun hfalse => ?_⟩
      · rw [(rest_refresh hrun).2]
        exact hhealed.rewires.innards.block x
      · rw [hfalse] at hheal
        cases hheal
    · rw [hhealed.parentOf] at hp
      split at hp
      · next hx => exact hp.2 ▸ hx ▸ iff_of_true hparent hunder
      · exact h.parted p x hp.2
    · rintro r - ⟨x, hx, hbelow⟩
      refine ⟨x, ?_, hbelow⟩
      rcases hx with rfl | rfl | rfl <;> simp
  · exact h.unplugAlone hQ hb habove hsocket hunlink hrun

end BlockGraph.Workspace
