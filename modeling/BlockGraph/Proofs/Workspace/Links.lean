import BlockGraph.Proofs.Workspace.Construct

/-!
# Joining and parting keep a workspace in order

`link` and `unlink` change the skeleton as `Skeleton.rewire` says (`skeleton_link`,
`skeleton_unlink`).  That a joint may be made is what the gate finds out: two connections that pass
`checkStructure` are a pairing, pass each other's checks, and would not put a block above itself
(`InOrder.linkable`).  The walk that looks for ancestors has a bound; in a workspace in order it is
never met, because parents form no cycle.
-/

namespace BlockGraph.Workspace

open Relation

variable {ancestor b child : BlockId} {a c i o above next : ConnectionId}
  {joined : BlockId × BlockId} {announce : Bool} {check : Check} {connection : Connection}
  {plug socket : Joint} {parent : Option BlockId} {w w' : Workspace} {block : Block}

/-! ## Ancestors -/

theorem parentOf_iff {p : BlockId} (hblock : w.blocks[b]? = some block) :
    w.skeleton.ParentOf p b ↔ block.parent = some p := by
  simp [Skeleton.ParentOf, frame_of_block hblock, Block.frame]

theorem mem_blockIds : b ∈ w.blockIds ↔ ∃ block, w.blocks[b]? = some block := by
  rw [blockIds, Std.ExtTreeMap.mem_keys, Std.ExtTreeMap.mem_iff_isSome_getElem?,
    Option.isSome_iff_exists]

/-- The blocks of a workspace as a finite set. -/
def liveBlocks (w : Workspace) : Finset BlockId := w.blockIds.toFinset

theorem mem_liveBlocks : b ∈ w.liveBlocks ↔ ∃ block, w.blocks[b]? = some block := by
  rw [liveBlocks, List.mem_toFinset, mem_blockIds]

theorem card_liveBlocks (w : Workspace) : w.liveBlocks.card = w.blockCount := by
  have hnodup : w.blockIds.Nodup := Std.ExtTreeMap.nodup_keys
  rw [liveBlocks, List.toFinset_card_of_nodup hnodup, blockIds, Std.ExtTreeMap.length_keys,
    blockCount]

/-- A walk upwards that does not run out finds the ancestors of a block and no other blocks. -/
theorem InOrder.exists_isAncestorWithin (hw : w.InOrder) (height : Nat) :
    ∀ {b : BlockId} {block : Block}, w.blocks[b]? = some block →
      reachCount (Function.swap w.skeleton.ParentOf) w.liveBlocks b < height →
      ∃ verdict, w.isAncestorWithin ancestor height b = .ok verdict ∧
        (verdict = true ↔ ReflTransGen w.skeleton.ParentOf ancestor b) := by
  have hacyclic := hw.formed.acyclic.swap
  induction height with
  | zero => exact fun _ h => absurd h (Nat.not_lt_zero _)
  | succ height ih =>
    intro b block hblock hlt
    unfold isAncestorWithin
    split
    · rename_i heq
      rw [heq]
      exact ⟨true, rfl, fun _ => .refl, fun _ => rfl⟩
    · rename_i hne
      rw [getBlock_eq_ok.2 hblock, ok_bind]
      cases hparent : block.parent with
      | none =>
        refine ⟨false, rfl, fun h => Bool.noConfusion h, fun h => ?_⟩
        rcases h.cases_tail with heq | ⟨p, -, hp⟩
        · exact absurd heq hne
        · rw [parentOf_iff hblock, hparent] at hp
          cases hp
      | some p =>
        have hp : w.skeleton.ParentOf p b := (parentOf_iff hblock).2 hparent
        obtain ⟨f, hf⟩ := hw.formed.related.live hp
        obtain ⟨parent, hlive, -⟩ := frame_eq_some_iff.1 hf
        have hfewer := reachCount_lt hacyclic (x := b) hp (mem_liveBlocks.2 ⟨parent, hlive⟩)
        obtain ⟨verdict, hverdict, hiff⟩ := ih hlive (by omega)
        refine ⟨verdict, hverdict, hiff.trans ⟨fun h => h.tail hp, fun h => ?_⟩⟩
        rcases h.cases_tail with heq | ⟨q, hq, hqb⟩
        · exact absurd heq hne
        · rw [parentOf_iff hblock, hparent] at hqb
          cases hqb
          exact hq

theorem InOrder.exists_isAncestorOrSelf (hw : w.InOrder) (ancestor : BlockId)
    (hblock : w.blocks[b]? = some block) : ∃ verdict, w.isAncestorOrSelf ancestor b = .ok verdict ∧
      (verdict = true ↔ ReflTransGen w.skeleton.ParentOf ancestor b) := by
  refine hw.exists_isAncestorWithin _ hblock ?_
  have hlt := reachCount_lt_card hw.formed.acyclic.swap (mem_liveBlocks.2 ⟨block, hblock⟩)
  rw [card_liveBlocks] at hlt
  simp only [depthBound]
  omega

theorem not_ancestor_of_isAncestorOrSelf (hw : w.InOrder) (hblock : w.blocks[b]? = some block)
    (h : w.isAncestorOrSelf ancestor b = .ok false) :
    ¬ ReflTransGen w.skeleton.ParentOf ancestor b := by
  obtain ⟨verdict, hverdict, hiff⟩ := hw.exists_isAncestorOrSelf ancestor hblock
  cases h.symm.trans hverdict
  exact fun hreach => Bool.noConfusion (hiff.2 hreach)

/-! ## The gate -/

theorem isTaken_eq_false_iff {c : Connection} {id : ConnectionId} :
    c.isTaken id = false ↔ c.target = none ∨ c.target = some id := by
  unfold Connection.isTaken
  cases c.target with
  | none | some t => simp

theorem orient_eq {b : ConnectionId} {ca : Connection} (ha : w.connections[a]? = some ca) :
    w.orient a b = .ok (if ca.kind.isSuperior then (b, a) else (a, b)) := by
  simp [orient, getConnection_eq_ok.2 ha]

/-- What two connections have in common that pass the gate. -/
theorem checkStructure_eq_none {b : ConnectionId} (h : w.checkStructure a b = .ok none) :
    ∃ ca cb, w.connections[a]? = some ca ∧ w.connections[b]? = some cb ∧ ca.block ≠ cb.block ∧
      cb.kind = ca.kind.opposite ∧ (ca.target = none ∨ ca.target = some b) ∧
      (cb.target = none ∨ cb.target = some a) ∧ Check.intersects ca.check cb.check = true ∧
      (ca.target = some b ∨ if ca.kind.isSuperior then w.isAncestorOrSelf ca.block
        cb.block = .ok false else w.isAncestorOrSelf cb.block ca.block = .ok false) := by
  simp only [checkStructure, bind_eq_ok, getConnection_eq_ok] at h
  obtain ⟨ca, ha, cb, hb, h⟩ := h
  split at h
  · cases h
  rename_i hblock
  split at h
  · cases h
  rename_i hkind
  split at h
  · cases h
  rename_i hta
  split at h
  · cases h
  rename_i htb
  split at h
  · cases h
  rename_i hcheck
  refine ⟨ca, cb, ha, hb, hblock, (not_not.1 hkind).symm,
    isTaken_eq_false_iff.1 (by simpa using hta), isTaken_eq_false_iff.1 (by simpa using htb),
    by simpa using hcheck, ?_⟩
  by_cases htarget : ca.target = some b
  · exact Or.inl htarget
  · refine Or.inr ?_
    rw [orient_eq ha] at h
    simp only [ok_bind, bind_eq_ok, getConnection_eq_ok, if_pos htarget] at h
    obtain ⟨ci, hi, co, ho, found, hfound, h⟩ := h
    have hfalse : found = false := by
      cases found with
      | false => rfl
      | true => cases h
    subst hfalse
    split at hi
    · rename_i hsup
      rw [if_pos hsup] at ho ⊢
      rw [hb] at hi
      rw [ha] at ho
      cases hi
      cases ho
      exact hfound
    · rename_i hsup
      rw [if_neg hsup] at ho ⊢
      rw [ha] at hi
      rw [hb] at ho
      cases hi
      cases ho
      exact hfound

/-- What is plugged in is a child of what it is plugged into. -/
theorem InOrder.parentOf_of_joined (hw : w.InOrder) (hplug : w.skeleton.joint o = some plug)
    (hsup : plug.kind.isSuperior = true) (htarget : plug.target = some i)
    (hsocket : w.skeleton.joint i = some socket) : w.skeleton.ParentOf socket.block plug.block := by
  obtain ⟨f, hf, -⟩ := hw.formed.wired.frame_of_joint hplug
  exact ⟨f, hf, (hw.formed.parent hf).2 ⟨o, plug, i, socket, hplug, rfl, hsup, htarget,
    hsocket, rfl⟩⟩

theorem InOrder.block_of_connection (hw : w.InOrder)
    (hc : w.connections[c]? = some connection) :
    ∃ block, w.blocks[connection.block]? = some block := by
  obtain ⟨f, hf, -⟩ := hw.formed.wired.frame_of_joint (joint_of_connection hc)
  obtain ⟨block, hblock, -⟩ := frame_eq_some_iff.1 hf
  exact ⟨block, hblock⟩

/-- Two connections that pass the gate can be linked: they are a pairing, they pass each other's
checks, and no block comes to stand above itself. -/
theorem InOrder.linkable (hw : w.InOrder) {b : ConnectionId} (h : w.checkStructure a b = .ok none) :
    ∃ i o socket plug, w.orient a b = .ok (i, o) ∧ w.skeleton.Pairing i o socket plug ∧
      Check.intersects socket.check plug.check = true ∧
        (w.skeleton.ParentOf socket.block plug.block ∨
          ¬ ReflTransGen w.skeleton.ParentOf plug.block socket.block) := by
  obtain ⟨ca, cb, ha, hb, hblock, hkind, hta, htb, hcheck, hcycle⟩ := checkStructure_eq_none h
  have hja := joint_of_connection ha
  have hjb := joint_of_connection hb
  rw [orient_eq ha]
  by_cases hsup : ca.kind.isSuperior = true
  · rw [if_pos hsup] at hcycle ⊢
    refine ⟨b, a, cb.joint, ca.joint, rfl, ⟨hjb, hja, hkind, hsup, hblock.symm, htb, hta⟩,
      (Check.intersects_comm ..).trans hcheck, ?_⟩
    rcases hcycle with hjoined | hcycle
    · exact Or.inl (hw.parentOf_of_joined hja hsup hjoined hjb)
    · obtain ⟨block, hlive⟩ := hw.block_of_connection hb
      exact Or.inr (not_ancestor_of_isAncestorOrSelf hw hlive hcycle)
  · rw [if_neg hsup] at hcycle ⊢
    have hsup' : cb.kind.isSuperior = true := by
      rw [hkind, ConnectionKind.isSuperior_opposite]
      simpa using hsup
    have hkind' : ca.kind = cb.kind.opposite := by rw [hkind, ConnectionKind.opposite_opposite]
    refine ⟨a, b, ca.joint, cb.joint, rfl, ⟨hja, hjb, hkind', hsup', hblock, hta, htb⟩, hcheck, ?_⟩
    rcases hcycle with hjoined | hcycle
    · have hback := hw.formed.wired.target_back hja hjoined hjb
      exact Or.inl (hw.parentOf_of_joined hjb hsup' hback hja)
    · obtain ⟨block, hlive⟩ := hw.block_of_connection ha
      exact Or.inr (not_ancestor_of_isAncestorOrSelf hw hlive hcycle)

/-! ## Linking -/

theorem skeleton_leaveParent (h : w.leaveParent child = .ok w') :
    w'.skeleton = (w.skeleton.mapFrames fun x fr =>
      if (w.skeleton.frame child).bind Frame.parent = some x then
        { fr with children := fr.children.filter (· != child) }
      else fr) ∧ w'.types = w.types := by
  simp only [leaveParent, bind_eq_ok, getBlock_eq_ok] at h
  obtain ⟨block, hblock, h⟩ := h
  have hparent : (w.skeleton.frame child).bind Frame.parent = block.parent := by
    rw [frame_of_block hblock]
    rfl
  rw [hparent]
  split at h
  · rename_i old hold
    obtain ⟨hskel, htypes⟩ := skeleton_modifyBlock h
      (g := fun fr => { fr with children := fr.children.filter (· != child) }) fun _ => rfl
    refine ⟨hskel.trans (Skeleton.mapFrames_congr fun x fr => ?_), htypes⟩
    simp only [hold, Option.some.injEq, eq_comm (b := old)]
  · rename_i hold
    cases h
    exact ⟨(Skeleton.mapFrames_id fun x fr => by simp [hold]).symm, rfl⟩

theorem skeleton_joinParent (h : w.joinParent child parent = .ok w') :
    w'.skeleton = (w.skeleton.mapFrames fun x fr =>
      { fr with children := fr.children ++ if parent = some x then [child] else [] }).setTop
        (Skeleton.topAfter w.skeleton.top child parent) ∧ w'.types = w.types := by
  cases parent with
  | some parent =>
    simp only [joinParent, bind_eq_ok] at h
    obtain ⟨w1, h1, h⟩ := h
    cases h
    obtain ⟨hskel, htypes⟩ := skeleton_modifyBlock h1
      (g := fun fr => { fr with children := fr.children ++ [child] }) fun _ => rfl
    refine ⟨?_, htypes⟩
    rw [skeleton_removeTop, hskel]
    refine congrArg (Skeleton.setTop · _) (Skeleton.mapFrames_congr fun x fr => ?_)
    by_cases hx : x = parent
    · simp [hx]
    · simp [hx, eq_comm (a := parent)]
  | none =>
    cases h
    refine ⟨?_, ?_⟩
    · rw [skeleton_addTop, Skeleton.mapFrames_id fun x fr => by simp]
      rfl
    · unfold addTop
      split <;> rfl

/-- Putting a block under a parent is `reparent`. -/
theorem skeleton_setParent (h : w.setParent child parent = .ok w') :
    w'.skeleton = w.skeleton.reparent child parent ∧ w'.types = w.types := by
  simp only [setParent, bind_eq_ok] at h
  obtain ⟨_, -, _, -, w1, h1, w2, h2, h3⟩ := h
  obtain ⟨hskel1, htypes1⟩ := skeleton_leaveParent h1
  obtain ⟨hskel2, htypes2⟩ := skeleton_modifyBlock h2 (g := fun fr => { fr with parent }) fun _ =>
    rfl
  obtain ⟨hskel3, htypes3⟩ := skeleton_joinParent h3
  refine ⟨?_, htypes3.trans (htypes2.trans htypes1)⟩
  rw [hskel3, hskel2, hskel1, Skeleton.mapFrames_mapFrames, Skeleton.mapFrames_mapFrames]
  refine congrArg (Skeleton.setTop · _) (Skeleton.mapFrames_congr fun x fr => ?_)
  unfold Frame.regroup
  split_ifs <;> rfl

/-- Linking joins the two connections and puts the owner of the superior one under that of the
inferior one. -/
theorem skeleton_link (hpair : w.skeleton.Pairing i o socket plug) (h : w.link i o = .ok w') :
    w'.skeleton = w.skeleton.rewire i o socket.block plug.block true ∧ w'.types = w.types := by
  simp only [link, bind_eq_ok, getConnection_eq_ok, modifyConnection_eq_ok] at h
  obtain ⟨ci, hi, co, ho, _, -, w1, ⟨ci', hi', rfl⟩, w2, ⟨co', ho', rfl⟩, w3, h3, _, -, h⟩ := h
  cases h
  rw [hi] at hi'
  cases hi'
  rw [getElem?_insert_eq, if_neg hpair.ne.symm, ho] at ho'
  cases ho'
  have hji := joint_of_connection hi
  have hjo := joint_of_connection ho
  obtain rfl := Option.some.inj (hji.symm.trans hpair.socket_eq)
  obtain rfl := Option.some.inj (hjo.symm.trans hpair.plug_eq)
  obtain ⟨hskel, htypes⟩ := skeleton_setParent h3
  refine ⟨hskel.trans ?_, htypes⟩
  rw [skeleton_unregister, skeleton_unregister, skeleton_insertConnection,
    skeleton_insertConnection]
  exact congrArg (Skeleton.reparent · _ _) (Skeleton.wire_eq hji hjo hpair.ne true)

theorem InOrder.link (hw : w.InOrder) (hpair : w.skeleton.Pairing i o socket plug)
    (hcheck : Check.intersects socket.check plug.check = true)
    (hcycle : w.skeleton.ParentOf socket.block plug.block ∨
      ¬ ReflTransGen w.skeleton.ParentOf plug.block socket.block)
    (h : w.link i o = .ok w') : w'.InOrder := by
  obtain ⟨hskel, htypes⟩ := skeleton_link hpair h
  refine ⟨?_, ?_, htypes ▸ hw.sound⟩
  · rw [hskel]
    exact hw.formed.rewire hpair fun _ => hcycle
  · rw [hskel]
    exact Skeleton.checked_rewire hpair (fun _ _ hj ht hj' => hw.checked _ _ _ _ hj ht hj') fun _ =>
      hcheck

/-! ## Unlinking -/

/-- A connection and its target, put in order, are a pairing. -/
theorem pairing_of_target (hw : w.skeleton.Formed) {t : ConnectionId}
    (hc : w.connections[c]? = some connection) (ht : connection.target = some t) :
    ∃ i o socket plug, w.orient c t = .ok (i, o) ∧ w.skeleton.Pairing i o socket plug ∧
    (i = c ∨ o = c) := by
  have hjc := joint_of_connection hc
  obtain ⟨j', hj', hback, hkind, hblock⟩ := hw.wired.target hjc ht
  rw [orient_eq hc]
  by_cases hsup : connection.kind.isSuperior = true
  · rw [if_pos hsup]
    exact ⟨t, c, j', connection.joint, rfl,
      ⟨hj', hjc, hkind, hsup, hblock, Or.inr hback, Or.inr ht⟩, Or.inr rfl⟩
  · rw [if_neg hsup]
    have hsup' : j'.kind.isSuperior = true := by
      rw [hkind, ConnectionKind.isSuperior_opposite]
      simpa [Connection.joint] using hsup
    have hkind' : connection.kind = j'.kind.opposite := by
      rw [hkind, ConnectionKind.opposite_opposite]
      rfl
    exact ⟨c, t, connection.joint, j', rfl,
      ⟨hjc, hj', hkind', hsup', hblock.symm, Or.inr ht, Or.inr hback⟩, Or.inl rfl⟩

/-- Unlinking parts a connection from its target and lets the child stand alone. -/
theorem skeleton_unlink (hw : w.skeleton.Formed) {parent : BlockId}
    (h : w.unlink c announce = .ok ((parent, child), w')) :
    ∃ i o socket plug, w.skeleton.Pairing i o socket plug ∧ (i = c ∨ o = c) ∧
      parent = socket.block ∧ child = plug.block ∧
      w'.skeleton = w.skeleton.rewire i o socket.block plug.block false ∧ w'.types = w.types := by
  simp only [unlink, bind_eq_ok, getConnection_eq_ok] at h
  obtain ⟨connection, hc, h⟩ := h
  split at h
  · cases h
  · rename_i target ht
    obtain ⟨i, o, socket, plug, horient, hpair, hmem⟩ := pairing_of_target hw hc ht
    rw [horient] at h
    simp only [ok_bind, bind_eq_ok, getConnection_eq_ok, modifyConnection_eq_ok] at h
    obtain ⟨ci, hi, co, ho, _, -, w1, ⟨ci', hi', rfl⟩, w2, ⟨co', ho', rfl⟩, w3, h3, h⟩ := h
    rw [hi] at hi'
    cases hi'
    rw [getElem?_insert_eq, if_neg hpair.ne.symm, ho] at ho'
    cases ho'
    have hji := joint_of_connection hi
    have hjo := joint_of_connection ho
    obtain rfl := Option.some.inj (hji.symm.trans hpair.socket_eq)
    obtain rfl := Option.some.inj (hjo.symm.trans hpair.plug_eq)
    obtain ⟨hskel, htypes⟩ := skeleton_setParent h3
    rw [skeleton_register, skeleton_register, skeleton_insertConnection,
      skeleton_insertConnection] at hskel
    have hwire := congrArg (Skeleton.reparent · co.block none)
      (Skeleton.wire_eq hji hjo hpair.ne false)
    have hskel' := hskel.trans hwire
    refine ⟨i, o, _, _, hpair, hmem, ?_⟩
    split at h
    · obtain ⟨_, -, h⟩ := bind_eq_ok.1 h
      cases h
      exact ⟨rfl, rfl, hskel', htypes⟩
    · cases h
      exact ⟨rfl, rfl, hskel', htypes⟩

/-- Unlinking puts in order a workspace that is in order but for the checks of the two
connections. -/
theorem inOrder_unlink (h : w.unlink c announce = .ok (joined, w')) (hformed : w.skeleton.Formed)
    (hsound : w.types.Sound)
    (hchecked : ∀ d t j j', d ≠ c → t ≠ c → w.skeleton.joint d = some j → j.target = some t →
      w.skeleton.joint t = some j' → Check.intersects j.check j'.check = true) : w'.InOrder := by
  obtain ⟨parent, child⟩ := joined
  obtain ⟨i, o, socket, plug, hpair, hmem, -, -, hskel, htypes⟩ := skeleton_unlink hformed h
  refine ⟨?_, ?_, htypes ▸ hsound⟩
  · rw [hskel]
    exact hformed.rewire hpair fun h => Bool.noConfusion h
  · rw [hskel]
    refine Skeleton.checked_rewire hpair (fun hi ho hj ht hj' => ?_) fun h => Bool.noConfusion h
    obtain ⟨hti, hto⟩ := hpair.target_ne hformed.wired hj ht hi ho
    rcases hmem with rfl | rfl
    · exact hchecked _ _ _ _ hi hti hj ht hj'
    · exact hchecked _ _ _ _ ho hto hj ht hj'

theorem InOrder.unlink (hw : w.InOrder) (h : w.unlink c announce = .ok (joined, w')) : w'.InOrder :=
  inOrder_unlink h hw.formed hw.sound fun _ _ _ _ _ _ hj ht hj' => hw.checked _ _ _ _ hj ht hj'

/-- Unlinking changes no kind and no owner. -/
theorem joint_unlink (hw : w.skeleton.Formed) (h : w.unlink c announce = .ok (joined, w'))
    {d : ConnectionId} {j' : Joint} (hj' : w'.skeleton.joint d = some j') :
    ∃ j, w.skeleton.joint d = some j ∧ j'.kind = j.kind ∧ j'.block = j.block := by
  obtain ⟨parent, child⟩ := joined
  obtain ⟨i, o, socket, plug, -, -, -, -, hskel, -⟩ := skeleton_unlink hw h
  rw [hskel] at hj'
  obtain ⟨j, hj, rfl⟩ := Skeleton.joint_wire_eq_some_iff.1 hj'
  exact ⟨j, hj, rfl, rfl⟩

/-! ## Replacing checks -/

namespace InOrder

variable (hw : w.InOrder)
include hw

/-- A check that the target passes. -/
theorem recheck (hc : w.connections[c]? = some connection)
    (h : w.modifyConnection c ({ · with check }) = .ok w')
    (hpass : ∀ t other, connection.target = some t → w'.connections[t]? = some other →
        Check.intersects check other.check = true) : w'.InOrder := by
  obtain ⟨connection', hc', rfl⟩ := modifyConnection_eq_ok.1 h
  cases hc.symm.trans hc'
  have hj := joint_of_connection hc
  have hskel := skeleton_insertConnection w c { connection with check }
  refine ⟨hskel ▸ hw.formed.recheck hj check, hskel ▸ hw.checked.recheck hw.formed.wired hj ?_,
    hw.sound⟩
  intro t j' ht hj'
  obtain ⟨other, hother, rfl⟩ := joint_eq_some_iff.1 hj'
  have hne : t ≠ c := by
    rintro rfl
    exact hw.formed.wired.target_ne_self hj ht
  exact hpass t other ht (by rw [getElem?_insert_eq, if_neg hne, hother])

/-- A replaced check leaves at most one pair that does not pass, and that pair is parted. -/
theorem unlink_recheck (hc : w.connections[c]? = some connection)
    (h : { w with connections := w.connections.insert c { connection with check } }.unlink c
      announce = .ok (joined, w')) :
    { w with connections := w.connections.insert c { connection with check } }.skeleton.Formed ∧
      w'.InOrder := by
  have hskel := skeleton_insertConnection w c { connection with check }
  have hformed := hw.formed.recheck (joint_of_connection hc) check
  refine ⟨hskel ▸ hformed, inOrder_unlink h (hskel ▸ hformed) hw.sound ?_⟩
  rw [hskel]
  exact hw.checked.recheck_of_ne

/-! ## Unplugging -/

theorem parentConnection (h : w.parentConnection? b = .ok (some above)) :
    ∃ c j, w.skeleton.joint c = some j ∧ j.block = b ∧ j.kind.isSuperior = true ∧
    j.target = some above := by
  simp only [parentConnection?, bind_eq_ok, getBlock_eq_ok] at h
  obtain ⟨block, hblock, h⟩ := h
  split at h
  · rename_i c hc
    simp only [bind_eq_ok, getConnection_eq_ok, pure_eq_ok, Except.ok.injEq] at h
    obtain ⟨connection, hconnection, htarget⟩ := h
    obtain ⟨j, hj, hb, hsup⟩ := hw.formed.wired.joint_of_superior (frame_of_block hblock) hc
    rw [joint_of_connection hconnection] at hj
    cases hj
    exact ⟨c, _, joint_of_connection hconnection, hb, hsup, htarget⟩
  · cases h

/-- What taking a block out of its stack consists of: two partings, and a joint if the gate lets it
pass. -/
theorem healing_cases {previous : ConnectionId} (habove : w.parentConnection? b = .ok (some above))
    (h : w.unplugHealing above next previous = .ok w') :
    ∃ joined1 w1 joined2 w2 answer, w.unlink next true = .ok (joined1, w1) ∧
      w1.unlink above true = .ok (joined2, w2) ∧ w2.checkStructure above previous = .ok answer ∧
      (answer ≠ none ∧ w' = w2 ∨ answer = none ∧ w2.orient above previous = .ok (above, previous) ∧
        w2.link above previous = .ok w') := by
  simp only [Workspace.unplugHealing, bind_eq_ok] at h
  obtain ⟨⟨joined1, w1⟩, h1, ⟨joined2, w2⟩, h2, answer, hanswer, h⟩ := h
  refine ⟨joined1, w1, joined2, w2, answer, h1, h2, hanswer, ?_⟩
  split at h
  · obtain ⟨ca, -, hca, -⟩ := checkStructure_eq_none hanswer
    -- the upper connection still is the inferior one of the two
    have hkind : ca.kind.isSuperior = false := by
      obtain ⟨j1, hj1, hk1, -⟩ := joint_unlink (hw.unlink h1).formed h2 (joint_of_connection hca)
      obtain ⟨j0, hj0, hk0, -⟩ := joint_unlink hw.formed h1 hj1
      obtain ⟨c, j, hj, -, hsup, htarget⟩ := hw.parentConnection habove
      rw [show ca.kind = _ from hk1.trans hk0, hw.formed.wired.isSuperior_target hj htarget hj0,
        hsup]
      rfl
    exact .inr ⟨rfl, by rw [orient_eq hca, hkind]; rfl, h⟩
  · cases h
    exact .inl ⟨nofun, rfl⟩

theorem unplugHealing {below : ConnectionId} (habove : w.parentConnection? b = .ok (some above))
    (h : w.unplugHealing above next below = .ok w') : w'.InOrder := by
  obtain ⟨joined1, w1, joined2, w2, answer, h1, h2, hanswer, ⟨-, rfl⟩ | ⟨rfl, horient, h⟩⟩ :=
    hw.healing_cases habove h
  · exact (hw.unlink h1).unlink h2
  · have hw2 := (hw.unlink h1).unlink h2
    obtain ⟨i, o, socket, plug, horient', hpair, hcheck, hcycle⟩ := hw2.linkable hanswer
    cases horient.symm.trans horient'
    exact hw2.link hpair hcheck hcycle h

end InOrder

end BlockGraph.Workspace
