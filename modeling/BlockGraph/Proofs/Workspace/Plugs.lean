import BlockGraph.Proofs.Workspace.Locality

/-!
# What is plugged into what

A block is plugged into at most one connection (`Workspace.Plugs`), and the owner of that connection
is its parent.  Parents alone do not tell into which of the parent's connections a block is plugged.
This file says what making and undoing a joint, and releasing a block, do to that:

* `plugs_link`: the child is plugged into the connection, and all other blocks are where they were;
* `plugs_unlink`, `InOrder.plugs_sever`: the child is plugged into nothing;
* `InOrder.plugs_release`: the block is gone.
-/

namespace BlockGraph.Workspace

open Relation

variable {w w' : Workspace} {x b parent child : BlockId} {c d i o : ConnectionId} {announce : Bool}
  {connection : Connection} {block : Block} {joined : BlockId × BlockId}

/-- A block is plugged into a connection. -/
def Plugs (w : Workspace) (x : BlockId) (c : ConnectionId) : Prop :=
  ∃ t j, w.skeleton.joint t = some j ∧ j.block = x ∧ j.kind.isSuperior = true ∧ j.target = some c

theorem plugs_of_skeleton (h : w'.skeleton = w.skeleton) : w'.Plugs x c ↔ w.Plugs x c := by
  rw [Plugs, h]
  rfl

theorem InOrder.plugs_iff (hw : w.InOrder) :
    w.Plugs x c ↔ w.parentConnection? x = .ok (some c) := by
  constructor
  · rintro ⟨t, j, hj, rfl, hsup, htarget⟩
    obtain ⟨f, hf, hsuperior⟩ := hw.formed.wired.superior_of_joint hj hsup
    obtain ⟨block, hblock, rfl⟩ := frame_eq_some_iff.1 hf
    obtain ⟨connection, hconnection, rfl⟩ := joint_eq_some_iff.1 hj
    have hsuperior : block.superior? = some t := hsuperior
    have htarget : connection.target = some c := htarget
    simp [parentConnection?, getBlock_eq_ok.2 hblock, hsuperior, getConnection_eq_ok.2 hconnection,
      htarget]
  · exact fun h => hw.parentConnection h

theorem Plugs.unique (hw : w.skeleton.Formed) (h : w.Plugs x c) (h' : w.Plugs x d) : c = d := by
  obtain ⟨t, j, hj, rfl, hsup, htarget⟩ := h
  obtain ⟨t', j', hj', heq, hsup', htarget'⟩ := h'
  cases hw.wired.superior_unique hj hj' heq.symm hsup hsup'
  cases hj.symm.trans hj'
  exact Option.some.inj (htarget.symm.trans htarget')

/-- One block at most is plugged into a connection. -/
theorem Plugs.block_unique (hw : w.skeleton.Formed) {y : BlockId} (h : w.Plugs x c)
    (h' : w.Plugs y c) :
    x = y := by
  obtain ⟨t, j, hj, rfl, -, htarget⟩ := h
  obtain ⟨t', j', hj', rfl, -, htarget'⟩ := h'
  obtain ⟨s, hs, hback, -⟩ := hw.wired.target hj htarget
  cases hback.symm.trans (hw.wired.target_back hj' htarget' hs)
  cases hj.symm.trans hj'
  rfl

namespace InOrder

variable (hw : w.InOrder)
include hw

/-- The owner of what a block is plugged into is its parent. -/
theorem parentOf_of_plugs (h : w.Plugs x c) (hc : w.connections[c]? = some connection) :
    w.ParentOf connection.block x := by
  obtain ⟨t, j, hj, rfl, hsup, htarget⟩ := h
  exact parentOf_skeleton.1 (hw.parentOf_of_joined hj hsup htarget (joint_of_connection hc))

theorem connection_of_plugs (h : w.Plugs x c) :
    ∃ connection, w.connections[c]? = some connection ∧ connection.kind.isSuperior = false := by
  obtain ⟨t, j, hj, rfl, hsup, htarget⟩ := h
  obtain ⟨s, hs, -⟩ := hw.formed.wired.target hj htarget
  obtain ⟨connection, hc, rfl⟩ := joint_eq_some_iff.1 hs
  refine ⟨connection, hc, ?_⟩
  have hinferior := hw.formed.wired.isSuperior_target hj htarget hs
  rw [hsup] at hinferior
  exact hinferior

/-- A superior connection that is free belongs to a block that stands alone. -/
theorem mem_top_of_free {plug : Connection} (ho : w.connections[o]? = some plug)
    (hsup : plug.kind.isSuperior = true) (hfree : plug.target = none) : plug.block ∈ w.top := by
  obtain ⟨block, hblock⟩ := hw.block_of_connection ho
  refine (hw.structured.top.2 _).2 ⟨block, hblock, ?_⟩
  cases hparent : block.parent with
  | none => rfl
  | some p =>
    obtain ⟨t, j, s, -, hj, hb, hjsup, htarget, -⟩ :=
      (hw.formed.parent (frame_of_block hblock)).1 (show block.frame.parent = some p from hparent)
    cases hw.formed.wired.superior_unique hj (joint_of_connection ho) hb hjsup hsup
    cases hj.symm.trans (joint_of_connection ho)
    exact absurd (htarget.symm.trans hfree) (by simp)

/-- A block is in the tree of another if the other is joined to one of its connections that point
down. -/
theorem targetBlock?_eq_some_iff (hblock : w.blocks[b]? = some block) (hc : c ∈ block.inferiors) :
    w.targetBlock? c = .ok (some x) ↔ w.Plugs x c := by
  obtain ⟨j, hj, -, hinferior⟩ := (hw.mem_inferiors hblock).1 hc
  obtain ⟨connection, hconnection, rfl⟩ := joint_eq_some_iff.1 hj
  simp only [targetBlock?, getConnection_eq_ok.2 hconnection, ok_bind]
  constructor
  · intro h
    cases htarget : connection.target with
    | none =>
      rw [htarget] at h
      cases h
    | some t =>
      rw [htarget] at h
      obtain ⟨other, hother, h⟩ := bind_eq_ok.1 h
      cases h
      have hother := joint_of_connection (getConnection_eq_ok.1 hother)
      refine ⟨t, other.joint, hother, rfl, ?_, hw.formed.wired.target_back hj htarget hother⟩
      rw [hw.formed.wired.isSuperior_target hj htarget hother, hinferior]
      rfl
  · rintro ⟨t, j, hjoint, rfl, -, hback⟩
    obtain ⟨other, hother, rfl⟩ := joint_eq_some_iff.1 hjoint
    have htarget : connection.target = some t := hw.formed.wired.target_back hjoint hback hj
    rw [htarget]
    simp only [getConnection_eq_ok.2 hother, ok_bind]
    rfl

/-- What is plugged into a connection can be looked up. -/
theorem exists_targetBlock? (hc : w.connections[c]? = some connection) :
    ∃ x, w.targetBlock? c = .ok x := by
  simp only [targetBlock?, getConnection_eq_ok.2 hc, ok_bind]
  cases ht : connection.target with
  | none => exact ⟨none, rfl⟩
  | some t =>
    obtain ⟨other, hother, -⟩ := hw.structured.target hc ht
    exact ⟨some other.block, by simp [getConnection_eq_ok.2 hother]⟩

end InOrder

/-! ## One joint -/

section Wire

variable {socket plug : Joint}

/-- Only the superior connection of a pairing says what its block is plugged into. -/
theorem plugs_rewire (hw : w.skeleton.Formed) (hpair : w.skeleton.Pairing i o socket plug)
    {joined : Bool} (h : w'.skeleton = w.skeleton.rewire i o socket.block plug.block joined) :
    w'.Plugs x c ↔ if x = plug.block then joined = true ∧ c = i else w.Plugs x c := by
  have hjoint : ∀ {t : ConnectionId} {j' : Joint}, w'.skeleton.joint t = some j' ↔
      ∃ j, w.skeleton.joint t = some j ∧
        { j with
          target :=
            if t = i then if joined then some o else none
            else if t = o then if joined then some i else none
            else j.target } = j' := fun {t j'} => by
    rw [h]
    exact Skeleton.joint_wire_eq_some_iff
  have hinferior : socket.kind.isSuperior = false := by
    rw [hpair.opposite, ConnectionKind.isSuperior_opposite, hpair.isSuperior]
    rfl
  constructor
  · rintro ⟨t, j', hj', rfl, hsup, htarget⟩
    obtain ⟨j, hj, rfl⟩ := hjoint.1 hj'
    have hti : t ≠ i := by
      rintro rfl
      cases hj.symm.trans hpair.socket_eq
      exact absurd (hsup.symm.trans hinferior) (by simp)
    by_cases hx : j.block = plug.block
    · cases hw.wired.superior_unique hj hpair.plug_eq hx hsup hpair.isSuperior
      simp only [hti, if_false, if_true] at htarget
      rw [if_pos hx]
      cases joined with
      | false => cases htarget
      | true => exact ⟨rfl, (Option.some.inj htarget).symm⟩
    · have hto : t ≠ o := by
        rintro rfl
        cases hj.symm.trans hpair.plug_eq
        exact hx rfl
      simp only [hti, hto, if_false] at htarget
      rw [if_neg hx]
      exact ⟨t, j, hj, rfl, hsup, htarget⟩
  · split
    · next hx =>
      rintro ⟨rfl, rfl⟩
      refine ⟨o, _, hjoint.2 ⟨plug, hpair.plug_eq, rfl⟩, hx.symm, hpair.isSuperior, ?_⟩
      simp [hpair.ne.symm]
    · next hx =>
      rintro ⟨t, j, hj, rfl, hsup, htarget⟩
      refine ⟨t, _, hjoint.2 ⟨j, hj, rfl⟩, rfl, hsup, ?_⟩
      have hti : t ≠ i := by
        rintro rfl
        cases hj.symm.trans hpair.socket_eq
        exact absurd (hsup.symm.trans hinferior) (by simp)
      have hto : t ≠ o := by
        rintro rfl
        cases hj.symm.trans hpair.plug_eq
        exact hx rfl
      simpa [hti, hto] using htarget

theorem plugs_link (hw : w.skeleton.Formed) (hpair : w.skeleton.Pairing i o socket plug)
    (h : w.link i o = .ok w') : w'.Plugs x c ↔ if x = plug.block then c = i else w.Plugs x c := by
  rw [plugs_rewire hw hpair (skeleton_link hpair h).1]
  simp

end Wire

theorem plugs_unlink (hw : w.skeleton.Formed)
    (h : w.unlink d announce = .ok ((parent, child), w')) : w'.Plugs x c ↔ x ≠ child ∧
    w.Plugs x c := by
  obtain ⟨i, o, socket, plug, hpair, -, -, rfl, hskel, -⟩ := skeleton_unlink hw h
  rw [plugs_rewire hw hpair hskel]
  by_cases hx : x = plug.block
  · simp [hx]
  · simp [hx]

/-- Undoing the joint that a block is plugged in by parts this block. -/
theorem InOrder.eq_of_unlink (hw : w.InOrder) (hb : w.Plugs b d)
    (h : w.unlink d announce = .ok ((parent, child), w')) : child = b := by
  obtain ⟨i, o, socket, plug, hi, ho, hmem, rfl, rfl, hsup, htarget, -⟩ :=
    exists_unlinked hw.formed h
  have hplugs : w.Plugs plug.block i := ⟨o, plug.joint, joint_of_connection ho, rfl, hsup, htarget⟩
  rcases hmem with rfl | rfl
  · exact hplugs.block_unique hw.formed hb
  · obtain ⟨connection, hc, hinferior⟩ := hw.connection_of_plugs hb
    cases ho.symm.trans hc
    cases hsup.symm.trans hinferior

/-- Undoing the joint at the connection that points up from a block parts this block. -/
theorem InOrder.eq_of_unlink_superior (hw : w.InOrder) (hblock : w.blocks[b]? = some block)
    (hd : block.superior? = some d) (h : w.unlink d announce = .ok ((parent, child), w')) :
    child = b := by
  obtain ⟨i, o, socket, plug, hi, ho, hmem, rfl, rfl, hsup, htarget, -⟩ :=
    exists_unlinked hw.formed h
  obtain ⟨j, hj, hjb, hjsup⟩ := hw.formed.wired.joint_of_superior (frame_of_block hblock)
    (show block.frame.superior? = some d from hd)
  rcases hmem with rfl | rfl
  · -- the inferior side of the two is no superior connection
    cases hj.symm.trans (joint_of_connection hi)
    have := hw.formed.wired.isSuperior_target (joint_of_connection ho) htarget
      (joint_of_connection hi)
    rw [show plug.joint.kind.isSuperior = true from hsup] at this
    exact absurd (hjsup.symm.trans this) (by simp)
  · cases hj.symm.trans (joint_of_connection ho)
    exact hjb

theorem InOrder.joint_unlink_eq (hw : w.InOrder) (hb : w.Plugs b d)
    (h : w.unlink d announce = .ok (joined, w')) (t : ConnectionId) :
    w'.skeleton.joint t = (w.skeleton.joint t).map fun j =>
      if t = d ∨ j.block = b ∧ j.kind.isSuperior = true then { j with target := none } else j := by
  obtain ⟨parent, child⟩ := joined
  obtain ⟨i, o, socket, plug, hpair, hmem, -, hchild, hskel, -⟩ := skeleton_unlink hw.formed h
  obtain rfl : plug.block = b := hchild.symm.trans (hw.eq_of_unlink hb h)
  obtain rfl : i = d := hmem.resolve_right fun ho => by
    obtain ⟨connection, hc, hinferior⟩ := hw.connection_of_plugs hb
    cases (ho ▸ hpair.plug_eq).symm.trans (joint_of_connection hc)
    cases hpair.isSuperior.symm.trans hinferior
  have hwire : w'.skeleton.joint t = (w.skeleton.wire i o false).joint t := by rw [hskel]; rfl
  cases hj : w.skeleton.joint t with
  | none => simp [hwire, Skeleton.wire, hj]
  | some j =>
    have hto : t = o ↔ j.block = plug.block ∧ j.kind.isSuperior = true := by
      constructor
      · rintro rfl
        cases hj.symm.trans hpair.plug_eq
        exact ⟨rfl, hpair.isSuperior⟩
      · rintro ⟨hblock, hsup⟩
        exact hw.formed.wired.superior_unique hj hpair.plug_eq hblock hsup hpair.isSuperior
    rw [hwire, Option.map_some]
    refine Skeleton.joint_wire_eq_some_iff.2 ⟨j, hj, ?_⟩
    simp only [← hto, Bool.false_eq_true, if_false]
    by_cases hti : t = i
    · simp [hti]
    · by_cases ho : t = o <;> simp [hti, ho]

/-- No connection is lost when two are parted. -/
theorem exists_connection_unlink (hw : w.skeleton.Formed)
    (h : w.unlink d announce = .ok (joined, w')) (hc : w.connections[c]? = some connection) :
    ∃ connection', w'.connections[c]? = some connection' ∧ connection'.kind = connection.kind ∧
      connection'.block = connection.block := by
  obtain ⟨parent, child⟩ := joined
  obtain ⟨i, o, socket, plug, -, -, -, -, hskel, -⟩ := skeleton_unlink hw h
  obtain ⟨j', hj'⟩ : ∃ j', w'.skeleton.joint c = some j' := by
    rw [hskel]
    exact ⟨_, Skeleton.joint_wire_eq_some_iff.2 ⟨_, joint_of_connection hc, rfl⟩⟩
  obtain ⟨j, hj, hkind, hblock⟩ := joint_unlink hw h hj'
  obtain ⟨connection', hc', rfl⟩ := joint_eq_some_iff.1 hj'
  cases (joint_of_connection hc).symm.trans hj
  exact ⟨connection', hc', hkind, hblock⟩

/-! ## Releasing -/

/-- A block that is severed is plugged into nothing. -/
theorem InOrder.plugs_sever (hw : w.InOrder) (h : w.sever b = .ok w') :
    w'.Plugs x c ↔ x ≠ b ∧ w.Plugs x c := by
  rcases sever_cases h with ⟨hnone, rfl⟩ | ⟨block, s, ⟨parent, child⟩, hblock, hs, hunlink⟩
  · refine ⟨fun hp => ⟨?_, hp⟩, And.right⟩
    rintro rfl
    rw [hw.plugs_iff, hnone] at hp
    cases hp
  · rw [plugs_unlink hw.formed hunlink, hw.eq_of_unlink_superior hblock hs hunlink]

/-- A block that is released is gone, and all others are plugged in where they were. -/
theorem InOrder.plugs_release (hw : w.InOrder) (h : w.release b = .ok w') :
    w'.Plugs x c ↔ x ≠ b ∧ w.Plugs x c := by
  obtain ⟨w1, block, h1, hblock, -, hskel, -⟩ := skeleton_release h
  have hw1 := hw.sever h1
  have hjoint : ∀ t, w'.skeleton.joint t =
      if t ∈ block.frame.connections then none else w1.skeleton.joint t := fun t => by
    rw [hskel]
    rfl
  have hown : ∀ {t : ConnectionId} {j : Joint}, w1.skeleton.joint t = some j →
      (t ∈ block.frame.connections ↔ j.block = b) := fun {t j} hj => by
    rw [hw1.formed.wired.mem_connections (frame_of_block hblock)]
    simp [hj]
  have hplugs := hw.plugs_sever h1 (x := x) (c := c)
  constructor
  · rintro ⟨t, j, hj, rfl, hsup, htarget⟩
    rw [hjoint] at hj
    split at hj
    · cases hj
    · exact hplugs.1 ⟨t, j, hj, rfl, hsup, htarget⟩
  · intro hx
    obtain ⟨t, j, hj, rfl, hsup, htarget⟩ := hplugs.2 hx
    refine ⟨t, j, ?_, rfl, hsup, htarget⟩
    rw [hjoint, if_neg fun hmem => hx.1 ((hown hj).1 hmem)]
    exact hj

theorem InOrder.plugs_releaseAll {l : List BlockId} :
    ∀ {w w' : Workspace}, w.InOrder → l.foldlM Workspace.release w = .ok w' →
      (w'.Plugs x c ↔ x ∉ l ∧ w.Plugs x c) := by
  induction l with
  | nil =>
    intro w w' _ h
    cases h
    simp
  | cons b l ih =>
    intro w w' hw h
    obtain ⟨w1, h1, h⟩ := bind_eq_ok.1 h
    rw [ih (hw.release h1) h, hw.plugs_release h1, List.mem_cons]
    tauto

end BlockGraph.Workspace
