import BlockGraph.Proofs.Workspace.Ownership

/-!
# Joining and separating are local

To join two blocks or to separate them touches the two blocks and their connections
(`Workspace.Rewires`): every other block is as it was, no block comes to be made of something else,
and no variable and no type changes.  `parentOf_link` and `parentOf_unlink` say what happens to the
trees.
-/

namespace BlockGraph.Workspace

open Relation

variable {child parent b : BlockId} {c i o : ConnectionId} {announce : Bool}
  {plug socket : Connection} {A B : BlockId → Prop} {w w' w'' : Workspace}

/-- Blocks in `A` were joined or separated, and nothing else. -/
structure Rewires (A : BlockId → Prop) (w w' : Workspace) : Prop where
  agree : AgreeOff .all A w w'
  innards : KeepsInnards w w'
  vars : w'.vars = w.vars
  types : w'.types = w.types

namespace Rewires

theorem refl (A : BlockId → Prop) (w : Workspace) : Rewires A w w :=
  ⟨.refl _ A w, .refl w, rfl, rfl⟩

theorem trans (h : Rewires A w w') (h' : Rewires A w' w'') : Rewires A w w'' :=
  ⟨h.agree.trans h'.agree, h.innards.trans h'.innards, h'.vars.trans h.vars, h'.types.trans h.types⟩

theorem mono (h : Rewires A w w') (hAB : ∀ b, A b → B b) : Rewires B w w' :=
  ⟨h.agree.mono hAB, h.innards, h.vars, h.types⟩

/-- The registry and the events. -/
theorem register (c : ConnectionId) : Rewires A w (w.register c) :=
  ⟨.of_eq rfl rfl rfl rfl rfl, .of_eq rfl rfl rfl rfl, rfl, rfl⟩

theorem unregister (c : ConnectionId) : Rewires A w (w.unregister c) :=
  ⟨.of_eq rfl rfl rfl rfl rfl, .of_eq rfl rfl rfl rfl, rfl, rfl⟩

theorem fire (event : Event) : Rewires A w (w.fire event) :=
  ⟨.of_eq rfl rfl rfl rfl rfl, .of_eq rfl rfl rfl rfl, rfl, rfl⟩

theorem modifyBlock {f : Block → Block} (h : w.modifyBlock b f = .ok w') (hb : A b)
    (hf : ∀ block, (f block).innards = block.innards) : Rewires A w w' := by
  refine ⟨.modifyBlock h hb, .modifyBlock h fun block _ => hf block, ?_, ?_⟩ <;>
    obtain ⟨block, -, rfl⟩ := modifyBlock_eq_ok.1 h <;> rfl

theorem modifyConnection {f : Connection → Connection} {connection : Connection}
    (h : w.modifyConnection c f = .ok w') (hc : w.connections[c]? = some connection)
    (hA : A connection.block) : Rewires A w w' := by
  refine ⟨.modifyConnection h fun old hold => ?_, .modifyConnection h, ?_, ?_⟩
  · rw [hc] at hold
    cases hold
    exact hA
  all_goals
    obtain ⟨old, -, rfl⟩ := modifyConnection_eq_ok.1 h
    rfl

theorem addTop (hb : A b) : Rewires A w (w.addTop b) := by
  refine ⟨.addTop hb, ?_, ?_, ?_⟩ <;> unfold Workspace.addTop <;> split
  any_goals rfl
  · exact .refl w
  · exact .of_eq rfl rfl rfl rfl

theorem removeTop (hb : A b) : Rewires A w (w.removeTop b) :=
  ⟨.removeTop hb, .of_eq rfl rfl rfl rfl, rfl, rfl⟩

theorem leaveParent (h : w.leaveParent child = .ok w')
    (hp : ∀ p, w.ParentOf p child → A p) : Rewires A w w' := by
  simp only [Workspace.leaveParent, bind_eq_ok, getBlock_eq_ok] at h
  obtain ⟨block, hblock, h⟩ := h
  split at h
  · rename_i old hold
    exact modifyBlock h (hp old ⟨block, hblock, hold⟩) fun _ => rfl
  · cases h
    exact refl A w

theorem joinParent {parent : Option BlockId} (h : w.joinParent child parent = .ok w')
    (hchild : A child) (hparent : ∀ p, parent = some p → A p) : Rewires A w w' := by
  cases parent with
  | some p =>
    simp only [Workspace.joinParent, bind_eq_ok] at h
    obtain ⟨w1, h1, h⟩ := h
    cases h
    exact (modifyBlock h1 (hparent p rfl) fun _ => rfl).trans (removeTop hchild)
  | none =>
    cases h
    exact addTop hchild

theorem setParent {parent : Option BlockId} (h : w.setParent child parent = .ok w')
    (hchild : A child) (hold : ∀ p, w.ParentOf p child → A p) (hnew : ∀ p, parent = some p → A p) :
    Rewires A w w' := by
  simp only [Workspace.setParent, bind_eq_ok] at h
  obtain ⟨_, -, _, -, w1, h1, w2, h2, h3⟩ := h
  exact ((leaveParent h1 hold).trans (modifyBlock h2 hchild fun _ => rfl)).trans
    (joinParent h3 hchild hnew)

/-- What is done to the two connections before the child gets another parent. -/
theorem setTargets {x y : Option ConnectionId} {w1 w2 : Workspace}
    (hi : w.connections[i]? = some socket) (ho : w.connections[o]? = some plug) (hne : o ≠ i)
    (hsocket : A socket.block) (hplug : A plug.block)
    (h1 : w.modifyConnection i ({ · with target := x }) = .ok w1)
    (h2 : w1.modifyConnection o ({ · with target := y }) = .ok w2) :
    Rewires A w w2 ∧ w2.blocks = w.blocks := by
  have hfirst : Rewires A w w1 := modifyConnection h1 hi hsocket
  obtain ⟨_, -, rfl⟩ := modifyConnection_eq_ok.1 h1
  have hsecond : Rewires A _ w2 := modifyConnection h2
    ((getElem?_insert_eq ..).trans ((if_neg hne).trans ho)) hplug
  obtain ⟨_, -, rfl⟩ := modifyConnection_eq_ok.1 h2
  exact ⟨hfirst.trans hsecond, rfl⟩

theorem link (h : w.link i o = .ok w') (hi : w.connections[i]? = some socket)
    (ho : w.connections[o]? = some plug) (hne : o ≠ i) (hsocket : A socket.block)
    (hplug : A plug.block) (hparent : ∀ p, w.ParentOf p plug.block → A p) : Rewires A w w' := by
  simp only [Workspace.link, bind_eq_ok, getConnection_eq_ok] at h
  obtain ⟨ci, hi', co, ho', _, -, w1, h1, w2, h2, w3, h3, _, -, h⟩ := h
  cases h
  rw [hi] at hi'
  rw [ho] at ho'
  cases hi'
  cases ho'
  obtain ⟨htargets, hblocks⟩ := setTargets hi ho hne hsocket hplug h1 h2
  have hset := setParent (A := A) h3 hplug (fun p hp => hparent p (by
      obtain ⟨block, hblock, hpar⟩ := hp
      exact ⟨block, hblocks ▸ hblock, hpar⟩))
    (fun p hp => by cases hp; exact hsocket)
  exact (((htargets.trans (unregister i)).trans (unregister o)).trans hset).trans (fire _)

end Rewires

/-! ## The trees -/

/-- The owner of a superior connection that is joined has the owner of the other as parent. -/
theorem parentOf_of_target (hw : w.skeleton.Formed) (ho : w.connections[o]? = some plug)
    (hsup : plug.kind.isSuperior = true) (ht : plug.target = some i)
    (hi : w.connections[i]? = some socket) :
    w.ParentOf socket.block plug.block := by
  obtain ⟨f, hf, -⟩ := hw.wired.frame_of_joint (joint_of_connection ho)
  obtain ⟨block, hblock, rfl⟩ := frame_eq_some_iff.1 hf
  exact ⟨block, hblock, (hw.parent hf).2 ⟨o, _, i, _, joint_of_connection ho, rfl, hsup, ht,
    joint_of_connection hi, rfl⟩⟩

/-- What an `unlink` has found: the two connections, the one given among them. -/
theorem exists_unlinked (hw : w.skeleton.Formed)
    (h : w.unlink c announce = .ok ((parent, child), w')) :
    ∃ i o socket plug, w.connections[i]? = some socket ∧ w.connections[o]? = some plug ∧
      (i = c ∨ o = c) ∧ socket.block = parent ∧ plug.block = child ∧
      plug.kind.isSuperior = true ∧ plug.target = some i ∧ socket.target = some o ∧
      w'.skeleton = w.skeleton.rewire i o parent child false ∧
      Rewires (fun b => b = parent ∨ b = child) w w' := by
  obtain ⟨i, o, socket, plug, hpair, hmem, rfl, rfl, hskel, -⟩ := skeleton_unlink hw h
  obtain ⟨socket, hi, rfl⟩ := joint_eq_some_iff.1 hpair.socket_eq
  obtain ⟨plug, ho, rfl⟩ := joint_eq_some_iff.1 hpair.plug_eq
  simp only [unlink, bind_eq_ok, getConnection_eq_ok] at h
  obtain ⟨connection, hc, h⟩ := h
  split at h
  · cases h
  · rename_i target ht
    -- the pairing found by its skeleton is the one that the walk has found
    have htargets : plug.target = some i ∧ socket.target = some o ∧ (target = i ∨ target = o) := by
      rcases hmem with rfl | rfl
      · rw [hi] at hc
        cases hc
        have hto : target = o := by
          rcases hpair.socket_target with hn | hn
          · exact absurd (ht.symm.trans hn) (by simp)
          · exact Option.some.inj (ht.symm.trans hn)
        subst hto
        exact ⟨hw.wired.target_back (joint_of_connection hi) ht (joint_of_connection ho), ht,
          Or.inr rfl⟩
      · rw [ho] at hc
        cases hc
        have hto : target = i := by
          rcases hpair.plug_target with hn | hn
          · exact absurd (ht.symm.trans hn) (by simp)
          · exact Option.some.inj (ht.symm.trans hn)
        subst hto
        exact ⟨ht, hw.wired.target_back (joint_of_connection ho) ht (joint_of_connection hi),
          Or.inl rfl⟩
    have horient : w.orient c target = .ok (i, o) := by
      rw [orient_eq hc]
      rcases hmem with rfl | rfl
      · rw [hi] at hc
        cases hc
        rw [if_neg (by rw [show socket.kind.isSuperior = false from hpair.not_isSuperior]; simp)]
        rcases htargets.2.2 with rfl | rfl
        · exact absurd ht (hw.wired.target_ne_self (joint_of_connection hi))
        · rfl
      · rw [ho] at hc
        cases hc
        rw [if_pos (show plug.kind.isSuperior = true from hpair.isSuperior)]
        rcases htargets.2.2 with rfl | rfl
        · rfl
        · exact absurd ht (hw.wired.target_ne_self (joint_of_connection ho))
    refine ⟨i, o, socket, plug, hi, ho, hmem, rfl, rfl, hpair.isSuperior, htargets.1, htargets.2.1,
      hskel, ?_⟩
    rw [horient] at h
    simp only [ok_bind, bind_eq_ok, getConnection_eq_ok] at h
    obtain ⟨ci, hi', co, ho', _, -, w1, h1, w2, h2, w3, h3, h⟩ := h
    rw [hi] at hi'
    rw [ho] at ho'
    cases hi'
    cases ho'
    obtain ⟨hset, hblocks⟩ := Rewires.setTargets (A := fun b => b = socket.block ∨ b = plug.block)
      hi ho hpair.ne.symm (Or.inl rfl) (Or.inr rfl) h1 h2
    have hparent := parentOf_of_target hw ho hpair.isSuperior htargets.1 hi
    have hreparent := Rewires.setParent (A := fun b => b = socket.block ∨ b = plug.block) h3
      (Or.inr rfl) (fun p hp => Or.inl (ParentOf.unique (w := w) (b := plug.block) (by
        obtain ⟨block, hblock, hpar⟩ := hp
        exact ⟨block, hblocks ▸ hblock, hpar⟩) hparent))
      (fun p hp => by cases hp)
    have hdone := ((hset.trans (.register i)).trans (.register o)).trans hreparent
    split at h
    · obtain ⟨_, -, h⟩ := bind_eq_ok.1 h
      cases h
      exact hdone.trans (.fire _)
    · cases h
      exact hdone

theorem parentOf_unlink (hw : w.skeleton.Formed)
    (h : w.unlink c announce = .ok ((parent, child), w')) :
    w.ParentOf parent child ∧ ∀ p b, w'.ParentOf p b ↔ b ≠ child ∧ w.ParentOf p b := by
  obtain ⟨i, o, socket, plug, hi, ho, -, rfl, rfl, hsup, htarget, -, hskel, -⟩ :=
    exists_unlinked hw h
  refine ⟨parentOf_of_target hw ho hsup htarget hi, fun p b => ?_⟩
  obtain ⟨f, hf, -⟩ := hw.wired.frame_of_joint (joint_of_connection ho)
  have hwired : (w.skeleton.wire i o false).frame plug.block = some f := hf
  rw [← parentOf_skeleton, hskel, Skeleton.rewire, Skeleton.parentOf_reparent_iff hwired]
  by_cases hb : b = plug.block
  · simp [hb]
  · rw [if_neg hb, and_iff_right hb]
    exact parentOf_skeleton

theorem parentOf_link (h : w.link i o = .ok w')
    (hpair : w.skeleton.Pairing i o socket.joint plug.joint) (hw : w.skeleton.Formed)
    (p b : BlockId) :
    w'.ParentOf p b ↔ if b = plug.block then p = socket.block else w.ParentOf p b := by
  obtain ⟨f, hf, -⟩ := hw.wired.frame_of_joint hpair.plug_eq
  rw [← parentOf_skeleton, (skeleton_link hpair h).1, Skeleton.rewire,
    Skeleton.parentOf_reparent_iff (s := w.skeleton.wire i o true) hf]
  by_cases hb : b = plug.block
  · simp only [hb, Connection.joint, if_true, Option.some.injEq, eq_comm]
  · rw [if_neg hb, if_neg (show b ≠ plug.joint.block from hb)]
    exact parentOf_skeleton

end BlockGraph.Workspace
