import BlockGraph.Proofs.Scope.Holders
import BlockGraph.Proofs.Totality.Gate
import BlockGraph.Proofs.Events.Loading
import BlockGraph.Proofs.Totality.Links
import BlockGraph.Proofs.Upkeep.Bindings
import BlockGraph.Proofs.Upkeep.Refusal
import BlockGraph.Proofs.Upkeep.Slots

/-!
# Parting undoes joining

Two connections are joined, the tree that comes about is brought up to date, then the two are parted
and both trees are brought up to date.  The links and the two passes over types and bindings each
change the workspace, and `Undone` names the four states on the way.  Links are restored because
both connections were free (`Skeleton.rewire_rewire`), bindings because before and after they are
what names denote, and types because inference depends on the trees alone.

`disconnect_undoes_connect` says so after any edits: it makes no difference which of the two is
named, and only the child has gone to the end of the blocks that stand alone.
-/

namespace BlockGraph

open Relation

/-- A block that came under a parent and left it again. -/
theorem Frame.regroup_regroup {f : Frame} {b child parent : BlockId}
    (hroot : b = child → f.parent = none) (hchild : child ∉ f.children) :
    (f.regroup b child none (some parent)).regroup b child (some parent) none = f := by
  refine Frame.ext rfl rfl rfl rfl rfl ?_ ?_
  · simp only [regroup]
    split
    · next hb => rw [hroot hb]
    · rfl
  · have hfilter : f.children.filter (· != child) = f.children :=
      List.filter_eq_self.2 fun x hx => by simpa using ne_of_mem_of_not_mem hx hchild
    by_cases hb : parent = b
    · simp [regroup, hb, hfilter]
    · simp [regroup, hb]

namespace Skeleton

variable {s : Skeleton} {i o : ConnectionId} {socket plug : Joint}

theorem topAfter_topAfter {top : List BlockId} (h : top.Nodup) (parent child : BlockId) :
    topAfter (topAfter top child (some parent)) child none = top.erase child ++ [child] := by
  have herase : (top.reverse.erase child).reverse = top.erase child := by
    rw [(List.nodup_reverse.2 h).erase_eq_filter, h.erase_eq_filter, List.filter_reverse,
      List.reverse_reverse]
  simp only [topAfter, Option.isSome_some, if_true, herase, Option.isSome_none,
    Bool.false_eq_true, if_false]
  rw [if_neg h.not_mem_erase]

/-- The owner of a free superior connection has no parent. -/
theorem Pairing.parent_eq_none (hpair : s.Pairing i o socket plug) (hs : s.Formed)
    (hfree : plug.target = none) {f : Frame} (hf : s.frame plug.block = some f) :
    f.parent = none := by
  refine Option.eq_none_iff_forall_ne_some.2 fun p hp => ?_
  obtain ⟨c, j, t, -, hj, hb, hsup', ht, -⟩ := (hs.parent hf).1 hp
  cases hs.wired.superior_unique hj hpair.plug_eq hb hsup' hpair.isSuperior
  cases hj.symm.trans hpair.plug_eq
  cases hfree.symm.trans ht

/-- To part two connections that were free before they were joined gives the skeleton back, but for
the order on top. -/
theorem rewire_rewire (hs : s.Formed) (hpair : s.Pairing i o socket plug)
    (hsocket : socket.target = none) (hplug : plug.target = none) :
    (s.rewire i o socket.block plug.block true).rewire i o socket.block plug.block false =
      s.setTop (s.top.erase plug.block ++ [plug.block]) := by
  obtain ⟨f, hf, -⟩ := hs.wired.frame_of_joint hpair.plug_eq
  have hroot := hpair.parent_eq_none hs hplug hf
  have hfirst : ((s.wire i o true).frame plug.block).bind Frame.parent = none := by
    rw [show (s.wire i o true).frame plug.block = some f from hf]
    exact hroot
  have hsecond : (((s.rewire i o socket.block plug.block true).wire i o false).frame
      plug.block).bind Frame.parent = some socket.block := by
    have hframe : (s.rewire i o socket.block plug.block true).frame plug.block = _ :=
      frame_reparent_eq_some_iff.2 ⟨f, hf, rfl⟩
    rw [show ((s.rewire i o socket.block plug.block true).wire i o false).frame plug.block =
      _ from hframe]
    simp [Frame.regroup]
  refine Skeleton.ext (funext fun b => ?_) (funext fun c => ?_) (funext fun c => ?_)
    (topAfter_topAfter hs.related.top_nodup socket.block _) rfl
  · have hframe :
        ((s.rewire i o socket.block plug.block true).rewire i o socket.block plug.block false).frame
        b = (s.frame b).map fun g => (g.regroup b plug.block none (some socket.block)).regroup b
        plug.block
          (some socket.block) none := by
      rw [rewire, reparent, hsecond, rewire, reparent, hfirst]
      simp [mapFrames, setTop, wire, Function.comp_def]
    rw [hframe]
    cases hg : s.frame b with
    | none => simp [setTop, hg]
    | some g =>
      rw [Option.map_some, Frame.regroup_regroup]
      · exact hg.symm
      · rintro rfl
        cases hf.symm.trans hg
        exact hroot
      · intro hmem
        obtain ⟨f', hf', hp⟩ := (hs.related.mem_children hg).1 hmem
        cases hf.symm.trans hf'
        cases hroot.symm.trans hp
  · have hjoint :
        ((s.rewire i o socket.block plug.block true).rewire i o socket.block plug.block false).joint
        c = ((s.wire i o true).wire i o false).joint c := rfl
    rw [hjoint]
    by_cases hi : c = i
    · subst hi
      simp [wire, setTop, hpair.socket_eq, ← hsocket]
    · by_cases ho : c = o
      · subst ho
        simp [wire, setTop, hpair.plug_eq, ← hplug, hi]
      · simp [joint_wire_of_ne hi ho, setTop]
  · have hfree :
        ((s.rewire i o socket.block plug.block true).rewire i o socket.block plug.block false).free
        c = ((s.wire i o true).wire i o false).free c := rfl
    rw [hfree]
    by_cases hc : c = i ∨ c = o
    · have hopen : s.free c = true := hs.wired.free.2 (by
        rcases hc with rfl | rfl
        · exact ⟨socket, hpair.socket_eq, hsocket⟩
        · exact ⟨plug, hpair.plug_eq, hplug⟩)
      simp [wire, setTop, hc, hopen]
    · rw [not_or] at hc
      simp [wire, setTop, hc.1, hc.2]

end Skeleton

theorem Block.eq_of_detached {b b' : Block} (h : b'.detached = b.detached)
    (hparent : b'.parent = b.parent) (hchildren : b'.children = b.children) : b' = b := by
  cases b
  cases b'
  simp only [Block.detached, Block.mk.injEq] at h hparent hchildren ⊢
  simp_all

/-- A connection without what it is joined to. -/
def Connection.unjoined (c : Connection) : Connection := { c with target := none }

theorem Connection.eq_of_untyped_of_unjoined {c c' : Connection} (h : c'.untyped = c.untyped)
    (h' : c'.unjoined = c.unjoined) : c' = c := by
  cases c
  cases c'
  simp only [untyped, unjoined, Connection.mk.injEq] at h h' ⊢
  exact ⟨h.1, h.2.1, h.2.2.1, h'.2.2.2.1, h.2.2.2.2.1, h'.2.2.2.2.2⟩

namespace Workspace

variable {w w1 w2 w' w'' y z : Workspace} {Q : Block → Prop} {r : BlockId}
  {a b c i o : ConnectionId} {socket plug : Connection} {u : VariableId}

/-! ## Either end -/

/-- Which of two joined connections is named makes no difference. -/
theorem Joined.unlink_eq (h : w.Joined a b) (hw : w.InOrder) (announce : Bool) :
    w.unlink a announce = w.unlink b announce := by
  obtain ⟨ca, cb, ha, hat, hb, hbt⟩ := h
  obtain ⟨other, hother, -, hkind, -⟩ := hw.structured.target ha hat
  cases hb.symm.trans hother
  have horient : w.orient a b = w.orient b a := by
    rw [orient_eq ha, orient_eq hb, hkind, ConnectionKind.isSuperior_opposite]
    cases ca.kind.isSuperior <;> rfl
  simp only [unlink, getConnection_eq_ok.2 ha, getConnection_eq_ok.2 hb, ok_bind, hat, hbt, horient]

theorem Keeps.joined (h : Keeps w w') (hjoined : w.Joined a b) : w'.Joined a b := by
  obtain ⟨ca, cb, ha, hat, hb, hbt⟩ := hjoined
  obtain ⟨ca', ha', heq⟩ := h.target_eq ha
  obtain ⟨cb', hb', heq'⟩ := h.target_eq hb
  exact ⟨ca', cb', ha', heq.trans hat, hb', heq'.trans hbt⟩

theorem Joined.disconnect_eq (h : w.Joined a b) (hw : w.InOrder) :
    w.disconnect a = w.disconnect b := by
  rw [disconnect, disconnect, h.unlink_eq hw]

/-! ## Types are not touched -/

/-- Connections are what they were, but for what they are joined to. -/
def KeepsUnjoined (w w' : Workspace) : Prop :=
  ∀ d : ConnectionId, w'.connections[d]?.map Connection.unjoined =
    w.connections[d]?.map Connection.unjoined

theorem linkClosed_keepsUnjoined (w : Workspace) : LinkClosed (KeepsUnjoined w) where
  place h hrun _ := by
    obtain ⟨_, -, rfl⟩ := modifyBlock_eq_ok.1 hrun
    exact h
  aim h hrun d := by
    obtain ⟨old, hold, rfl⟩ := modifyConnection_eq_ok.1 hrun
    rw [← h d, getElem?_insert_eq]
    split
    · next hd =>
      rw [hd, hold]
      rfl
    · rfl
  list _ _ h := h
  fire _ _ _ h := h

namespace KeepsUnjoined

theorem exists_joint (h : KeepsUnjoined w w') {old : Connection}
    (hold : w.connections[c]? = some old) :
    ∃ j, w'.skeleton.joint c = some j ∧ j.kind = old.kind := by
  obtain ⟨new, hnew, heq⟩ := exists_of_map_eq (h c) hold
  have hkind := congrArg Connection.kind heq
  exact ⟨new.joint, joint_of_connection hnew, hkind⟩

theorem slotType_eq (h : KeepsUnjoined w w') : w'.slotType c = w.slotType c := by
  have heq := congrArg (Option.bind · Connection.type) (h c)
  simp only [Option.bind_map] at heq
  exact heq

end KeepsUnjoined

/-! ## Joining and parting again -/

/-- The two that are parted are the two that were joined. -/
theorem Grafted.parted (h : Grafted i o socket plug w y) (hkeeps : Keeps y w1)
    {joined : BlockId × BlockId} (hunlink : w1.unlink i true = .ok (joined, z)) :
      joined = (socket.block, plug.block) ∧
      z.skeleton = w.skeleton.setTop (w.top.erase plug.block ++ [plug.block]) := by
  have hskel1 : w1.skeleton = w.skeleton.rewire i o socket.block plug.block true :=
    hkeeps.skeleton_eq.trans h.skeleton_eq
  have hinferior : w1.skeleton.joint i = some { socket.joint with target := some o } :=
    (congrArg (Skeleton.joint · i) hskel1).trans (h.pairing.joint_inferior true)
  have hsuperior : w1.skeleton.joint o = some { plug.joint with target := some i } :=
    (congrArg (Skeleton.joint · o) hskel1).trans (h.pairing.joint_superior true)
  obtain ⟨parent, child⟩ := joined
  obtain ⟨i', o', socket', plug', hi, ho, hmem, rfl, rfl, hsup, -, htarget, hskel, -⟩ :=
    exists_unlinked (h.linked.inOrder.keeps hkeeps).formed hunlink
  rcases hmem with rfl | rfl
  · have hsocket := Option.some.inj ((joint_of_connection hi).symm.trans hinferior)
    obtain rfl : o' = o := Option.some.inj (htarget.symm.trans (congrArg Joint.target hsocket))
    have hplug := Option.some.inj ((joint_of_connection ho).symm.trans hsuperior)
    have hparent : socket'.block = socket.block := congrArg Joint.block hsocket
    have hchild : plug'.block = plug.block := congrArg Joint.block hplug
    refine ⟨by rw [hparent, hchild], ?_⟩
    rw [hskel, hskel1, hparent, hchild]
    exact Skeleton.rewire_rewire h.inOrder.formed h.pairing h.socket_free h.plug_free
  · have hplug := Option.some.inj ((joint_of_connection ho).symm.trans hinferior)
    have hkind : plug'.kind = socket.kind := congrArg Joint.kind hplug
    cases (hkind ▸ hsup).symm.trans h.pairing.not_isSuperior

/-- Every block is made of the same. -/
def KeepsDetached (w w' : Workspace) : Prop :=
  ∀ b : BlockId, w'.blocks[b]?.map Block.detached = w.blocks[b]?.map Block.detached

theorem linkClosed_keepsDetached (w : Workspace) : LinkClosed (KeepsDetached w) where
  place {v v' b f} h hrun hf x := by
    obtain ⟨block, hblock, rfl⟩ := modifyBlock_eq_ok.1 hrun
    rw [← h x, getElem?_insert_eq]
    split
    · next hx => rw [hx, hblock, Option.map_some, Option.map_some, hf]
    · rfl
  aim h hrun := by
    obtain ⟨_, -, rfl⟩ := modifyConnection_eq_ok.1 hrun
    exact h
  list _ _ h := h
  fire _ _ _ h := h

/-- Two free connections were joined and the child was brought up to date; then they were parted and
both trees were brought up to date. -/
structure Undone (i o : ConnectionId) (socket plug : Connection) (w y w1 z w2 : Workspace) :
    Prop where
  grafted : Grafted i o socket plug w y
  link : w.link i o = .ok y
  refreshed : y.refresh [plug.block] = .ok w1
  unlink : w1.unlink i true = .ok ((socket.block, plug.block), z)
  parted : z.refresh [socket.block, plug.block] = .ok w2

namespace Undone

variable (h : Undone i o socket plug w y w1 z w2)
include h

theorem skeleton_eq : w2.skeleton = w.skeleton.setTop (w.top.erase plug.block ++ [plug.block]) :=
  (keeps_refresh h.parted).skeleton_eq.trans
    (h.grafted.parted (keeps_refresh h.refreshed) h.unlink).2

theorem keepsDetached : KeepsDetached w w2 := by
  have hlinked := (linkClosed_keepsDetached w).link (fun _ => rfl) h.link
  have hrefreshed : KeepsDetached w w1 := fun b => by rw [(rest_refresh h.refreshed).2, hlinked b]
  have hunlinked := (linkClosed_keepsDetached w).unlink hrefreshed h.unlink
  exact fun b => by rw [(rest_refresh h.parted).2, hunlinked b]

theorem blocks_eq : w2.blocks = w.blocks := by
  refine Std.ExtTreeMap.ext_getElem? fun x => ?_
  cases hnew : w2.blocks[x]? with
  | none => simpa [hnew, eq_comm] using h.keepsDetached x
  | some new =>
    obtain ⟨old, hold, hdetached⟩ := exists_of_map_eq (h.keepsDetached x).symm hnew
    have hframe : w2.skeleton.frame x = w.skeleton.frame x := by rw [h.skeleton_eq]; rfl
    rw [frame_of_block hnew, frame_of_block hold, Option.some.injEq] at hframe
    rw [hold, Block.eq_of_detached hdetached.symm (congrArg Frame.parent hframe)
      (congrArg Frame.children hframe)]

theorem joint_eq : w2.skeleton.joint = w.skeleton.joint := by
  rw [h.skeleton_eq]
  rfl

theorem connection_eq (c : ConnectionId) :
    w2.connections[c]?.map Connection.untyped = w.connections[c]?.map Connection.untyped := by
  have hjoint : w2.connections[c]?.map Connection.joint = w.connections[c]?.map Connection.joint :=
    congrFun h.joint_eq c
  have huntyped : ∀ x : Connection, x.untyped =
      { block := x.joint.block, kind := x.joint.kind, check := x.joint.check,
        target := x.joint.target } :=
    fun _ => rfl
  have heq := congrArg (Option.map fun j : Joint =>
    ({ block := j.block, kind := j.kind, check := j.check, target := j.target } : Connection))
      hjoint
  simpa only [Option.map_map, Function.comp_def, ← huntyped] using heq

theorem keepsBare : KeepsBare w w2 := by
  have hw1 := h.grafted.linked.inOrder.keeps (keeps_refresh h.refreshed)
  have hrebound := h.grafted.linked.inOrder.rebound_refresh h.refreshed
  have hrebound' := (hw1.unlink h.unlink).rebound_refresh h.parted
  have hvars : y.vars = w.vars := h.grafted.linked.rewires.vars
  have hvars' : z.vars = w1.vars := (hw1.unlinked h.unlink).rewires.vars
  intro v
  rw [hrebound'.bare v, hvars', hrebound.bare v, hvars]

theorem keepsUnjoined : KeepsUnjoined w y := (linkClosed_keepsUnjoined w).link (fun _ => rfl) h.link

theorem keepsUnjoined' : KeepsUnjoined w1 z :=
  (linkClosed_keepsUnjoined w1).unlink (fun _ => rfl) h.unlink

theorem options_eq : w2.options = w.options := by
  have hw1 := h.grafted.linked.inOrder.keeps (keeps_refresh h.refreshed)
  rw [(rest_refresh h.parted).1, (hw1.unlinked h.unlink).rewires.agree.options,
    (rest_refresh h.refreshed).1, h.grafted.linked.rewires.agree.options]

/-- Without types nothing but the graph is at stake. -/
theorem eq_of_untyped (huntyped : w.isTyped = false) :
    w2.connections = w.connections ∧ w2.vars = w.vars ∧ w2.types = w.types := by
  have hlinked := h.grafted.linked.rewires
  have hy : y.isTyped = false := (isTyped_congr hlinked.agree.options).trans huntyped
  obtain rfl : w1 = y := refresh_of_untyped hy h.refreshed
  have hunlinked := (h.grafted.linked.inOrder.unlinked h.unlink).rewires
  have hz : z.isTyped = false := (isTyped_congr hunlinked.agree.options).trans hy
  obtain rfl : w2 = z := refresh_of_untyped hz h.parted
  refine ⟨Std.ExtTreeMap.ext_getElem? fun c => ?_, hunlinked.vars.trans hlinked.vars,
    hunlinked.types.trans hlinked.types⟩
  have huntyped := h.connection_eq c
  have hunjoined := (h.keepsUnjoined' c).trans (h.keepsUnjoined c)
  cases hnew : w2.connections[c]? with
  | none =>
    rw [hnew] at huntyped
    exact (Option.map_eq_none_iff.1 huntyped.symm).symm
  | some new =>
    rw [hnew] at huntyped hunjoined
    obtain ⟨old, hold, heq⟩ := Option.map_eq_some_iff.1 huntyped.symm
    rw [hold, Option.map_some, Option.map_some, Option.some.injEq] at hunjoined
    rw [hold, Connection.eq_of_untyped_of_unjoined heq.symm hunjoined]

end Undone

/-! ## What is restored -/

/-- All types and errors are the same but for the numbers of type variables. -/
structure RenamedTypes (π : Equiv.Perm Nat) (w w' : Workspace) : Prop where
  slot : ∀ c : ConnectionId, w'.typeOf? c = (w.typeOf? c).map (Option.map (Ty.rename π)) ∧
    w'.slotError c = (w.slotError c).map (TypeError.rename π)
  binder : ∀ v : VariableId, w'.binderType? v = (w.binderType? v).map (Option.map (Ty.rename π))

/-- A use has no type of its own. -/
theorem binderType?_of_isReference {use : Variable} (hu : w.vars[u]? = some use)
    (href : use.isReference = true) : w.binderType? u = .ok none := by
  obtain ⟨name, block, type | target⟩ := use
  · cases href
  · rw [binderType?_eq_resolve? hu, boundType, hu]
    rfl

namespace Undone

variable (h : Undone i o socket plug w y w1 z w2) (hu : Upheld Q True w) (hu' : Upheld Q True w2)
include h hu hu'

theorem var_eq (v : VariableId) :
    w2.vars[v]?.map Variable.untyped = w.vars[v]?.map Variable.untyped := by
  by_cases htyped : w.isTyped = true
  · exact hu.untyped_eq hu' htyped h.options_eq h.blocks_eq h.joint_eq h.keepsBare v
  · rw [(h.eq_of_untyped (by simpa using htyped)).2.1]

theorem isSome_slotType_eq (hQ : Serviceable Q)
    (htyped : w.isTyped = true) (c : ConnectionId) :
    (w2.slotType c).isSome = (w.slotType c).isSome := by
  have hlinked := h.grafted.linked
  have hy : Standing Q y := hlinked.rewires.standing hQ.toSteady hu.standing hlinked.inOrder
  have hplain := KeepsPlain.refresh hQ.laid hy h.refreshed
  have hunlinked := hplain.standing.inOrder.unlinked h.unlink
  have hplain' := KeepsPlain.refresh hQ.laid
    (hunlinked.rewires.standing hQ.toSteady hplain.standing hunlinked.inOrder) h.parted
  refine hu.isSome_slotType_eq hQ.laid hu' htyped h.options_eq h.joint_eq fun old hold hvalue => ?_
  obtain ⟨j, hj, hkind⟩ := h.keepsUnjoined.exists_joint hold
  have hj1 : w1.skeleton.joint c = some j := by rw [hplain.skeleton, hj]
  obtain ⟨one, hone, rfl⟩ := Option.map_eq_some_iff.1 hj1
  obtain ⟨j', hj', hkind'⟩ := h.keepsUnjoined'.exists_joint hone
  have hplainOne : one.kind.isValue = false := hvalue ▸ congrArg ConnectionKind.isValue hkind
  rw [hplain'.plain hj' (hkind' ▸ hplainOne), h.keepsUnjoined'.slotType_eq,
    hplain.plain hj hplainOne, h.keepsUnjoined.slotType_eq]

/-- Every tree is the same, as far as types go. -/
theorem samePlan (hQ : Serviceable Q)
    (htyped : w.isTyped = true) (r : BlockId) : SamePlan w w2 r := by
  have hconnection : ∀ x : Connection, View.graph.connection x = View.graph.connection x.untyped :=
    fun _ => rfl
  refine ⟨⟨h.options_eq, ?_, fun _ => by rw [h.blocks_eq], fun {c old} hold _ => ?_,
    fun {v old} hold _ => ?_⟩, fun c _ => (h.isSome_slotType_eq hu hu' hQ htyped c).symm⟩
  · have hparent : w2.ParentOf = w.ParentOf := by
      unfold ParentOf
      rw [h.blocks_eq]
    intro b
    rw [Below, Below, hparent]
  · obtain ⟨new, hnew, heq⟩ := exists_of_map_eq (h.connection_eq c) hold
    rw [hnew, Option.map_some, hconnection, heq, ← hconnection]
  · have heq := h.var_eq hu hu' v
    rw [hold] at heq
    exact heq

theorem exists_renamedTypes (hQ : Serviceable Q) :
    ∃ π : Equiv.Perm Nat, RenamedTypes π w w2 := by
  by_cases htyped : w.isTyped = true
  · have hw := hu.standing.inOrder
    have htyped2 : w2.isTyped = true := (isTyped_congr h.options_eq).trans htyped
    obtain ⟨π, hπ⟩ := hu.exists_agreeUpTo hu' htyped htyped2
    have hagree : ∀ r ∈ w.top, AgreeUpTo π r w w2 := fun r hr =>
      hπ r hr (h.samePlan hu hu' hQ htyped r)
    refine ⟨π, fun c => hw.renamed hagree (h.connection_eq c), fun v => ?_⟩
    cases hold : w.vars[v]? with
    | some old =>
      by_cases href : old.isReference = true
      · obtain ⟨new, hnew, -, -, href'⟩ := h.keepsBare.symm.exists_var hold
        rw [binderType?_of_isReference hold href,
          binderType?_of_isReference hnew (href'.symm.trans href)]
        rfl
      · obtain ⟨block, hblock, hbinder, hown⟩ := hu.standing.owned.binder hold (by simpa using href)
        obtain ⟨r, -, hr, hbelow⟩ := hw.exists_root hblock
        obtain ⟨ty, hty, hty'⟩ := (hagree r hr).binder v
          ⟨_, block, hbelow, hblock, hbinder, (ownVariable_eq_ok hblock).2 hown⟩
        rw [hty, hty']
        rfl
    | none =>
      have hnone := h.keepsBare v
      rw [hold] at hnone
      simp only [binderType?, variableType?, getVariable, hold, Option.map_eq_none_iff.1 hnone]
      rfl
  · obtain ⟨hconnections, hvars, htypes⟩ := h.eq_of_untyped (by simpa using htyped)
    refine ⟨.refl Nat, fun c => renamed_refl (by rw [hconnections]) htypes, fun v => ?_⟩
    have hty : Ty.rename (Equiv.refl Nat) = id := funext Ty.rename_id
    rw [hty, Option.map_id, Except.map_id]
    simp only [binderType?, variableType?, getVariable, hvars, htypes, id_eq]

end Undone

theorem exists_connection_of_connect (h : w.connect a b = .ok (none, w1)) :
    ∃ ca, w.connections[a]? = some ca := by
  simp only [connect, bind_eq_ok] at h
  obtain ⟨answer, -, h⟩ := h
  split at h
  · cases h
  · obtain ⟨ca, hca, -⟩ := bind_eq_ok.1 h
    exact ⟨ca, getConnection_eq_ok.1 hca⟩

/-- Connections that have just been joined can be parted, from either side. -/
theorem exists_undone (hQ : Serviceable Q)
    (hu : Upheld Q True w) (hapart : ¬ w.Joined a b) (h : w.connect a b = .ok (none, w1)) :
    ∃ i o socket plug y z w2, w.orient a b = .ok (i, o) ∧ w1.disconnect a = .ok w2 ∧
      w1.disconnect b = .ok w2 ∧ Undone i o socket plug w y w1 z w2 := by
  have hw := hu.standing.inOrder
  have hu1 := hu.connect hQ.toSteady h
  obtain ⟨ca, hca⟩ := exists_connection_of_connect h
  obtain ⟨i, o, socket, plug, y, -, horient, hlink, hgrafted, hrefresh⟩ :=
    exists_link_of_connect hw hca (mt (hw.joined_iff hca).2 hapart) h
  have hjoined : w1.Joined i o :=
    (keeps_refresh hrefresh).joined (joined_of_link hgrafted.pairing hlink)
  have hw1 := hu1.standing.inOrder
  obtain ⟨ci, co, hci, hti, -⟩ := id hjoined
  obtain ⟨w2, hdisconnect⟩ := hQ.exists_disconnect hu1 hci hti
  obtain ⟨⟨joined, z⟩, hunlink, hparted⟩ := bind_eq_ok.1 hdisconnect
  obtain ⟨rfl, -⟩ := hgrafted.parted (keeps_refresh hrefresh) hunlink
  have hother : w1.disconnect o = .ok w2 := (hjoined.disconnect_eq hw1).symm.trans hdisconnect
  refine ⟨i, o, socket, plug, y, z, w2, horient, ?_, ?_, hgrafted, hlink, hrefresh,
    hunlink, hparted⟩
  · rw [orient_eq hca] at horient
    split at horient <;> cases horient <;> assumption
  · rw [orient_eq hca] at horient
    split at horient <;> cases horient <;> assumption

/-- **Parting undoes joining.**  Where a call of `connect` has joined two connections, parting them
from either side ends, in one and the same state: the one before, but that the child is now the last
of the blocks that stand alone, and that type variables may have other numbers. -/
theorem disconnect_undoes_connect (hw : w.ReachableBy Call.IsEdit) (hapart : ¬ w.Joined a b)
    (h : w.connect a b = .ok (none, w1)) :
    ∃ i o plug w2, w.orient a b = .ok (i, o) ∧ w.connections[o]? = some plug ∧
      w1.disconnect a = .ok w2 ∧ w1.disconnect b = .ok w2 ∧
      Restored { w with top := w.top.erase plug.block ++ [plug.block] } w2 ∧
      ∃ π : Equiv.Perm Nat, RenamedTypes π w w2 := by
  have hu : Upheld Block.Regular True w := hw.upheld Block.steady_regular
  obtain ⟨i, o, socket, plug, y, z, w2, horient, ha, hb, hundone⟩ :=
    exists_undone serviceable_regular hu hapart h
  have hu2 := (hu.connect Block.steady_regular h).disconnect Block.steady_regular ha
  obtain ⟨π, hπ⟩ := hundone.exists_renamedTypes hu hu2 serviceable_regular
  refine ⟨i, o, plug, w2, horient, hundone.grafted.plug_eq, ha, hb, ?_, π, hπ⟩
  have hw0 := hu.standing.inOrder
  obtain ⟨events, hevents, -⟩ :=
    ((inputClosed_tells w).disconnect ((inputClosed_tells w).connect (.refl hw0) h) ha).told
  exact ⟨hundone.blocks_eq, congrArg Skeleton.top hundone.skeleton_eq, hundone.connection_eq,
    hw0.free_eq hu2.standing.inOrder hundone.connection_eq, hundone.var_eq hu hu2,
    by rw [hevents, depth_foldl_fire], π, hπ.slot⟩

/-- A use that stands before a function. -/
def useBeforeFunction : Except Fault Workspace :=
  [Call.newBlock .variablesGet, .newBlock .lambda].foldlM Call.run (Workspace.new {})

theorem disconnect_undoes_connect_useBeforeFunction :
    ∃ w w1 i o plug w2, useBeforeFunction = .ok w ∧ w.top = [⟨1⟩, ⟨2⟩] ∧
      w.connect ⟨0⟩ ⟨2⟩ = .ok (none, w1) ∧ w1.top = [⟨2⟩] ∧ w.orient ⟨0⟩ ⟨2⟩ = .ok (i, o) ∧
      w.connections[o]? = some plug ∧ w1.disconnect ⟨0⟩ = .ok w2 ∧ w1.disconnect ⟨2⟩ = .ok w2 ∧
      Restored { w with top := w.top.erase plug.block ++ [plug.block] } w2 ∧
      ∃ π : Equiv.Perm Nat, RenamedTypes π w w2 := by
  obtain ⟨w, hrun, htop, hfree, hany⟩ : ∃ w, useBeforeFunction = .ok w ∧ w.top = [⟨1⟩, ⟨2⟩] ∧
      w.connections[(⟨0⟩ : ConnectionId)]?.bind Connection.target = none ∧
      (w.connect ⟨0⟩ ⟨2⟩).toOption.any (fun p => decide (p.1 = none ∧ p.2.top = [⟨2⟩])) = true :=
    exists_ok_of_any (by decide +kernel)
  obtain ⟨⟨answer, w1⟩, hconnect, rfl, htop1⟩ := exists_ok_of_any hany
  have hapart : ¬ w.Joined ⟨0⟩ ⟨2⟩ := by
    rintro ⟨ca, cb, hca, htarget, -⟩
    rw [hca, Option.bind_some, htarget] at hfree
    cases hfree
  obtain ⟨i, o, plug, w2, h⟩ := disconnect_undoes_connect
    ((ReachableBy.new {}).foldlM (by simp [Call.IsEdit]) hrun) hapart hconnect
  exact ⟨w, w1, i, o, plug, w2, hrun, htop, hconnect, htop1, h⟩

end Workspace

end BlockGraph
