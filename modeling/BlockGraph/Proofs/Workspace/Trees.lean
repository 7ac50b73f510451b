import Mathlib.Data.List.Nodup
import BlockGraph.Proofs.Workspace.Structure

/-!
# Trees

A walk downwards follows the connections of a block: it looks up what is plugged into its inputs and
below it.  `Workspace.Below` is the tree that the parents give instead.  In a workspace in order the
two are the same:

* `InOrder.exists_children`: a block has as children the blocks whose parent it is;
* `InOrder.exists_descendants`: the walk over a whole tree ends, and meets each block of it once.

The bound of the walk is the number of blocks.  It is never what ends it, since each step down
leaves fewer blocks to reach.
-/

namespace BlockGraph.Workspace

open Relation

variable {a b x : BlockId} {w : Workspace} {block : Block}

/-- `b` is `a` or hangs from it. -/
def Below (w : Workspace) (a b : BlockId) : Prop := ReflTransGen w.ParentOf a b

theorem ParentOf.unique {p p' : BlockId} (h : w.ParentOf p b) (h' : w.ParentOf p' b) : p = p' := by
  obtain ⟨block, hblock, hp⟩ := h
  obtain ⟨block', hblock', hp'⟩ := h'
  cases hblock.symm.trans hblock'
  exact Option.some.inj (hp.symm.trans hp')

/-- Of two blocks above a third, one is above the other. -/
theorem Below.total {a' : BlockId} (h : w.Below a b) (h' : w.Below a' b) :
    w.Below a a' ∨ w.Below a' a := by
  induction h with
  | refl => exact Or.inr h'
  | tail hac hcb ih =>
    rcases h'.cases_tail with rfl | ⟨c', hac', hcb'⟩
    · exact Or.inl (hac.tail hcb)
    · cases hcb.unique hcb'
      exact ih hac'

theorem Below.live (ha : w.blocks[a]? = some block)
    (h : w.Below a b) : ∃ block', w.blocks[b]? = some block' := by
  rcases h.cases_tail with rfl | ⟨c, -, block', hblock', -⟩
  · exact ⟨block, ha⟩
  · exact ⟨block', hblock'⟩

/-! ## Upwards -/

/-- What a block is plugged into can be looked up. -/
theorem InOrder.exists_parentConnection? (hw : w.InOrder)
    (hblock : w.blocks[b]? = some block) : ∃ above, w.parentConnection? b = .ok above := by
  rw [parentConnection?, getBlock_eq_ok.2 hblock, ok_bind]
  cases hsuperior : block.superior? with
  | none => exact ⟨none, rfl⟩
  | some c =>
    obtain ⟨plug, hplug, -⟩ :=
      hw.structured.owned hblock (Block.mem_connections_of_superior hsuperior)
    exact ⟨plug.target, by simp [getConnection_eq_ok.2 hplug]⟩

/-- A block that is plugged into nothing has no parent. -/
theorem InOrder.not_parentOf_of_parentConnection (hw : w.InOrder)
    (h : w.parentConnection? b = .ok none) (p : BlockId) : ¬ w.ParentOf p b := by
  rintro ⟨block, hblock, hparent⟩
  obtain ⟨c, connection, t, other, hsup, hc, ht, -⟩ := (hw.structured.parent hblock).1 hparent
  simp [parentConnection?, getBlock_eq_ok.2 hblock, hsup, getConnection_eq_ok.2 hc, ht] at h

/-! ## Children -/

theorem targetBlocks_append (w : Workspace) (cs ds : List ConnectionId) :
    w.targetBlocks (cs ++ ds) = (do return (← w.targetBlocks cs) ++ (← w.targetBlocks ds)) := by
  induction cs with
  | nil =>
    simp only [List.nil_append, targetBlocks, ok_bind]
    cases w.targetBlocks ds <;> rfl
  | cons c cs ih =>
    simp only [List.cons_append, targetBlocks, ih]
    cases w.targetBlock? c with
    | error e => rfl
    | ok child =>
      cases w.targetBlocks cs with
      | error e => rfl
      | ok above => cases w.targetBlocks ds <;> simp

namespace InOrder

section

variable (hw : w.InOrder)
include hw

theorem acyclic : Acyclic w.ParentOf := hw.structured.acyclic

/-- The connections from which children hang are those on the inferior side. -/
theorem mem_inferiors (hblock : w.blocks[b]? = some block) {c : ConnectionId} :
    c ∈ block.inferiors ↔
      ∃ j, w.skeleton.joint c = some j ∧ j.block = b ∧ j.kind.isSuperior = false := by
  have hf := frame_of_block hblock
  constructor
  · intro hc
    have hplace : ∃ k, k.isSuperior = false ∧ (c, k) ∈ block.frame.places := by
      rcases List.mem_append.1 hc with hsocket | hnext
      · obtain ⟨input, hinput, hconnection⟩ := List.mem_filterMap.1 hsocket
        have hslot : input.slot ∈ block.frame.slots := List.mem_map_of_mem hinput
        have hfst := Frame.map_fst_place? (hw.formed.wired.fitted hf _ hslot)
        rw [show input.slot.connection = some c from hconnection] at hfst
        obtain ⟨⟨c', k⟩, hplace, rfl⟩ := Option.map_eq_some_iff.1 hfst
        exact ⟨k, Frame.place?_isSuperior hplace,
          Frame.mem_places.2 (Or.inr (Or.inr (Or.inl ⟨_, hslot, hplace⟩)))⟩
      · exact ⟨.nextStatement, rfl,
          Frame.mem_places.2 (Or.inr (Or.inr (Or.inr ⟨Option.mem_toList.1 hnext, rfl⟩)))⟩
    obtain ⟨k, hk, hplace⟩ := hplace
    obtain ⟨j, hj, hb, rfl⟩ := hw.formed.wired.joint_of_frame hf hplace
    exact ⟨j, hj, hb, hk⟩
  · rintro ⟨j, hj, rfl, hk⟩
    obtain ⟨f, hf', hplace⟩ := hw.formed.wired.frame_of_joint hj
    rw [hf] at hf'
    cases hf'
    rcases Frame.mem_places.1 hplace with ⟨-, h⟩ | ⟨-, h⟩ | ⟨slot, hslot, hplace⟩ | ⟨hnext, -⟩
    · rw [h] at hk
      cases hk
    · rw [h] at hk
      cases hk
    · obtain ⟨input, hinput, rfl⟩ := List.mem_map.1 hslot
      have hfst := Frame.map_fst_place? (hw.formed.wired.fitted hf _ hslot)
      rw [hplace] at hfst
      exact List.mem_append_left _ (List.mem_filterMap.2 ⟨input, hinput, hfst.symm⟩)
    · exact List.mem_append_right _ (Option.mem_toList.2 hnext)

/-- What is plugged into some connections, in their order. -/
theorem exists_targetBlocks {cs : List ConnectionId} (hnodup : cs.Nodup)
    (hcs : ∀ c ∈ cs, ∃ j, w.skeleton.joint c = some j ∧ j.kind.isSuperior = false) :
    ∃ ids, w.targetBlocks cs = .ok ids ∧ ids.Nodup ∧ ∀ x, x ∈ ids ↔
      ∃ c ∈ cs, ∃ t j, w.skeleton.joint t = some j ∧ j.block = x ∧ j.target = some c := by
  induction cs with
  | nil => exact ⟨[], rfl, List.nodup_nil, by simp⟩
  | cons c cs ih =>
    obtain ⟨hc, hnodup⟩ := List.nodup_cons.1 hnodup
    obtain ⟨ids, hids, hdistinct, hmem⟩ := ih hnodup fun d hd => hcs d (List.mem_cons_of_mem _ hd)
    obtain ⟨j, hj, hinferior⟩ := hcs c List.mem_cons_self
    obtain ⟨connection, hconnection, rfl⟩ := joint_eq_some_iff.1 hj
    simp only [targetBlocks, targetBlock?, getConnection_eq_ok.2 hconnection, ok_bind]
    cases ht : connection.target with
    | none =>
      refine ⟨ids, by simp [hids], hdistinct, fun x => (hmem x).trans ?_⟩
      simp only [List.mem_cons, exists_eq_or_imp]
      refine ⟨Or.inr, fun h => h.resolve_left ?_⟩
      rintro ⟨t, j', hj', -, hback⟩
      cases ht.symm.trans (hw.formed.wired.target_back hj' hback hj)
    | some t =>
      obtain ⟨jt, hjt, hback, -⟩ := hw.formed.wired.target hj ht
      obtain ⟨other, hother, rfl⟩ := joint_eq_some_iff.1 hjt
      have hsuperior : ∀ {d t' j'}, d ∈ c :: cs → w.skeleton.joint t' = some j' →
          j'.target = some d → j'.kind.isSuperior = true := by
        intro d t' j' hd hj' hback'
        obtain ⟨jd, hjd, hdinf⟩ := hcs d hd
        simpa [hdinf] using hw.formed.wired.isSuperior_target hj' hback' hjd
      refine ⟨other.block :: ids, by simp [getConnection_eq_ok.2 hother, hids], ?_, fun x => ?_⟩
      · -- the block plugged in here is plugged in nowhere else
        refine List.nodup_cons.2 ⟨fun hin => ?_, hdistinct⟩
        obtain ⟨d, hd, t', j', hj', hblock, hback'⟩ := (hmem _).1 hin
        have ht' : t' = t := hw.formed.wired.superior_unique hj' hjt hblock
          (hsuperior (List.mem_cons_of_mem _ hd) hj' hback')
          (hsuperior List.mem_cons_self hjt hback)
        cases ht'
        cases hjt.symm.trans hj'
        cases hback.symm.trans hback'
        exact hc hd
      · rw [List.mem_cons, hmem x]
        simp only [List.mem_cons, exists_eq_or_imp]
        refine or_congr_left ⟨?_, ?_⟩
        · rintro rfl
          exact ⟨t, _, hjt, rfl, hback⟩
        · rintro ⟨t', j', hj', rfl, hback'⟩
          cases ht.symm.trans (hw.formed.wired.target_back hj' hback' hj)
          cases hjt.symm.trans hj'
          rfl

/-- A block has as children the blocks whose parent it is, each once. -/
theorem exists_children (hblock : w.blocks[b]? = some block) :
    ∃ ids, w.children b = .ok ids ∧ ids.Nodup ∧ ∀ x, x ∈ ids ↔ w.ParentOf b x := by
  have hnodup : block.inferiors.Nodup := by
    refine (hw.nodup_connections hblock).sublist ?_
    rw [Block.connections, List.append_assoc]
    exact List.sublist_append_right _ _
  obtain ⟨ids, hids, hdistinct, hmem⟩ := hw.exists_targetBlocks hnodup fun c hc => by
    obtain ⟨j, hj, -, hk⟩ := (hw.mem_inferiors hblock).1 hc
    exact ⟨j, hj, hk⟩
  refine ⟨ids, by simp [children, getBlock_eq_ok.2 hblock, hids], hdistinct, fun x => ?_⟩
  rw [hmem x, ← parentOf_skeleton]
  constructor
  · rintro ⟨c, hc, t, j, hj, rfl, hback⟩
    obtain ⟨jc, hjc, rfl, hk⟩ := (hw.mem_inferiors hblock).1 hc
    have hsup : j.kind.isSuperior = true := by
      simpa [hk] using hw.formed.wired.isSuperior_target hj hback hjc
    exact hw.parentOf_of_joined hj hsup hback hjc
  · rintro ⟨f, hfx, hparent⟩
    obtain ⟨t, j, c, jc, hj, rfl, hsup, hback, hjc, rfl⟩ := (hw.formed.parent hfx).1 hparent
    refine ⟨c, (hw.mem_inferiors hblock).2 ⟨jc, hjc, rfl, ?_⟩, t, j, hj, rfl, hback⟩
    rw [hw.formed.wired.isSuperior_target hj hback hjc, hsup]
    rfl

/-! ## Whole trees -/

/-- The trees of two children of a block have nothing in common. -/
theorem disjoint_below {y z : BlockId} (hx : w.ParentOf b x) (hy : w.ParentOf b y)
    (hxz : w.Below x z) (hyz : w.Below y z) : x = y := by
  have hup : ∀ {x y : BlockId}, w.ParentOf b x → w.ParentOf b y → w.Below x y → x = y := by
    intro x y hx hy hxy
    rcases hxy.cases_tail with rfl | ⟨c, hxc, hcy⟩
    · rfl
    · cases hy.unique hcy
      exact absurd (TransGen.head' hx hxc) (hw.acyclic b)
  rcases hxz.total hyz with h | h
  · exact hup hx hy h
  · exact (hup hy hx h).symm

/-- Fewer blocks are below a child than below its parent, so a walk down ends. -/
theorem reachCount_lt_of_parentOf (hx : w.ParentOf b x) :
    reachCount w.ParentOf w.liveBlocks x < reachCount w.ParentOf w.liveBlocks b := by
  obtain ⟨child, hchild, -⟩ := id hx
  exact reachCount_lt hw.acyclic hx (mem_liveBlocks.2 ⟨child, hchild⟩)

theorem exists_descendantsWithin (depth : Nat) :
    ∀ {b : BlockId} {block : Block}, w.blocks[b]? = some block →
      reachCount w.ParentOf w.liveBlocks b < depth →
      ∃ ids, w.descendantsWithin depth b = .ok ids ∧ ids.Nodup ∧ (∀ x, x ∈ ids ↔ w.Below b x) ∧
        ids.Pairwise fun x y => ¬ w.ParentOf y x := by
  induction depth with
  | zero =>
    intro b block _ hlt
    exact absurd hlt (Nat.not_lt_zero _)
  | succ depth ih =>
    intro b block hblock hlt
    obtain ⟨children, hchildren, hdistinct, hmem⟩ := hw.exists_children hblock
    have htree : ∀ x, ∃ ids, x ∈ children →
        w.descendantsWithin depth x = .ok ids ∧ ids.Nodup ∧ (∀ y, y ∈ ids ↔ w.Below x y) ∧
          ids.Pairwise fun x y => ¬ w.ParentOf y x := by
      intro x
      by_cases hx : x ∈ children
      · have hparent := (hmem x).1 hx
        obtain ⟨child, hchild, -⟩ := (hmem x).1 hx
        have hfewer := hw.reachCount_lt_of_parentOf hparent
        obtain ⟨ids, h⟩ := ih hchild (by omega)
        exact ⟨ids, fun _ => h⟩
      · exact ⟨[], fun h => absurd h hx⟩
    choose tree htree using htree
    have hbelow : ∀ {x y}, x ∈ children → (y ∈ tree x ↔ w.Below x y) := fun {x y} hx =>
      (htree x hx).2.2.1 y
    refine ⟨b :: children.flatMap tree, ?_, ?_, fun x => ?_, ?_⟩
    · simp only [descendantsWithin, hchildren, ok_bind,
        mapM_eq_ok_map fun x hx => (htree x hx).1, List.flatMap]
      rfl
    · refine List.nodup_cons.2
        ⟨fun hb => ?_, List.nodup_flatMap.2 ⟨fun x hx => (htree x hx).2.1, ?_⟩⟩
      · obtain ⟨x, hx, hbx⟩ := List.mem_flatMap.1 hb
        exact hw.acyclic b (TransGen.head' ((hmem x).1 hx) ((hbelow hx).1 hbx))
      · refine hdistinct.imp_of_mem fun {x y} hx hy hne => ?_
        refine List.disjoint_left.2 fun z hzx hzy => hne ?_
        exact hw.disjoint_below ((hmem x).1 hx) ((hmem y).1 hy) ((hbelow hx).1 hzx)
          ((hbelow hy).1 hzy)
    · rw [List.mem_cons, List.mem_flatMap]
      constructor
      · rintro (rfl | ⟨y, hy, hxy⟩)
        · exact ReflTransGen.refl
        · exact ReflTransGen.head ((hmem y).1 hy) ((hbelow hy).1 hxy)
      · intro hx
        rcases hx.cases_head with rfl | ⟨y, hby, hyx⟩
        · exact Or.inl rfl
        · have hy := (hmem y).2 hby
          exact Or.inr ⟨y, hy, (hbelow hy).2 hyx⟩
    · refine List.pairwise_cons.2 ⟨fun y hy hparent => ?_, List.pairwise_flatMap.2
        ⟨fun x hx => (htree x hx).2.2.2,
          hdistinct.imp_of_mem fun {x y} hx hy hne z hz u hu hparent => ?_⟩⟩
      · obtain ⟨x, hx, hyx⟩ := List.mem_flatMap.1 hy
        exact hw.acyclic b (TransGen.head' ((hmem x).1 hx) (((hbelow hx).1 hyx).tail hparent))
      · exact hne (hw.disjoint_below ((hmem x).1 hx) ((hmem y).1 hy) ((hbelow hx).1 hz)
          (((hbelow hy).1 hu).tail hparent))

end

variable (hw : w.InOrder) (hblock : w.blocks[b]? = some block)
include hw hblock

/-- The bound is never what ends a walk. -/
theorem reachCount_lt_depthBound : reachCount w.ParentOf w.liveBlocks b < w.depthBound := by
  have hlt := reachCount_lt_card hw.acyclic (mem_liveBlocks.2 ⟨block, hblock⟩)
  rw [card_liveBlocks] at hlt
  unfold depthBound
  omega

/-- The walk over a tree ends, meets each block of the tree once, and none before its parent. -/
theorem exists_ordered_descendants :
    ∃ ids, w.descendants b = .ok ids ∧ ids.Nodup ∧ (∀ x, x ∈ ids ↔ w.Below b x) ∧
      ids.Pairwise fun x y => ¬ w.ParentOf y x :=
  hw.exists_descendantsWithin w.depthBound hblock (hw.reachCount_lt_depthBound hblock)

theorem exists_descendants :
    ∃ ids, w.descendants b = .ok ids ∧ ids.Nodup ∧ ∀ x, x ∈ ids ↔ w.Below b x := by
  obtain ⟨ids, hids, hnodup, hmem, -⟩ := hw.exists_ordered_descendants hblock
  exact ⟨ids, hids, hnodup, hmem⟩

end InOrder

end BlockGraph.Workspace
