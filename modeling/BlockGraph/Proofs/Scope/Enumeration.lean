import BlockGraph.Proofs.Ty.Worklist
import BlockGraph.Proofs.Scope.Removal

/-!
# Enumeration

The walk down from a block follows the targets of its connections, the walks up follow parents.
`descendants_agree` says that they agree along every run: a tree is listed block by block, each with
its subtree right behind it and the subtrees in the order of the sockets (`Workspace.Enumerates`);
it lists the blocks that have its root as an ancestor; and every block is listed under one block
that stands alone, which is the one that the walk up ends at.

The walks are recursions with a bound.  The loops that they stand for have none:
`Workspace.descendantsRound` takes the first of the pending blocks and puts its children in its
place, `Workspace.ancestorRound` and `Workspace.rootRound` go from a block to its parent.  In a
workspace in order the loops end, each with what the walk finds.
-/

namespace BlockGraph.Workspace

open Relation Loop

variable {w : Workspace} {b x r : BlockId} {block : Block} {ids : List BlockId} {α : Type}

/-! ## Loops -/

/-- A round of the walk down, on the blocks that are pending, the next one first, and on those
listed, the latest first. -/
def descendantsRound (w : Workspace) :
    List BlockId × List BlockId → (List BlockId × List BlockId) ⊕ Except Fault (List BlockId)
  | ([], listed) => .inr (.ok listed.reverse)
  | (b :: pending, listed) =>
    match w.children b with
    | .ok children => .inl (children ++ pending, b :: listed)
    | .error fault => .inr (.error fault)

/-- A round of a walk up, which stops at the last block with the given answer. -/
def climb {α : Type} (w : Workspace) (answer : α) (b : BlockId) : BlockId ⊕ Except Fault α :=
  match w.getBlock b with
  | .ok block => block.parent.elim (.inr (.ok answer)) .inl
  | .error fault => .inr (.error fault)

def rootRound (w : Workspace) (b : BlockId) : BlockId ⊕ Except Fault BlockId := w.climb b b

def ancestorRound (w : Workspace) (ancestor b : BlockId) : BlockId ⊕ Except Fault Bool :=
  if b = ancestor then .inr (.ok true) else w.climb false b

/-- The loop lists the blocks and goes on with what is pending behind them. -/
def Lists (w : Workspace) (bs ids : List BlockId) : Prop := ∀ pending listed r,
  Ends w.descendantsRound (pending, ids.reverse ++ listed) r →
  Ends w.descendantsRound (bs ++ pending, listed) r

theorem Lists.ends (h : w.Lists [b] ids) : Ends w.descendantsRound ([b], []) (.ok ids) :=
  h [] [] _ (.stop (by simp [descendantsRound]))

theorem lists_flatten {bs : List BlockId} {trees : List (List BlockId)}
    (h : List.Forall₂ (fun b ids => w.Lists [b] ids) bs trees) : w.Lists bs trees.flatten := by
  induction h with
  | nil => exact fun _ _ _ h => h
  | cons hhead _ ih =>
    intro pending listed r h
    refine hhead _ _ _ (ih _ _ _ ?_)
    simpa using h

theorem Lists.cons {children : List BlockId} (h : w.Lists children ids)
    (hchildren : w.children b = .ok children) :
    w.Lists [b] (b :: ids) := by
  intro pending listed r hr
  have hround : w.descendantsRound (b :: pending, listed) = .inl (children ++ pending,
      b :: listed) := by
    simp only [descendantsRound, hchildren]
  exact .next hround (h _ _ _ (by simpa using hr))

theorem climb_of_parentOf {p : BlockId} (h : w.ParentOf p b) (answer : α) :
    w.climb answer b = .inl p := by
  obtain ⟨block, hblock, hparent⟩ := h
  simp [climb, getBlock_eq_ok.2 hblock, hparent]

theorem climb_of_root (hblock : w.blocks[b]? = some block) (hroot : block.parent = none)
    (answer : α) : w.climb answer b = .inr (.ok answer) := by
  simp [climb, getBlock_eq_ok.2 hblock, hroot]

/-- `ids` is the tree of `b`: the block and then the trees of its children in the order of the
sockets, with every subtree in one piece and no block listed twice or before its parent. -/
structure Enumerates (w : Workspace) (b : BlockId) (ids : List BlockId) : Prop where
  nodup : ids.Nodup
  preorder : ∃ block children trees, w.blocks[b]? = some block ∧
    w.targetBlocks block.inferiors = .ok children ∧ children.mapM w.descendants = .ok trees ∧
    ids = b :: trees.flatten
  contiguous : ∀ x ∈ ids, ∃ subtree, w.descendants x = .ok subtree ∧ subtree <:+: ids
  parents : ids.Pairwise fun x y => ¬ w.ParentOf y x

theorem infix_flatten {l : List α} {lists : List (List α)} (h : l ∈ lists) :
    l <:+: lists.flatten := by
  obtain ⟨front, back, rfl⟩ := List.append_of_mem h
  exact ⟨front.flatten, back.flatten, by simp⟩

namespace InOrder

/-- The bound plays no part: the tree of a block is the block with the trees of its children. -/
theorem exists_preorder (hw : w.InOrder) (hblock : w.blocks[b]? = some block) : ∃ children trees,
    w.targetBlocks block.inferiors = .ok children ∧ (∀ x, x ∈ children ↔ w.ParentOf b x) ∧
      children.mapM w.descendants = .ok trees ∧ w.descendants b = .ok (b :: trees.flatten) := by
  obtain ⟨children, hchildren, -, hmem⟩ := hw.exists_children hblock
  have hbound := hw.reachCount_lt_depthBound hblock
  -- one level further down a smaller bound is enough
  have hwithin : children.mapM (w.descendantsWithin w.blockCount) = children.mapM w.descendants :=
    mapM_congr fun x hx => by
      obtain ⟨child, hchild, -⟩ := id ((hmem x).1 hx)
      have hfewer := hw.reachCount_lt_of_parentOf ((hmem x).1 hx)
      unfold depthBound at hbound
      exact hw.descendantsWithin_congr hchild (fun _ _ => rfl) (by omega)
        (hw.reachCount_lt_depthBound hchild)
  obtain ⟨trees, htrees⟩ : ∃ trees, children.mapM w.descendants = .ok trees :=
      exists_mapM_iff.2 fun x hx => by
    obtain ⟨child, hchild, -⟩ := id ((hmem x).1 hx)
    obtain ⟨ids, hids, -⟩ := hw.exists_descendants hchild
    exact ⟨ids, hids⟩
  have hfound : w.targetBlocks block.inferiors = .ok children := by
    rwa [Workspace.children, getBlock_eq_ok.2 hblock, ok_bind] at hchildren
  refine ⟨children, trees, hfound, hmem, htrees, ?_⟩
  rw [descendants, depthBound, descendantsWithin, hchildren, ok_bind, hwithin, htrees]
  rfl

/-- The loop lists the tree of a block as the walk does. -/
theorem lists_of_descendants (hw : w.InOrder) (n : Nat) :
    ∀ {b : BlockId} {block : Block} {ids : List BlockId}, w.blocks[b]? = some block →
      reachCount w.ParentOf w.liveBlocks b < n → w.descendants b = .ok ids → w.Lists [b] ids := by
  induction n with
  | zero => exact fun _ hlt => absurd hlt (Nat.not_lt_zero _)
  | succ n ih =>
    intro b block ids hblock hlt hids
    obtain ⟨children, trees, hchildren, hmem, htrees, hpreorder⟩ := hw.exists_preorder hblock
    cases hids.symm.trans hpreorder
    have hchild : ∀ x ids, w.ParentOf b x ∧ w.descendants x = .ok ids → w.Lists [x] ids := by
      rintro x ids ⟨hx, hids⟩
      obtain ⟨child, hchild, -⟩ := id hx
      have hfewer := hw.reachCount_lt_of_parentOf hx
      exact ih hchild (by omega) hids
    have htrees := (List.forall₂_and_left _ _).2 ⟨fun x hx => (hmem x).1 hx, mapM_eq_ok.1 htrees⟩
    exact (lists_flatten (htrees.imp hchild)).cons
      (by rw [Workspace.children, getBlock_eq_ok.2 hblock, ok_bind, hchildren])

/-- The walk up ends at the block that stands alone. -/
theorem ends_root (hw : w.InOrder) (hr : r ∈ w.top) (h : w.Below r x) :
    Ends w.rootRound x (.ok r) := by
  induction h with
  | refl =>
    obtain ⟨block, hblock, hroot⟩ := (hw.structured.top.2 r).1 hr
    exact .stop (climb_of_root hblock hroot r)
  | tail _ hparent ih => exact .next (climb_of_parentOf hparent _) ih

theorem ends_ancestor_true (h : w.Below b x) : Ends (w.ancestorRound b) x (.ok true) := by
  induction h with
  | refl => exact .stop (if_pos rfl)
  | @tail p x _ hparent ih =>
    by_cases hx : x = b
    · exact .stop (if_pos hx)
    · exact .next ((if_neg hx).trans (climb_of_parentOf hparent false)) ih

variable (hw : w.InOrder)
include hw

theorem ends_ancestor_false (hr : r ∈ w.top) (hrx : w.Below r x) (h : ¬ w.Below b x) :
    Ends (w.ancestorRound b) x (.ok false) := by
  induction hrx with
  | refl =>
    obtain ⟨block, hblock, hroot⟩ := (hw.structured.top.2 r).1 hr
    have hne : r ≠ b := fun heq => h (heq ▸ .refl)
    exact .stop ((if_neg hne).trans (climb_of_root hblock hroot false))
  | @tail p x _ hparent ih =>
    have hne : x ≠ b := fun heq => h (heq ▸ .refl)
    exact .next ((if_neg hne).trans (climb_of_parentOf hparent false))
      (ih fun hp => h (hp.tail hparent))

/-- The walk up says whether it comes by a block. -/
theorem ends_ancestor (hx : w.blocks[x]? = some block) {verdict : Bool}
    (hverdict : verdict = true ↔ w.Below b x) : Ends (w.ancestorRound b) x (.ok verdict) := by
  cases verdict with
  | true => exact ends_ancestor_true (hverdict.1 rfl)
  | false =>
    obtain ⟨r, -, hr, hrx⟩ := hw.exists_root hx
    exact hw.ends_ancestor_false hr hrx fun h => absurd (hverdict.2 h) Bool.false_ne_true

/-- The tree of a block is listed in one piece within the tree of each block above it. -/
theorem exists_infix (hbelow : w.Below b x) (hids : w.descendants b = .ok ids)
    (hblock : w.blocks[b]? = some block) : ∃ subtree, w.descendants x = .ok subtree ∧
    subtree <:+: ids := by
  induction hbelow using ReflTransGen.head_induction_on generalizing ids block with
  | refl => exact ⟨ids, hids, List.infix_rfl⟩
  | head hparent _ ih =>
    obtain ⟨children, trees, -, hmem, htrees, hpreorder⟩ := hw.exists_preorder hblock
    cases hids.symm.trans hpreorder
    obtain ⟨child, hchild, -⟩ := id hparent
    obtain ⟨tree, htree, htree'⟩ :=
      (exists_mem_of_forall₂ (mapM_eq_ok.1 htrees)).1 _ ((hmem _).2 hparent)
    obtain ⟨subtree, hsubtree, hinfix⟩ := ih htree' hchild
    exact ⟨subtree, hsubtree,
      hinfix.trans ((infix_flatten htree).trans (List.suffix_cons _ _).isInfix)⟩

theorem exists_enumerates (hblock : w.blocks[b]? = some block) :
    ∃ ids, w.descendants b = .ok ids ∧ w.Enumerates b ids ∧ ∀ x, x ∈ ids ↔ w.Below b x := by
  obtain ⟨ids, hids, hnodup, hmem, hparents⟩ := hw.exists_ordered_descendants hblock
  obtain ⟨children, trees, hchildren, -, htrees, hpreorder⟩ := hw.exists_preorder hblock
  refine ⟨ids, hids,
    ⟨hnodup, ⟨block, children, trees, hblock, hchildren, htrees, ?_⟩, fun x hx => ?_, hparents⟩,
    hmem⟩
  · exact Except.ok.inj (hids.symm.trans hpreorder)
  · exact hw.exists_infix ((hmem x).1 hx) hids hblock

/-- The trees of the blocks that stand alone hold every block once. -/
theorem exists_partition :
    ∃ trees, w.top.mapM w.descendants = .ok trees ∧ trees.flatten.Perm w.blockIds := by
  have htree : ∀ r, ∃ ids, r ∈ w.top → w.descendants r = .ok ids ∧ ids.Nodup ∧ ∀ x, x ∈ ids ↔
      w.Below r x := by
    intro r
    by_cases hr : r ∈ w.top
    · obtain ⟨block, hblock⟩ := hw.live_of_top hr
      obtain ⟨ids, hids⟩ := hw.exists_descendants hblock
      exact ⟨ids, fun _ => hids⟩
    · exact ⟨[], fun h => absurd h hr⟩
  choose tree htree using htree
  refine ⟨w.top.map tree, mapM_eq_ok_map fun r hr => (htree r hr).1, ?_⟩
  rw [← List.flatMap_def]
  have hmem : ∀ {r x}, r ∈ w.top → (x ∈ tree r ↔ w.Below r x) := fun hr => (htree _ hr).2.2 _
  refine (List.perm_ext_iff_of_nodup (List.nodup_flatMap.2 ⟨fun r hr => (htree r hr).2.1, ?_⟩)
    Std.ExtTreeMap.nodup_keys).2 fun x => ?_
  · refine hw.structured.top.1.imp_of_mem fun {r r'} hr hr' hne =>
      List.disjoint_left.2 fun x hx hx' => hne ?_
    exact hw.root_unique hr hr' ((hmem hr).1 hx) ((hmem hr').1 hx')
  · rw [List.mem_flatMap, ← blockIds, mem_blockIds]
    constructor
    · rintro ⟨r, hr, hx⟩
      obtain ⟨top, htop⟩ := hw.live_of_top hr
      exact ((hmem hr).1 hx).live htop
    · rintro ⟨block, hblock⟩
      obtain ⟨r, -, hr, hbelow⟩ := hw.exists_root hblock
      exact ⟨r, hr, (hmem hr).2 hbelow⟩

end InOrder

/-- **The walks down and up agree along every run.**  The walk down from a block ends and enumerates
its tree, and lists exactly the blocks that the walk up finds to have it as an ancestor.  The walk
up from a block ends at the one block that stands alone and lists it; and the trees of the blocks
that stand alone, put together, are the blocks there are, each once.  Each walk is that of its
loop. -/
theorem descendants_agree (hw : w.Reachable) :
    (∀ {b : BlockId} {block : Block}, w.blocks[b]? = some block → ∃ ids, w.descendants b = .ok ids ∧
      Ends w.descendantsRound ([b], []) (.ok ids) ∧ w.Enumerates b ids ∧
      ∀ {x : BlockId} {found : Block}, w.blocks[x]? = some found →
        ∃ verdict, w.isAncestorOrSelf b x = .ok verdict ∧ Ends (w.ancestorRound b) x (.ok verdict) ∧
        (x ∈ ids ↔ verdict = true)) ∧
      (∀ {x : BlockId} {block : Block}, w.blocks[x]? = some block → ∃ r, w.root x = .ok r ∧
        Ends w.rootRound x (.ok r) ∧ r ∈ w.top ∧
        ∀ r' ∈ w.top, (∃ ids, w.descendants r' = .ok ids ∧ x ∈ ids) ↔ r' = r) ∧
      ∃ trees, w.top.mapM w.descendants = .ok trees ∧ trees.flatten.Perm w.blockIds := by
  have hw := hw.inOrder
  refine ⟨fun {b block} hblock => ?_, fun {x block} hblock => ?_, hw.exists_partition⟩
  · obtain ⟨ids, hids, henumerates, hmem⟩ := hw.exists_enumerates hblock
    have hlists := hw.lists_of_descendants _ hblock (Nat.lt_succ_self _) hids
    refine ⟨ids, hids, hlists.ends, henumerates, fun {x found} hx => ?_⟩
    obtain ⟨verdict, hverdict, hiff⟩ := hw.exists_isAncestorOrSelf b hx
    have hsame : w.skeleton.ParentOf = w.ParentOf := funext₂ fun _ _ => propext parentOf_skeleton
    rw [hsame] at hiff
    exact ⟨verdict, hverdict, hw.ends_ancestor hx hiff, (hmem x).trans hiff.symm⟩
  · obtain ⟨r, hroot, hr, hbelow⟩ := hw.exists_root hblock
    refine ⟨r, hroot, hw.ends_root hr hbelow, hr, fun r' hr' => ?_⟩
    obtain ⟨top, htop⟩ := hw.live_of_top hr'
    obtain ⟨ids, hids, -, hmem⟩ := hw.exists_descendants htop
    constructor
    · rintro ⟨ids', hids', hx⟩
      cases hids.symm.trans hids'
      exact hw.root_unique hr' hr ((hmem x).1 hx) hbelow
    · rintro rfl
      exact ⟨ids, hids, (hmem x).2 hbelow⟩

/-- A list whose items were filled from the last to the first, beside a block that stands alone. -/
theorem descendants_agree_filledList : ∃ w,
    [Call.newBlock .listCreateWith, .setItemCount ⟨1⟩ 2, .newBlock .intLiteral,
      .newBlock .intLiteral, .connect ⟨2⟩ ⟨3⟩, .connect ⟨1⟩ ⟨4⟩, .newBlock .intLiteral].foldlM
        Call.run (Workspace.new {}) = .ok w ∧
      w.descendants ⟨1⟩ = .ok [⟨1⟩, ⟨3⟩, ⟨2⟩] ∧
      Ends w.descendantsRound ([⟨1⟩], []) (.ok [⟨1⟩, ⟨3⟩, ⟨2⟩]) ∧ w.Enumerates ⟨1⟩ [⟨1⟩, ⟨3⟩, ⟨2⟩] ∧
      (∃ verdict, w.isAncestorOrSelf ⟨1⟩ ⟨3⟩ = .ok verdict ∧ verdict = true) ∧
      ∃ trees, w.top.mapM w.descendants = .ok trees ∧ trees.flatten.Perm w.blockIds := by
  obtain ⟨w, hrun, hids, hlive, hlive'⟩ : ∃ w, [Call.newBlock .listCreateWith, .setItemCount ⟨1⟩ 2,
      .newBlock .intLiteral, .newBlock .intLiteral, .connect ⟨2⟩ ⟨3⟩, .connect ⟨1⟩ ⟨4⟩,
      .newBlock .intLiteral].foldlM Call.run (Workspace.new {}) = .ok w ∧
        (w.descendants ⟨1⟩).toOption = some [⟨1⟩, ⟨3⟩, ⟨2⟩] ∧
        w.blocks[(⟨1⟩ : BlockId)]?.isSome = true ∧ w.blocks[(⟨3⟩ : BlockId)]?.isSome = true :=
        exists_ok_of_any (by decide +kernel)
  obtain ⟨block, hblock⟩ := Option.isSome_iff_exists.1 hlive
  obtain ⟨found, hfound⟩ := Option.isSome_iff_exists.1 hlive'
  have hids := toOption_eq_some_iff.1 hids
  obtain ⟨hdown, -, hparted⟩ :=
    descendants_agree ((Reachable.new {}).foldlM (by simp [Call.Permitted]) hrun)
  obtain ⟨ids, hids', hends, henumerates, hagrees⟩ := hdown hblock
  cases hids.symm.trans hids'
  obtain ⟨verdict, hverdict, -, hiff⟩ := hagrees hfound
  exact ⟨w, hrun, hids, hends, henumerates, ⟨verdict, hverdict, hiff.1 (by decide)⟩, hparted⟩

end BlockGraph.Workspace
