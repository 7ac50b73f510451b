import BlockGraph.Proofs.Inference.Declaring
import BlockGraph.Proofs.Workspace.Ownership

/-!
# The same tree in two workspaces

`Workspace.Twins r x y`: two workspaces in good order in which the tree of `r` is the same graph.
What one walk over the tree meets in the one, it meets in the other (`Twins.children_eq`,
`Twins.descendants_eq`), whatever else they hold.
-/

namespace BlockGraph

variable {b : BlockId} {c : ConnectionId} {block b' : Block} {name : String} {a : Holder}

open Relation

theorem mapM_congr {ε α β : Type} {F G : α → Except ε β} {l : List α} (h : ∀ a ∈ l, F a = G a) :
    l.mapM F = l.mapM G := by
  induction l with
  | nil => rfl
  | cons a l ih =>
    simp only [List.mapM_cons, h a List.mem_cons_self,
      ih fun b hb => h b (List.mem_cons_of_mem _ hb)]

namespace Block

theorem socket?_of_innards {b : Block} (h : b'.innards = b.innards) (name : String) :
    b'.socket? name = b.socket? name := by
  have hsocket : ∀ b : Block, b.essence.socket? name = b.socket? name := by
    intro b
    simp [socket?, input?, essence, List.find?_map, Function.comp_def, Input.essence,
      Option.bind_map]
  rw [← hsocket b', ← hsocket b]
  simp only [socket?, input?, inputs_of_innards h]

theorem mem_inferiors_of_socket? (h : block.socket? name = some c) : c ∈ block.inferiors := by
  obtain ⟨input, hinput, hc⟩ := Option.bind_eq_some_iff.1 h
  exact List.mem_append_left _ (List.mem_filterMap.2 ⟨input, List.mem_of_find?_eq_some hinput, hc⟩)

theorem holder?_of_innards {b : Block} (h : b'.innards = b.innards) (seat : Seat) :
    b'.holder? seat = b.holder? seat := by
  cases seat with
  | own => rw [holder?, own?_of_innards h, holder?]
  | input name => rw [holder?, socket?_of_innards h, holder?]
  | output => rw [holder?, output_of_innards h, holder?]

theorem grants_of_innards {b : Block} (h : b'.innards = b.innards) : b'.grants = b.grants := by
  rw [grants, kind_of_innards h, itemNames_of_innards h, grants]

theorem given_of_innards {b : Block} (h : b'.innards = b.innards) : b'.Given a ↔ b.Given a := by
  simp only [Given, Grants, grants_of_innards h, holder?_of_innards h]

end Block

namespace Workspace

variable {w w' x x' y y' : Workspace} {r : BlockId}

/-- The tree of `r` is the same graph in both. -/
structure Twins (r : BlockId) (x y : Workspace) : Prop where
  left : x.InOrder
  right : y.InOrder
  owned : x.Owned
  owned' : y.Owned
  same : Same .graph x y r

theorem SameGraph.same (h : SameGraph w w') (hoptions : w'.options = w.options) (r : BlockId) :
    Same .graph w w' r where
  options := hoptions
  below {b} := by rw [h.below_eq]
  block _ := by rw [h.blocks]
  connection {c connection} hc _ := by
    obtain ⟨new, hnew, hblock, hkind, htarget⟩ := h.connection hc
    simp only [hnew, Option.map_some, View.graph, hblock, hkind, htarget]
  var {v found} hv _ := by
    obtain ⟨new, hnew, heq⟩ := h.var hv
    simp only [hnew, Option.map_some, View.graph, heq]

namespace Twins

variable (h : Twins r x y)
include h

theorem retypes (hx : Retypes x x') (hy : Retypes y y') : Twins r x' y' where
  left := h.left.keeps hx.keeps
  right := h.right.keeps hy.keeps
  owned := h.owned.keeps hx.keepsInnards
  owned' := h.owned'.keeps hy.keepsInnards
  same := ((hx.sameGraph.symm.same (by rw [hx.rest]) r).trans h.same).trans
    (hy.sameGraph.same (by rw [hy.rest]) r)

theorem exists_block (hb : x.Below r b) (hblock : x.blocks[b]? = some block) :
    ∃ block', y.blocks[b]? = some block' ∧ block'.innards = block.innards := by
  obtain ⟨block', hblock', heq⟩ := h.same.exists_block hb hblock
  exact ⟨block', hblock', Block.innards_of_essence heq⟩

theorem exists_connection {connection : Connection} (hc : x.connections[c]? = some connection)
    (hb : x.Below r connection.block) :
    ∃ connection', y.connections[c]? = some connection' ∧
      connection'.block = connection.block ∧ connection'.target = connection.target := by
  obtain ⟨connection', hc', heq⟩ := h.same.exists_connection hc hb
  have hblock := congrArg Connection.block heq
  have htarget := congrArg Connection.target heq
  exact ⟨connection', hc', hblock, htarget⟩

/-- The connections of a block of the tree are there on both sides. -/
theorem exists_connections (hb : x.Below r b) (hblock : x.blocks[b]? = some block)
    (hc : c ∈ block.connections) :
    ∃ left right, x.connections[c]? = some left ∧ left.block = b ∧ y.connections[c]? = some right ∧
      right.target = left.target := by
  obtain ⟨left, hleft, rfl⟩ := h.left.structured.owned hblock hc
  obtain ⟨right, hright, -, htarget⟩ := h.exists_connection hleft hb
  exact ⟨left, right, hleft, rfl, hright, htarget⟩

theorem exists_var {v : VariableId} {found : Variable} (hv : x.vars[v]? = some found)
    (hb : x.Below r found.block) :
    ∃ found', y.vars[v]? = some found' ∧ found'.untyped = found.untyped :=
  h.same.exists_var hv hb

/-- What can be given a type can be given one on the other side. -/
theorem assignable (hb : x.Below r b) (hblock : x.blocks[b]? = some block) {seat : Seat}
    (ha : block.holder? seat = some a) (hx : x.Assignable a) : y.Assignable a := by
  cases a with
  | inl c =>
    obtain ⟨-, right, -, -, hright, -⟩ :=
      h.exists_connections hb hblock (Block.mem_connections_of_holder? ha)
    exact ⟨right, hright⟩
  | inr v =>
    obtain ⟨found, hfound, hvalue⟩ := hx
    obtain ⟨found', hfound', rfl, -⟩ := h.owned.var hblock (Block.holder?_eq_inr ha).2
    cases hfound.symm.trans hfound'
    obtain ⟨new, hnew, huntyped⟩ := h.exists_var hfound hb
    exact ⟨new, hnew, (Variable.isReference_of_untyped huntyped).trans hvalue⟩

theorem symm : Twins r y x where
  left := h.right
  right := h.left
  owned := h.owned'
  owned' := h.owned
  same := by
    refine ⟨h.same.options.symm, h.same.below.symm,
      fun hb => (h.same.block (h.same.below.1 hb)).symm, fun {c connection} hc hb => ?_,
      fun {v found} hv hb => ?_⟩
    · -- the block lists the connection on both sides
      have hb := h.same.below.1 hb
      obtain ⟨block', hblock', hcount, -⟩ := h.right.structured.listed hc
      obtain ⟨block, hblock, heq⟩ := exists_of_map_eq (h.same.block hb).symm hblock'
      have hmem : c ∈ block.connections := by
        rw [← Block.connections_of_innards (Block.innards_of_essence heq.symm)]
        exact List.one_le_count_iff.1 hcount.ge
      obtain ⟨old, hold, hblock⟩ := h.left.structured.owned hblock hmem
      have hsame := h.same.connection hold (by rw [hblock]; exact hb)
      rw [hc] at hsame
      rw [hold]
      exact hsame.symm
    · obtain ⟨old, hold, huntyped⟩ := h.same.exists_old_var h.owned h.owned' hv hb
      rw [hold]
      exact congrArg some huntyped.symm

end Twins

/-! ## The same walk -/

namespace Twins

theorem targetBlock?_eq (h : Twins r x y) (hb : x.Below r b) (hblock : x.blocks[b]? = some block)
    (hc : c ∈ block.inferiors) :
    y.targetBlock? c = x.targetBlock? c := by
  obtain ⟨j, hj, rfl, hinferior⟩ := (h.left.mem_inferiors hblock).1 hc
  obtain ⟨left, hleft, rfl⟩ := joint_eq_some_iff.1 hj
  obtain ⟨right, hright, -, htarget⟩ := h.exists_connection hleft hb
  simp only [targetBlock?, getConnection_eq_ok.2 hleft, getConnection_eq_ok.2 hright,
    ok_bind, htarget]
  cases ht : left.target with
  | none => rfl
  | some t =>
    obtain ⟨other, hother, hback, hkind, -⟩ := h.left.structured.target hleft ht
    have hparent := h.left.parentOf_of_joined (joint_of_connection hother) (by
        have := ConnectionKind.isSuperior_opposite left.kind
        rw [← hkind] at this
        exact this.trans (by rw [show left.kind.isSuperior = false from hinferior]; rfl))
      hback hj
    obtain ⟨other', hother', hsame, -⟩ :=
      h.exists_connection hother (hb.tail (parentOf_skeleton.1 hparent))
    simp only [getConnection_eq_ok.2 hother, getConnection_eq_ok.2 hother', ok_bind, hsame]

theorem children_eq (h : Twins r x y) (hb : x.Below r b)
    (hblock : x.blocks[b]? = some block) : y.children b = x.children b := by
  obtain ⟨block', hblock', hinnards⟩ := h.exists_block hb hblock
  have htargets : ∀ cs : List ConnectionId, (∀ c ∈ cs, c ∈ block.inferiors) →
      y.targetBlocks cs = x.targetBlocks cs := by
    intro cs
    induction cs with
    | nil => exact fun _ => rfl
    | cons c cs ih =>
      intro hcs
      simp only [targetBlocks, h.targetBlock?_eq hb hblock (hcs c List.mem_cons_self),
        ih fun d hd => hcs d (List.mem_cons_of_mem _ hd)]
  simp only [children, getBlock_eq_ok.2 hblock, getBlock_eq_ok.2 hblock', ok_bind,
    Block.inferiors_of_innards hinnards]
  exact htargets _ fun _ => id

/-- Both walks go deep enough, whatever bounds them. -/
theorem descendantsWithin_eq (h : Twins r x y) (n : Nat) :
    ∀ {m : Nat} {b : BlockId} {block : Block}, x.Below r b → x.blocks[b]? = some block →
      reachCount x.ParentOf x.liveBlocks b < n → reachCount y.ParentOf y.liveBlocks b < m →
      y.descendantsWithin m b = x.descendantsWithin n b := by
  induction n with
  | zero =>
    intro m b block _ _ hlt
    exact absurd hlt (Nat.not_lt_zero _)
  | succ n ih =>
    intro m b block hb hblock hlt hlt'
    obtain ⟨m, rfl⟩ := Nat.exists_eq_succ_of_ne_zero (Nat.ne_zero_of_lt hlt')
    obtain ⟨ids, hids, -, hmem⟩ := h.left.exists_children hblock
    simp only [descendantsWithin, h.children_eq hb hblock, hids, ok_bind]
    rw [mapM_congr fun child hchild => ?_]
    have hparent := (hmem child).1 hchild
    obtain ⟨childBlock, hchildBlock, -⟩ := hparent
    have hbelow := hb.tail ((hmem child).1 hchild)
    obtain ⟨childBlock', hchildBlock', heq⟩ := h.same.exists_block hbelow hchildBlock
    have hparent' : y.ParentOf b child := by
      obtain ⟨_, hcb, hpar⟩ := (hmem child).1 hchild
      rw [hchildBlock] at hcb
      cases hcb
      have := congrArg Block.parent heq
      exact ⟨childBlock', hchildBlock', this.trans hpar⟩
    have hfewer := reachCount_lt h.left.acyclic ((hmem child).1 hchild)
      (mem_liveBlocks.2 ⟨childBlock, hchildBlock⟩)
    have hfewer' := reachCount_lt h.right.acyclic hparent'
      (mem_liveBlocks.2 ⟨childBlock', hchildBlock'⟩)
    exact ih hbelow hchildBlock (by omega) (by omega)

theorem descendants_eq (h : Twins r x y) (hblock : x.blocks[r]? = some block) :
    y.descendants r = x.descendants r := by
  have hdeep : ∀ {w : Workspace} {block : Block}, w.InOrder → w.blocks[r]? = some block →
      reachCount w.ParentOf w.liveBlocks r < w.depthBound := by
    intro w block hw hblock
    have hlt := reachCount_lt_card hw.acyclic (mem_liveBlocks.2 ⟨block, hblock⟩)
    rw [card_liveBlocks] at hlt
    unfold depthBound
    omega
  obtain ⟨block', hblock', -⟩ := h.exists_block ReflTransGen.refl hblock
  exact h.descendantsWithin_eq _ ReflTransGen.refl hblock (hdeep h.left hblock)
    (hdeep h.right hblock')

end Twins

end Workspace

end BlockGraph
