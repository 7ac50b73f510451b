import BlockGraph.Workspace.Consistency
import BlockGraph.Proofs.Workspace.Runs

/-!
# The structure of a workspace

A workspace says what is plugged into what several times over: in the targets of its connections, in
the registry of free connections, in the slots of its blocks, in their parents and children, and in
the list of blocks that stand alone.  `Workspace.Structured` says, lookup by lookup, that all of it
agrees and that no block stands above itself.

`structured_of_reachable` is the main statement: along every run a workspace is structured, and its
own report of contradictions is empty.
-/

namespace BlockGraph

/-- A connection stands in the slot that a block has for its kind. -/
def Block.Holds (block : Block) (c : ConnectionId) : ConnectionKind → Prop
  | .output => block.output = some c
  | .previousStatement => block.previous = some c
  | .inputValue => ∃ input ∈ block.inputs, input.kind = .value ∧ input.connection = some c
  | .nextStatement => block.next = some c ∨
      ∃ input ∈ block.inputs, input.kind = .statement ∧ input.connection = some c

theorem Block.holds_of_mem_places {block : Block} {c : ConnectionId} {k : ConnectionKind}
    (h : (c, k) ∈ block.frame.places) : block.Holds c k := by
  rcases Frame.mem_places.1 h with ⟨hout, rfl⟩ | ⟨hprev, rfl⟩ | ⟨x, hx, h⟩ | ⟨hnext, rfl⟩
  · exact hout
  · exact hprev
  · obtain ⟨input, hinput, rfl⟩ := List.mem_map.1 hx
    simp only [Slot.place?, Input.slot] at h
    split at h
    · rename_i hkind
      obtain ⟨d, hd, heq⟩ := Option.map_eq_some_iff.1 h
      cases heq
      exact ⟨input, hinput, hkind, hd⟩
    · rename_i hkind
      obtain ⟨d, hd, heq⟩ := Option.map_eq_some_iff.1 h
      cases heq
      exact Or.inr ⟨input, hinput, hkind, hd⟩
    · cases h
  · exact Or.inl hnext

theorem Block.mem_connections_of_superior {block : Block} {c : ConnectionId}
    (h : block.superior? = some c) : c ∈ block.connections := by
  rcases Option.or_eq_some_iff.1 h with h | ⟨-, h⟩ <;> simp [Block.connections, h]

namespace Workspace

/-- `p` is the parent of the live block `b`. -/
def ParentOf (w : Workspace) (p b : BlockId) : Prop :=
  ∃ block, w.blocks[b]? = some block ∧ block.parent = some p

/-- All that a workspace says about its trees agrees. -/
structure Structured (w : Workspace) : Prop where
  /-- Targets are symmetric and join connections of opposite kinds, of two live blocks, that pass
  each other's checks. -/
  target : ∀ {c t : ConnectionId} {connection : Connection},
    w.connections[c]? = some connection → connection.target = some t →
    ∃ other, w.connections[t]? = some other ∧ other.target = some c ∧
      other.kind = connection.kind.opposite ∧ other.block ≠ connection.block ∧
      w.containsBlock connection.block = true ∧ w.containsBlock other.block = true ∧
      Check.intersects connection.check other.check = true
  /-- The registry holds the connections that are joined to nothing. -/
  free : ∀ {c : ConnectionId}, w.free.contains c = true ↔
    ∃ connection, w.connections[c]? = some connection ∧ connection.target = none
  /-- A connection is listed once by the block it names, in the slot of its kind. -/
  listed : ∀ {c : ConnectionId} {connection : Connection}, w.connections[c]? = some connection →
    ∃ block, w.blocks[connection.block]? = some block ∧ block.connections.count c = 1 ∧
      block.Holds c connection.kind
  /-- A block lists only connections that name it. -/
  owned : ∀ {b : BlockId} {block : Block} {c : ConnectionId}, w.blocks[b]? = some block →
    c ∈ block.connections → ∃ connection, w.connections[c]? = some connection ∧ connection.block = b
  /-- The parent of a block owns the target of its superior connection. -/
  parent : ∀ {b p : BlockId} {block : Block}, w.blocks[b]? = some block →
    (block.parent = some p ↔ ∃ c connection t other, block.superior? = some c ∧
      w.connections[c]? = some connection ∧ connection.target = some t ∧
      w.connections[t]? = some other ∧ other.block = p)
  /-- A block lists each of its children once. -/
  children : ∀ {p : BlockId} {above : Block}, w.blocks[p]? = some above → above.children.Nodup ∧
    ∀ b, b ∈ above.children ↔ w.ParentOf p b
  /-- The blocks without a parent are listed once as those that stand alone. -/
  top : w.top.Nodup ∧ ∀ b, b ∈ w.top ↔ ∃ block, w.blocks[b]? = some block ∧ block.parent = none
  /-- No block stands above itself. -/
  acyclic : Acyclic w.ParentOf

variable {w : Workspace} {block : Block} {b : BlockId} {c : ConnectionId}

theorem parentOf_skeleton {p : BlockId} : w.skeleton.ParentOf p b ↔ w.ParentOf p b := by
  constructor
  · rintro ⟨f, hf, hp⟩
    obtain ⟨block, hblock, rfl⟩ := frame_eq_some_iff.1 hf
    exact ⟨block, hblock, hp⟩
  · rintro ⟨block, hblock, hp⟩
    exact ⟨_, frame_of_block hblock, hp⟩

theorem InOrder.nodup_connections (hw : w.InOrder)
    (hblock : w.blocks[b]? = some block) : block.connections.Nodup := by
  have hf := frame_of_block hblock
  have hnodup := hw.formed.wired.nodup hf
  rwa [Frame.map_fst_places (hw.formed.wired.fitted hf), Block.connections_frame] at hnodup

/-- The connection of an input is not the one below. -/
theorem InOrder.next_ne_of_mem_sockets (hw : w.InOrder) (hblock : w.blocks[b]? = some block)
    (hc : c ∈ block.sockets) : block.next ≠ some c := by
  intro hnext
  have hnodup := hw.nodup_connections hblock
  rw [Block.connections] at hnodup
  exact (List.nodup_append.1 hnodup).2.2 c (List.mem_append_right _ hc) c (by simp [hnext]) rfl

theorem InOrder.structured (hw : w.InOrder) : w.Structured where
  target {c t connection} hc ht := by
    have hj := joint_of_connection hc
    obtain ⟨j', hj', hback, hkind, hblock⟩ := hw.formed.wired.target hj ht
    obtain ⟨other, hother, rfl⟩ := joint_eq_some_iff.1 hj'
    refine ⟨other, hother, hback, hkind, hblock, containsBlock_iff.2 (hw.block_of_connection hc),
      containsBlock_iff.2 (hw.block_of_connection hother), ?_⟩
    exact hw.checked _ _ _ _ hj ht hj'
  free {c} := by
    refine hw.formed.wired.free.trans ⟨?_, ?_⟩
    · rintro ⟨j, hj, hfree⟩
      obtain ⟨connection, hc, rfl⟩ := joint_eq_some_iff.1 hj
      exact ⟨connection, hc, hfree⟩
    · rintro ⟨connection, hc, hfree⟩
      exact ⟨_, joint_of_connection hc, hfree⟩
  listed {c connection} hc := by
    obtain ⟨f, hf, hplace⟩ := hw.formed.wired.frame_of_joint (joint_of_connection hc)
    obtain ⟨block, hblock, rfl⟩ := frame_eq_some_iff.1 hf
    refine ⟨block, hblock, ?_, Block.holds_of_mem_places hplace⟩
    refine List.count_eq_one_of_mem (hw.nodup_connections hblock) ?_
    rw [← Block.connections_frame]
    exact (hw.formed.wired.mem_connections hf).2 ⟨_, joint_of_connection hc, rfl⟩
  owned {b block c} hblock hmem := by
    rw [← Block.connections_frame] at hmem
    obtain ⟨j, hj, hb⟩ := (hw.formed.wired.mem_connections (frame_of_block hblock)).1 hmem
    obtain ⟨connection, hc, rfl⟩ := joint_eq_some_iff.1 hj
    exact ⟨connection, hc, hb⟩
  parent {b p block} hblock := by
    have hf := frame_of_block hblock
    refine (hw.formed.parent hf).trans ⟨?_, ?_⟩
    · rintro ⟨c, j, t, j', hj, rfl, hsup, ht, hj', rfl⟩
      obtain ⟨f, hf', hsuperior⟩ := hw.formed.wired.superior_of_joint hj hsup
      rw [hf] at hf'
      cases hf'
      obtain ⟨connection, hc, rfl⟩ := joint_eq_some_iff.1 hj
      obtain ⟨other, hother, rfl⟩ := joint_eq_some_iff.1 hj'
      exact ⟨c, connection, t, other, hsuperior, hc, ht, hother, rfl⟩
    · rintro ⟨c, connection, t, other, hsuperior, hc, ht, hother, rfl⟩
      obtain ⟨j, hj, hb, hsup⟩ := hw.formed.wired.joint_of_superior hf hsuperior
      rw [joint_of_connection hc] at hj
      cases hj
      exact ⟨c, _, t, _, joint_of_connection hc, hb, hsup, ht, joint_of_connection hother, rfl⟩
  children {p above} hp := by
    have hf := frame_of_block hp
    exact ⟨hw.formed.related.children_nodup hf, fun b =>
      (hw.formed.related.mem_children hf).trans parentOf_skeleton⟩
  top := by
    refine ⟨hw.formed.related.top_nodup, fun b => hw.formed.related.mem_top.trans ⟨?_, ?_⟩⟩
    · rintro ⟨f, hf, hnone⟩
      obtain ⟨block, hblock, rfl⟩ := frame_eq_some_iff.1 hf
      exact ⟨block, hblock, hnone⟩
    · rintro ⟨block, hblock, hnone⟩
      exact ⟨_, frame_of_block hblock, hnone⟩
  acyclic := hw.formed.acyclic.mono fun _ _ => parentOf_skeleton.2

/-! ## The report of contradictions -/

namespace Structured

variable (hw : w.Structured)
include hw

/-- By its connections, a block is plugged into its parent. -/
theorem attachedTo?_eq (hblock : w.blocks[b]? = some block) :
    w.attachedTo? b = .ok block.parent := by
  simp only [attachedTo?, parentConnection?, getBlock_eq_ok.2 hblock, ok_bind]
  cases hsuperior : block.superior? with
  | none =>
    have hnone : block.parent = none := by
      refine Option.eq_none_iff_forall_ne_some.2 fun p hp => ?_
      obtain ⟨c, -, -, -, hc, -⟩ := (hw.parent hblock).1 hp
      rw [hsuperior] at hc
      cases hc
    rw [hnone]
    rfl
  | some c =>
    obtain ⟨connection, hc, -⟩ := hw.owned hblock (block.mem_connections_of_superior hsuperior)
    simp only [getConnection_eq_ok.2 hc, ok_bind]
    cases ht : connection.target with
    | none =>
      have hnone : block.parent = none := by
        refine Option.eq_none_iff_forall_ne_some.2 fun p hp => ?_
        obtain ⟨c', connection', t, -, hc', hconnection', ht', -⟩ := (hw.parent hblock).1 hp
        cases hsuperior.symm.trans hc'
        cases hc.symm.trans hconnection'
        cases ht.symm.trans ht'
      rw [hnone]
      rfl
    | some t =>
      obtain ⟨other, hother, -⟩ := hw.target hc ht
      rw [(hw.parent hblock).2 ⟨c, connection, t, other, hsuperior, hc, ht, hother, rfl⟩]
      simp [getConnection_eq_ok.2 hother]

theorem connectionProblems_eq {connection : Connection} (hc : w.connections[c]? = some connection) :
    w.connectionProblems c connection = [] := by
  obtain ⟨block, hblock, -⟩ := hw.listed hc
  have howner : w.containsBlock connection.block = true := containsBlock_iff.2 ⟨block, hblock⟩
  cases ht : connection.target with
  | none =>
    have hfree : w.free.contains c = true := hw.free.2 ⟨connection, hc, ht⟩
    simp [connectionProblems, expect, howner, ht, hfree]
  | some t =>
    obtain ⟨other, hother, hback, -⟩ := hw.target hc ht
    have hfree : w.free.contains c = false := by
      refine Bool.eq_false_iff.2 fun h => ?_
      obtain ⟨connection', hc', hnone⟩ := hw.free.1 h
      cases hc.symm.trans hc'
      cases ht.symm.trans hnone
    simp [connectionProblems, targetProblems, expect, howner, ht, hother, hback, hfree]

theorem registryProblems_eq : w.registryProblems = [] := by
  refine List.flatMap_eq_nil_iff.2 fun c hc => ?_
  obtain ⟨connection, hconnection, -⟩ := hw.free.1 (Std.ExtTreeSet.contains_iff_mem.2
    (Std.ExtTreeSet.mem_toList.1 hc))
  simp [expect, containsConnection, Std.ExtTreeMap.contains_eq_isSome_getElem?, hconnection]

theorem blockProblems_eq (hblock : w.blocks[b]? = some block) :
    w.blockProblems b block = .ok [] := by
  simp only [blockProblems, hw.attachedTo?_eq hblock, ok_bind]
  cases hparent : block.parent with
  | none =>
    have htop : b ∈ w.top := (hw.top.2 b).2 ⟨block, hblock, hparent⟩
    simp [expect, htop]
  | some p =>
    have htop : b ∉ w.top := by
      intro h
      obtain ⟨block', hblock', hnone⟩ := (hw.top.2 b).1 h
      cases hblock.symm.trans hblock'
      cases hparent.symm.trans hnone
    obtain ⟨_, _, _, other, -, -, -, hother, rfl⟩ := (hw.parent hblock).1 hparent
    obtain ⟨above, habove, -⟩ := hw.listed hother
    have hchild : b ∈ above.children := ((hw.children habove).2 b).2 ⟨block, hblock, hparent⟩
    simp [expect, isListedUnder, habove, hchild, htop]

/-- A structured workspace has nothing to report. -/
theorem problems_eq : w.problems = .ok [] := by
  have hblocks : w.blocks.toList.mapM (fun x => w.blockProblems x.1 x.2) =
      .ok (w.blocks.toList.map fun _ => []) := by
    refine mapM_eq_ok_map fun x hx => ?_
    exact hw.blockProblems_eq (Std.ExtTreeMap.mem_toList_iff_getElem?_eq_some.1 hx)
  have hconnections : w.connections.toList.flatMap (fun x => w.connectionProblems x.1 x.2) = [] :=
    List.flatMap_eq_nil_iff.2 fun x hx =>
      hw.connectionProblems_eq (Std.ExtTreeMap.mem_toList_iff_getElem?_eq_some.1 hx)
  calc w.problems
      = (do
          let blocks ← w.blocks.toList.mapM (fun x => w.blockProblems x.1 x.2)
          return w.connections.toList.flatMap (fun x => w.connectionProblems x.1 x.2) ++
            w.registryProblems ++ blocks.flatten) := rfl
    _ = .ok [] := by
      rw [hblocks, hconnections, hw.registryProblems_eq]
      simp

end Structured

/-! ## Along every run -/

/-- **The representations of the trees agree along every run.**  After any calls on an empty
workspace that end in no fault, the workspace is structured, and its own report finds no
contradiction. -/
theorem structured_of_reachable (hw : w.Reachable) : w.Structured ∧ w.problems = .ok [] :=
  ⟨hw.inOrder.structured, hw.inOrder.structured.problems_eq⟩

/-- A list of two items, each filled; then its second socket is taken away with what is in it. -/
def shortenedList : Except Fault Workspace :=
  [Call.newBlock .listCreateWith, .setItemCount ⟨1⟩ 2, .newBlock .intLiteral, .newBlock .intLiteral,
    .connect ⟨1⟩ ⟨3⟩, .connect ⟨2⟩ ⟨4⟩, .setItemCount ⟨1⟩ 1].foldlM Call.run (Workspace.new {})

theorem structured_shortenedList : ∃ w, shortenedList = .ok w ∧ w.top = [⟨1⟩] ∧ w.blockIds =
    [⟨1⟩, ⟨2⟩] ∧
      w.Structured ∧ w.problems = .ok [] := by
  obtain ⟨w, hrun, htop, hids⟩ : ∃ w, shortenedList = .ok w ∧ w.top = [⟨1⟩] ∧
    w.blockIds = [⟨1⟩, ⟨2⟩] :=
    exists_ok_of_any (by decide +kernel)
  refine ⟨w, hrun, htop, hids, structured_of_reachable ((Reachable.new {}).foldlM ?_ hrun)⟩
  simp [Call.Permitted]

end Workspace

end BlockGraph
