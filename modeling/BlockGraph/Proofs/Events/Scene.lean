import BlockGraph.Proofs.Events.Replica
import BlockGraph.Proofs.Workspace.Plugs

/-!
# What a replica should show

`Workspace.entryOf?` is what a replica should show of a block.  It is a matter of the kind of the
block, of the connection it is plugged into (`Workspace.Plugs`), and of the owner and the name of
that connection (`Skeleton.seat?`).

Most steps leave all of this as it is (`Workspace.SameScene`).  A joint that is made or undone
changes the entry of one block, and a block that is released loses its own.
-/

namespace BlockGraph

variable {check : Check} {f f' : Frame} {kind : InputKind}

/-! ## Names of connections -/

/-- The name of the slot that has a connection. -/
def Frame.nameOf? (f : Frame) (c : ConnectionId) : Option String :=
  (f.slots.find? fun x => x.connection == some c).map Slot.name

theorem Block.nameOf?_frame (block : Block) (c : ConnectionId) :
    block.frame.nameOf? c = block.inputNameOf? c := by
  simp only [Frame.nameOf?, Block.frame, Block.inputNameOf?, List.find?_map, Option.map_map]
  rfl

namespace Skeleton

variable {s s' : Skeleton} {c : ConnectionId}

/-- The owner of a connection, and the name of its slot if it is that of an input. -/
def seat? (s : Skeleton) (c : ConnectionId) : Option (BlockId × Option String) :=
  (s.joint c).map fun j => (j.block, (s.frame j.block).bind (·.nameOf? c))

theorem seat?_eq {j : Joint} (hj : s.joint c = some j) (hf : s.frame j.block = some f) :
    s.seat? c = some (j.block, f.nameOf? c) := by
  simp [seat?, hj, hf]

theorem seat?_congr (hjoint : s'.joint c = s.joint c) (hname : ∀ j, s.joint c = some j →
      (s'.frame j.block).bind (·.nameOf? c) = (s.frame j.block).bind (·.nameOf? c)) :
    s'.seat? c = s.seat? c := by
  rw [seat?, seat?, hjoint]
  cases hj : s.joint c with
  | none => rfl
  | some j => simp [hname j hj]

/-- Joining and parting take no connection away from its owner. -/
theorem seat?_rewire (s : Skeleton) (i o : ConnectionId) (parent child : BlockId) (joined : Bool) :
    (s.rewire i o parent child joined).seat? c = s.seat? c := by
  simp only [seat?, rewire, reparent, setTop, mapFrames, wire, Option.map_map, Option.bind_map]
  rfl

theorem kind_rewire (s : Skeleton) (i o : ConnectionId) (parent child : BlockId) (joined : Bool)
    (b : BlockId) : ((s.rewire i o parent child joined).frame b).map Frame.kind =
      (s.frame b).map Frame.kind := by
  simp only [rewire, reparent, setTop, mapFrames, wire, Option.map_map]
  rfl

end Skeleton

namespace Workspace

variable {w w' w'' : Workspace} {b x : BlockId} {c : ConnectionId} {name : String} {index : Nat}
  {block : Block} {inputs : List Input}

/-! ## Entries -/

/-- The name of the input that a block is plugged into; none for a next connection. -/
def inputOf? (w : Workspace) (b : BlockId) : Option String :=
  match w.parentConnection? b with
  | .ok (some c) =>
    w.connections[c]?.bind fun connection => w.blocks[connection.block]?.bind (·.inputNameOf? c)
  | _ => none

/-- What a replica should show of a block. -/
def entryOf? (w : Workspace) (b : BlockId) : Option Entry := w.blocks[b]?.map fun block =>
    { kind := block.kind, parent := block.parent, input := w.inputOf? b }

theorem entryOf?_eq_none_iff : w.entryOf? b = none ↔ w.blocks[b]? = none := Option.map_eq_none_iff

theorem live_of_kind
    (h : (w'.skeleton.frame b).map Frame.kind = (w.skeleton.frame b).map Frame.kind) :
    w'.blocks[b]? = none ↔ w.blocks[b]? = none := by
  simp only [skeleton, Option.map_map] at h
  rw [← Option.map_eq_none_iff (f := Frame.kind ∘ Block.frame), h, Option.map_eq_none_iff]

theorem InOrder.exists_seat (hw : w.InOrder) (h : w.Plugs b c) :
    ∃ p name, w.skeleton.seat? c = some (p, name) := by
  obtain ⟨connection, hc, -⟩ := hw.connection_of_plugs h
  exact ⟨_, _, by rw [Skeleton.seat?, joint_of_connection hc]; rfl⟩

/-- A block that is plugged in has the owner and the name of that connection in its entry. -/
theorem InOrder.entryOf?_of_plugs (hw : w.InOrder) (hf : w.skeleton.frame b = some f)
    (h : w.Plugs b c) {p : BlockId} {name : Option String}
    (hseat : w.skeleton.seat? c = some (p, name)) : w.entryOf? b = some ⟨f.kind, some p, name⟩ := by
  obtain ⟨block, hblock, rfl⟩ := frame_eq_some_iff.1 hf
  obtain ⟨connection, hc, -⟩ := hw.connection_of_plugs h
  obtain ⟨owner, howner⟩ := hw.block_of_connection hc
  have hparent : block.parent = some connection.block :=
    (parentOf_iff hblock).1 (parentOf_skeleton.2 (hw.parentOf_of_plugs h hc))
  have hinput : w.inputOf? b = owner.inputNameOf? c := by
    simp [inputOf?, hw.plugs_iff.1 h, hc, howner]
  rw [Skeleton.seat?_eq (joint_of_connection hc) (frame_of_block howner), Option.some.injEq,
    Prod.mk.injEq, Block.nameOf?_frame] at hseat
  rw [entryOf?, hblock, Option.map_some, hparent, hinput, ← hseat.1, ← hseat.2]
  rfl

/-- A block that is plugged into nothing has no parent in its entry. -/
theorem InOrder.entryOf?_of_free (hw : w.InOrder) (hf : w.skeleton.frame b = some f)
    (h : ∀ c, ¬ w.Plugs b c) : w.entryOf? b = some ⟨f.kind, none, none⟩ := by
  obtain ⟨block, hblock, rfl⟩ := frame_eq_some_iff.1 hf
  have hparent : block.parent = none := by
    rw [Option.eq_none_iff_forall_ne_some]
    intro p hp
    obtain ⟨t, j, c, j', hj, hb, hsup, htarget, -⟩ := (hw.formed.parent hf).1 hp
    exact h c ⟨t, j, hj, hb, hsup, htarget⟩
  have hinput : w.inputOf? b = none := by
    rw [inputOf?]
    split
    · rename_i c hc
      exact absurd (hw.plugs_iff.2 hc) (h c)
    · rfl
  rw [entryOf?, hblock, Option.map_some, hparent, hinput]
  rfl

/-- The entry of a block is a matter of its kind, its plug and the seat of that. -/
theorem entryOf?_congr (hw : w.InOrder) (hw' : w'.InOrder)
    (hkind : (w'.skeleton.frame b).map Frame.kind = (w.skeleton.frame b).map Frame.kind)
    (hplugs : ∀ c, w'.Plugs b c ↔ w.Plugs b c)
    (hseat : ∀ c, w.Plugs b c → w'.skeleton.seat? c = w.skeleton.seat? c) :
    w'.entryOf? b = w.entryOf? b := by
  cases hf : w.skeleton.frame b with
  | none =>
    rw [hf, Option.map_none, Option.map_eq_none_iff] at hkind
    have hnone : ∀ {v : Workspace}, v.skeleton.frame b = none → v.entryOf? b = none := fun h =>
      entryOf?_eq_none_iff.2 (Option.map_eq_none_iff.1 h)
    rw [hnone hf, hnone hkind]
  | some f =>
    rw [hf, Option.map_some, Option.map_eq_some_iff] at hkind
    obtain ⟨f', hf', hkind⟩ := hkind
    by_cases hplug : ∃ c, w.Plugs b c
    · obtain ⟨c, hc⟩ := hplug
      obtain ⟨p, name, hs⟩ := hw.exists_seat hc
      rw [hw.entryOf?_of_plugs hf hc hs,
        hw'.entryOf?_of_plugs hf' ((hplugs c).2 hc) ((hseat c hc).trans hs), hkind]
    · have hfree : ∀ c, ¬ w.Plugs b c := fun c hc => hplug ⟨c, hc⟩
      rw [hw.entryOf?_of_free hf hfree,
        hw'.entryOf?_of_free hf' fun c hc => hfree c ((hplugs c).1 hc), hkind]

/-! ## Steps that change no entry -/

/-- A replica should show the same. -/
structure SameScene (w w' : Workspace) : Prop where
  kind : ∀ b, (w'.skeleton.frame b).map Frame.kind = (w.skeleton.frame b).map Frame.kind
  plugs : ∀ {b : BlockId} {c : ConnectionId}, w'.Plugs b c ↔ w.Plugs b c
  seat : ∀ {b : BlockId} {c : ConnectionId}, w.Plugs b c → w'.skeleton.seat? c = w.skeleton.seat? c

namespace SameScene

theorem refl (w : Workspace) : SameScene w w := ⟨fun _ => rfl, Iff.rfl, fun _ => rfl⟩

theorem trans (h : SameScene w w') (h' : SameScene w' w'') : SameScene w w'' where
  kind b := (h'.kind b).trans (h.kind b)
  plugs := h'.plugs.trans h.plugs
  seat hc := (h'.seat (h.plugs.2 hc)).trans (h.seat hc)

theorem entryOf?_eq (h : SameScene w w') (hw : w.InOrder) (hw' : w'.InOrder) :
    w'.entryOf? = w.entryOf? :=
  funext fun b => entryOf?_congr hw hw' (h.kind b) (fun _ => h.plugs) fun _ => h.seat

theorem live_iff (h : SameScene w w') : w'.blocks[b]? = none ↔ w.blocks[b]? = none :=
  live_of_kind (h.kind b)

theorem of_keeps (h : Keeps w w') : SameScene w w' where
  kind b := by rw [h.skeleton_eq]
  plugs := plugs_of_skeleton h.skeleton_eq
  seat _ := by rw [h.skeleton_eq]

/-- One block gets another frame, and connections that are joined to nothing may come and go. -/
theorem of_reframe (hw : w.InOrder) (hjoined : w.skeleton.SameJoined w'.skeleton)
    (hf : w.skeleton.frame b = some f)
    (hframe : w'.skeleton.frame = Function.update w.skeleton.frame b (some f'))
    (hkind : f'.kind = f.kind)
    (hname : ∀ c j t, w.skeleton.joint c = some j → j.target = some t →
      f'.nameOf? c = f.nameOf? c) :
    SameScene w w' where
  kind x := by
    rw [hframe, Function.update_apply]
    split
    · rename_i hx
      rw [hx, hf, Option.map_some, Option.map_some, hkind]
    · rfl
  plugs := by
    intro y c
    refine exists_congr fun t => exists_congr fun j => ?_
    constructor
    · rintro ⟨hj, hrest⟩
      exact ⟨(hjoined t j (by simp [hrest.2.2])).1 hj, hrest⟩
    · rintro ⟨hj, hrest⟩
      exact ⟨(hjoined t j (by simp [hrest.2.2])).2 hj, hrest⟩
  seat := by
    rintro y c ⟨t, j, hj, -, -, htarget⟩
    obtain ⟨j', hj', hback, -⟩ := hw.formed.wired.target hj htarget
    refine Skeleton.seat?_congr ?_ fun i hi => ?_
    · rw [hj', (hjoined c j' (by simp [hback])).2 hj']
    · cases hj'.symm.trans hi
      rw [hframe, Function.update_apply]
      split
      · rename_i hx
        rw [hx, hf, Option.bind_some, Option.bind_some, hname c j' t hj' hback]
      · rfl

end SameScene

/-- A new connection at a new place. -/
theorem InOrder.sameScene_create (hw : w.InOrder) {kind : ConnectionKind} {g : Block → Block}
    (h : (w.createConnection b kind check).2.modifyBlock b g = .ok w')
    (hkind : ∀ block, (g block).kind = block.kind)
    (hname : ∀ block c, c ≠ ⟨w.connectionCount⟩ →
      (g block).frame.nameOf? c = block.frame.nameOf? c) :
    SameScene w w' := by
  obtain ⟨block, hblock, hskel, -⟩ := skeleton_create h
  have hjoined : w.skeleton.SameJoined w'.skeleton := by
    rw [hskel]
    exact Skeleton.sameJoined_addPlace hw.formed.wired rfl rfl
  refine .of_reframe hw hjoined (frame_of_block hblock) (by rw [hskel]; rfl) (hkind block) ?_
  intro c j t hj _
  refine hname block c ?_
  rintro rfl
  exact absurd (hw.formed.wired.index hj) (lt_irrefl _)

theorem InOrder.sameScene_declareOutput (hw : w.InOrder)
    (h : w.declareOutput b check = .ok w') : SameScene w w' := by
  simp only [Workspace.declareOutput, bind_eq_ok, getBlock_eq_ok, require_eq_ok] at h
  obtain ⟨block, -, -, -, h⟩ := h
  exact hw.sameScene_create h (fun _ => rfl) fun _ _ _ => rfl

theorem InOrder.sameScene_declarePrevious (hw : w.InOrder)
    (h : w.declarePrevious b check = .ok w') : SameScene w w' := by
  simp only [Workspace.declarePrevious, bind_eq_ok, getBlock_eq_ok, require_eq_ok] at h
  obtain ⟨block, -, -, -, h⟩ := h
  exact hw.sameScene_create h (fun _ => rfl) fun _ _ _ => rfl

theorem InOrder.sameScene_declareNext (hw : w.InOrder)
    (h : w.declareNext b check = .ok w') : SameScene w w' :=
  hw.sameScene_create h (fun _ => rfl) fun _ _ _ => rfl

/-! ## Inputs -/

/-- A slot at the end takes no name away from other connections. -/
theorem nameOf?_appendSlot {slot : Slot} (h : f'.slots = f.slots ++ [slot])
    (hc : slot.connection ≠ some c) : f'.nameOf? c = f.nameOf? c := by
  simp [Frame.nameOf?, h, List.find?_append, hc]

theorem InOrder.sameScene_enterInput (hw : w.InOrder)
    (h : (w.createSocket b kind check).2.modifyBlock b (fun block => { block with
      inputs := block.inputs ++ [{ name, kind, connection := (w.createSocket b kind check).1 }] }) =
        .ok w') : SameScene w w' := by
  have hslots : ∀ (block : Block) (connection : Option ConnectionId),
      ({ block with inputs := block.inputs ++ [{ name, kind, connection }] } : Block).frame.slots =
        block.frame.slots ++ [⟨name, kind, connection⟩] := by
    simp [Block.frame, Input.slot]
  cases kind with
  | value =>
    refine hw.sameScene_create h (fun _ => rfl) fun block c hc =>
      nameOf?_appendSlot (hslots block _) ?_
    exact fun h => hc (Option.some.inj h).symm
  | statement =>
    refine hw.sameScene_create h (fun _ => rfl) fun block c hc =>
      nameOf?_appendSlot (hslots block _) ?_
    exact fun h => hc (Option.some.inj h).symm
  | dummy =>
    obtain ⟨block, hblock, rfl⟩ := modifyBlock_eq_ok.1 h
    exact .of_reframe hw (fun _ _ _ => Iff.rfl) (frame_of_block hblock)
      (congrArg Skeleton.frame (skeleton_insertBlock w b _)) rfl fun c _ _ _ _ =>
        nameOf?_appendSlot (hslots block none) (by simp)

theorem InOrder.sameScene_appendInput (hw : w.InOrder)
    (h : w.appendInput b kind name check = .ok (index, w')) : SameScene w w' := by
  obtain ⟨-, -, -, -, hmodify⟩ := appendInput_cases h
  exact hw.sameScene_enterInput hmodify

/-- Removing something else does not change what is found. -/
theorem find?_eraseIdx {α : Type} {p : α → Bool} {a : α} :
    ∀ {l : List α} {i : Nat}, l[i]? = some a → p a = false →
    (l.eraseIdx i).find? p = l.find? p := by
  intro l
  induction l with
  | nil => simp
  | cons y l ih =>
    intro i hi hp
    cases i with
    | zero =>
      cases hi
      simp [hp]
    | succ i =>
      rw [List.eraseIdx_cons_succ, List.find?_cons, List.find?_cons, ih (by simpa using hi) hp]

/-- An input goes with its connection. -/
theorem InOrder.sameScene_dropInput (hw : w.InOrder) {input : Input}
    (hblock : w.blocks[b]? = some block) (hinput : block.inputs[index]? = some input)
    {w1 w2 : Workspace}
    (h1 : w.modifyBlock b (fun block => { block with inputs := block.inputs.eraseIdx index }) =
      .ok w1) (h2 : Keeps w1 w2)
      (h3 : input.connection.toList.foldlM disposeConnection w2 = .ok w') :
    SameScene w w' := by
  obtain ⟨block', hblock', rfl⟩ := modifyBlock_eq_ok.1 h1
  cases hblock.symm.trans hblock'
  obtain ⟨hfree, hskel, -⟩ := skeleton_disposeConnections h3
  have hskel2 := h2.skeleton_eq
  rw [skeleton_insertBlock] at hskel2
  rw [hskel2] at hskel hfree
  have hjoined : w.skeleton.SameJoined w'.skeleton := by
    intro c j hj
    rw [hskel]
    simp only [Skeleton.freeAll, Skeleton.setFrame]
    split
    · rename_i hc
      simp only [reduceCtorEq, false_iff]
      exact fun hold => hj (hfree c hc j hold)
    · rfl
  have hframe : w'.skeleton.frame = Function.update w.skeleton.frame b
      (some ({ block with inputs := block.inputs.eraseIdx index } : Block).frame) := by
    rw [hskel]
    rfl
  refine .of_reframe hw hjoined (frame_of_block hblock) hframe rfl ?_
  intro c j t hj ht
  -- the connection that goes is joined to nothing
  have hne : input.connection ≠ some c := fun heq => by
    rw [hfree c (by simp [heq]) j hj] at ht
    cases ht
  rw [Block.nameOf?_frame, Block.nameOf?_frame, Block.inputNameOf?, Block.inputNameOf?,
    find?_eraseIdx hinput (by simpa using hne)]

theorem eq_of_mem_sockets (h : (inputs.filterMap Input.connection).Nodup) {i i' : Input}
    (hi : i ∈ inputs) (hi' : i' ∈ inputs) (hc : i.connection = some c)
    (hc' : i'.connection = some c) : i = i' := by
  induction inputs with
  | nil => cases hi
  | cons a inputs ih =>
    rw [List.filterMap_cons] at h
    have hmem : ∀ {y : Input}, y ∈ inputs → y.connection = some c →
        c ∈ inputs.filterMap Input.connection := fun hy hyc => List.mem_filterMap.2 ⟨_, hy, hyc⟩
    rcases List.mem_cons.1 hi with rfl | hrest <;> rcases List.mem_cons.1 hi' with rfl | hrest'
    · rfl
    · rw [hc] at h
      exact absurd (hmem hrest' hc') (List.nodup_cons.1 h).1
    · rw [hc'] at h
      exact absurd (hmem hrest hc) (List.nodup_cons.1 h).1
    · refine ih ?_ hrest hrest'
      cases ha : a.connection with
      | none =>
        rw [ha] at h
        exact h
      | some d =>
        rw [ha] at h
        exact (List.nodup_cons.1 h).2

/-- In any order of the inputs a connection belongs to the same. -/
theorem inputNameOf?_perm (hnodup : block.sockets.Nodup) (hperm : inputs.Perm block.inputs) :
    ({ block with inputs } : Block).inputNameOf? c = block.inputNameOf? c := by
  have hfind : ∀ {l : List Input} {i : Input}, l.Perm block.inputs → i ∈ block.inputs →
      i.connection = some c → l.find? (fun i => i.connection == some c) = some i := by
    intro l i hl hi hc
    cases hfound : l.find? (fun i => i.connection == some c) with
    | none => exact absurd (List.find?_eq_none.1 hfound i (hl.mem_iff.2 hi)) (by simp [hc])
    | some i' =>
      have hmem := hl.mem_iff.1 (List.mem_of_find?_eq_some hfound)
      have hc' := List.find?_some hfound
      rw [eq_of_mem_sockets hnodup hi hmem hc (by simpa using hc')]
  rw [Block.inputNameOf?, Block.inputNameOf?]
  cases hold : block.inputs.find? (fun i => i.connection == some c) with
  | none =>
    rw [List.find?_eq_none] at hold
    rw [List.find?_eq_none.2 fun i hi => hold i (hperm.mem_iff.1 hi)]
  | some i =>
    have hc := List.find?_some hold
    rw [hfind hperm (List.mem_of_find?_eq_some hold) (by simpa using hc)]

theorem InOrder.sameScene_moveNumberedInput (hw : w.InOrder) {source target : Nat}
    (h : w.moveNumberedInput b source target = .ok w') : SameScene w w' := by
  obtain ⟨block, inputs, hblock, hperm, rfl⟩ := moveNumberedInput_cases h
  have hnodup : block.sockets.Nodup := by
    have := hw.nodup_connections hblock
    simp only [Block.connections, List.nodup_append] at this
    exact this.1.2.1
  refine .of_reframe hw (fun _ _ _ => Iff.rfl) (frame_of_block hblock)
    (congrArg Skeleton.frame (skeleton_insertBlock w b _)) rfl fun c _ _ _ _ => ?_
  rw [Block.nameOf?_frame, Block.nameOf?_frame]
  exact inputNameOf?_perm hnodup hperm

theorem InOrder.sameScene_moveInput (hw : w.InOrder) {before : Option String}
    (h : w.moveInput b name before = .ok w') : SameScene w w' := by
  rcases moveInput_cases h with rfl | ⟨source, target, h⟩
  · exact .refl w'
  · exact hw.sameScene_moveNumberedInput h

/-! ## Checks -/

/-- A check that is replaced changes no entry. -/
theorem sameScene_recheck (h : w.modifyConnection c ({ · with check }) = .ok w') :
    SameScene w w' := by
  obtain ⟨connection, hc, rfl⟩ := modifyConnection_eq_ok.1 h
  have hjoint : ∀ t, ({ w with connections := w.connections.insert c { connection with check } } :
      Workspace).skeleton.joint t =
        if t = c then some { connection.joint with check } else w.skeleton.joint t := by
    intro t
    simp only [skeleton, getElem?_insert_eq]
    split <;> rfl
  have hold := joint_of_connection hc
  refine ⟨fun _ => rfl, ?_, ?_⟩
  · intro y d
    constructor
    · rintro ⟨t, j, hj, hrest⟩
      rw [hjoint] at hj
      split at hj
      · rename_i ht
        cases hj
        exact ⟨t, connection.joint, ht ▸ hold, hrest⟩
      · exact ⟨t, j, hj, hrest⟩
    · rintro ⟨t, j, hj, hrest⟩
      by_cases ht : t = c
      · subst ht
        cases hold.symm.trans hj
        exact ⟨t, { connection.joint with check }, by rw [hjoint, if_pos rfl], hrest⟩
      · exact ⟨t, j, by rw [hjoint, if_neg ht]; exact hj, hrest⟩
  · intro y d _
    rw [Skeleton.seat?, Skeleton.seat?, hjoint]
    split
    · rename_i hd
      rw [hd, hold]
      rfl
    · rfl

end Workspace

end BlockGraph
