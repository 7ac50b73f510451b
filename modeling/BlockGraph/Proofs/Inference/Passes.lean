import BlockGraph.Proofs.Inference.Clearing
import BlockGraph.Proofs.Inference.Mirror

/-!
# Passes

`Workspace.Settles` is a pass that gives every block of a tree the types of its kind and then
infers; with `clear` the connections are cleared first, as when a tree is inferred again, and
without as when a block is new.  `Settles.retypesIn`: a pass changes the types of its tree and of
nothing else.
-/

namespace BlockGraph.Workspace

open Relation

variable {w w' w'' x x' : Workspace} {r : BlockId} {clear : Bool} {c : ConnectionId} {block : Block}
  {connection : Connection} {a : Holder}

/-! ## A pass stays in its tree -/

/-- Types and errors of blocks in `A` may differ, and only connections in `G` may come to have a
type. -/
structure RetypesIn (A : BlockId → Prop) (G : ConnectionId → Prop) (w w' : Workspace) : Prop where
  retypes : Retypes w w'
  agree : AgreeOff .all A w w'
  slots : ∀ c, ¬ G c → (w'.slotType c).isSome = (w.slotType c).isSome

namespace RetypesIn

variable {A A' : BlockId → Prop} {G G' : ConnectionId → Prop}

theorem refl (A : BlockId → Prop) (G : ConnectionId → Prop) (w : Workspace) : RetypesIn A G w w :=
  ⟨.refl w, .refl _ A w, fun _ _ => rfl⟩

theorem trans (h : RetypesIn A G w w') (h' : RetypesIn A G w' w'') : RetypesIn A G w w'' :=
  ⟨h.retypes.trans h'.retypes, h.agree.trans h'.agree,
    fun c hc => (h'.slots c hc).trans (h.slots c hc)⟩

theorem mono (h : RetypesIn A G w w') (hA : ∀ b, A b → A' b) (hG : ∀ c, G c → G' c) :
    RetypesIn A' G' w w' :=
  ⟨h.retypes, h.agree.mono hA, fun c hc => h.slots c fun hG' => hc (hG c hG')⟩

theorem foldlM {α : Type} {F : Workspace → α → Except Fault Workspace} {l : List α}
    (hF : ∀ a ∈ l, ∀ v v', RetypesIn A G w v → F v a = .ok v' → RetypesIn A G v v')
    (h : l.foldlM F w = .ok w') : RetypesIn A G w w' :=
  foldlM_induction (P := RetypesIn A G w)
    (fun a ha v v' hv hstep => hv.trans (hF a ha v v' hv hstep)) (refl A G w) h

theorem inOrder (h : RetypesIn A G w w') (hw : w.InOrder) : w'.InOrder := hw.keeps h.retypes.keeps

theorem owned (h : RetypesIn A G w w') (hw : w.Owned) : w'.Owned := hw.keeps h.retypes.keepsInnards

theorem slotError (h : RetypesIn A G w w') (hc : w.connections[c]? = some connection)
    (hA : ¬ A connection.block) : w'.slotError c = w.slotError c := by
  have hkept := h.agree.connection hc hA
  simp only [View.all, Option.map_id, id] at hkept
  rw [Workspace.slotError, Workspace.slotError, hkept, hc]

theorem of_types {types : Table} (h : w.types.Sound → types.Sound) :
    RetypesIn A G w { w with types } :=
  ⟨.of_types h, .of_eq rfl rfl rfl rfl rfl, fun _ _ => rfl⟩

theorem of_modifyConnection {g : Connection → Connection} {old : Connection}
    (h : w.modifyConnection c g = .ok w') (hc : w.connections[c]? = some old) (hA : A old.block)
    (hg : ∀ x, (g x).joint = x.joint) (hG : G c ∨ (g old).type.isSome = old.type.isSome) :
    RetypesIn A G w w' := by
  refine ⟨.of_modifyConnection h hg, .modifyConnection h fun old' hold' => ?_, fun d hd => ?_⟩
  · cases hc.symm.trans hold'
    exact hA
  · rw [slotType_modifyConnection h hc]
    split
    · next hdc =>
      subst hdc
      rw [hG.resolve_left hd, slotType, hc]
      rfl
    · rfl

end RetypesIn

section Steps

variable {A : BlockId → Prop} {G : ConnectionId → Prop} {b : BlockId} {block : Block}

theorem retypesIn_grant (hw : w.InOrder) (ho : w.Owned) (hblock : w.blocks[b]? = some block)
    (hA : A b) {f : Ty → Ty} {g : Seat × Ty} (hG : ∀ c, block.holder? g.1 = some (.inl c) → G c)
    (h : w.grant b f g = .ok w') : RetypesIn A G w w' := by
  obtain ⟨a, ha, hset⟩ := (grant_eq_ok hblock).1 h
  cases a with
  | inl c =>
    obtain ⟨connection, hc, rfl⟩ := hw.structured.owned hblock (Block.mem_connections_of_holder? ha)
    exact .of_modifyConnection hset hc hA (fun _ => rfl) (.inl (hG c ha))
  | inr v =>
    obtain ⟨found, hfound, rfl, -⟩ := ho.var hblock (Block.holder?_eq_inr ha).2
    obtain ⟨found', hfound', -, rfl⟩ := setVariableType_eq_ok.1 hset
    refine ⟨retypes_assign hset, .insertVariable fun old hold => ?_, fun _ _ => rfl⟩
    cases hfound.symm.trans hold
    exact hA

theorem retypesIn_declareTypes (hw : w.InOrder) (ho : w.Owned) (hblock : w.blocks[b]? = some block)
    (hA : A b) (hG : ∀ c, block.Given (.inl c) → G c) (h : w.declareTypes b = .ok w') :
    RetypesIn A G w w' := by
  rw [declareTypes_eq hblock] at h
  have hfresh :
    RetypesIn A G w { w with types := (w.types.freshMany block.kind.signature.fresh).2 } :=
    .of_types fun hsound => hsound.freshMany _
  refine hfresh.trans (.foldlM (fun g hg v v' hv hstep => ?_) h)
  have hv := hfresh.trans hv
  exact retypesIn_grant (hv.inOrder hw) (hv.owned ho) (by rw [hv.retypes.sameGraph.blocks, hblock])
    hA (fun c hc => hG c ⟨g.2, g.1, hg, hc⟩) hstep

theorem retypesIn_wipe (hw : w.InOrder) (hblock : w.blocks[b]? = some block) (hA : A b)
    (clear : Bool) : RetypesIn A G w (w.wipe clear block.connections) := by
  cases clear with
  | false => exact .refl A G w
  | true =>
    have hforgets := forgets_clearConnections block.connections hw.sound
    refine ⟨hforgets.retypes, hforgets.agree fun c hc old hold => ?_,
      fun c _ => hforgets.typed (.inl c)⟩
    obtain ⟨old', hold', rfl⟩ := hw.structured.owned hblock hc
    cases hold'.symm.trans hold
    exact hA

theorem retypesIn_recordUnify (hc : w.connections[c]? = some connection) (hA : A connection.block)
    {expected found : Ty} {origin : Origin} (h : w.recordUnify c expected found origin = .ok w') :
    RetypesIn A G w w' := by
  obtain ⟨types, rfl, hw'⟩ := recordUnify_cases h
  have htypes : RetypesIn A G w { w with types := (w.types.unify expected found).table } :=
    .of_types fun ht => (ht.unify_spec expected found).1
  rcases hw' with rfl | ⟨error, hw'⟩
  · exact htypes
  · exact htypes.trans (.of_modifyConnection hw' hc hA (fun _ => rfl) (.inr rfl))

theorem retypesIn_unifyInput (hw : w.InOrder) (hblock : w.blocks[b]? = some block) (hA : A b)
    {input : Input} (hinput : input ∈ block.inputs) (h : w.unifyInput b input = .ok w') :
    RetypesIn A G w w' := by
  rcases unifyInput_cases h with rfl | ⟨c, socket, _, _, _, hkind, hconnection, hc, hu⟩
  · exact .refl A G w'
  · obtain ⟨socket', hc', rfl, -⟩ := hw.connection_of_input hblock hinput hkind hconnection
    cases hc.symm.trans hc'
    exact retypesIn_recordUnify hc hA hu

theorem retypesIn_unifyInputs (hw : w.InOrder) (hA : A b) (h : w.unifyInputs b = .ok w') :
    RetypesIn A G w w' := by
  obtain ⟨block, hblock, h⟩ := bind_eq_ok.1 h
  have hblock := getBlock_eq_ok.1 hblock
  refine .foldlM (fun input hinput v v' hv hstep => ?_) h
  exact retypesIn_unifyInput (hv.inOrder hw) (by rw [hv.retypes.sameGraph.blocks, hblock]) hA
    hinput hstep

theorem retypesIn_unifyReference (hw : w.InOrder) (hA : A b) (h : w.unifyReference b = .ok w') :
    RetypesIn A G w w' := by
  rcases unifyReference_cases h with rfl | ⟨block, c, connection, _, _, _, hblock, hout, hc, hu⟩
  · exact .refl A G w'
  · obtain ⟨connection', hc', rfl, -⟩ := hw.connection_of_output hblock hout
    cases hc.symm.trans hc'
    exact retypesIn_recordUnify hc hA hu

end Steps

/-! ## Passes -/

/-- Gives a block the types of its kind; its connections may be cleared before. -/
def renewBlock (clear : Bool) (w : Workspace) (b : BlockId) : Except Fault Workspace := do
  (w.wipe clear (← w.getBlock b).connections).declareTypes b

/-- A pass over the tree of `r`: all its blocks get the types of their kinds, then they are
inferred. -/
def Settles (clear : Bool) (r : BlockId) (x x' : Workspace) : Prop :=
  ∃ order z ty, x.descendants r = .ok order ∧ order.foldlM (renewBlock clear) x = .ok z ∧
    z.infer r = .ok (ty, x')

theorem clearBlock_eq : clearBlock = renewBlock true := rfl

theorem settles_iff (htyped : x.isTyped = true) : Settles true r x x' ↔
    ∃ ty, x.reinfer r = .ok (ty, x') := by
  simp only [Settles, reinfer, clearTypes, htyped, Bool.not_true, Bool.false_eq_true, if_false,
    clearBlock_eq, bind_eq_ok]
  constructor
  · rintro ⟨order, z, ty, horder, hz, hinfer⟩
    exact ⟨ty, z, ⟨order, horder, hz⟩, hinfer⟩
  · rintro ⟨ty, z, ⟨order, horder, hz⟩, hinfer⟩
    exact ⟨order, z, ty, horder, hz, hinfer⟩

/-- The connections of a tree that a pass gives types to. -/
def GivenIn (w : Workspace) (r : BlockId) (c : ConnectionId) : Prop :=
  ∃ b block, w.Below r b ∧ w.blocks[b]? = some block ∧ block.Given (.inl c)

theorem retypesIn_renewBlock {A : BlockId → Prop} {G : ConnectionId → Prop} {b : BlockId}
    (hw : w.InOrder) (ho : w.Owned) (hblock : w.blocks[b]? = some block) (hA : A b)
    (hG : ∀ c, block.Given (.inl c) → G c) (h : w.renewBlock clear b = .ok w') :
    RetypesIn A G w w' := by
  simp only [renewBlock, getBlock_eq_ok.2 hblock, ok_bind] at h
  have hwipe : RetypesIn A G w (w.wipe clear block.connections) := retypesIn_wipe hw hblock hA clear
  exact hwipe.trans (retypesIn_declareTypes (hwipe.inOrder hw) (hwipe.owned ho)
    (by rw [hwipe.retypes.sameGraph.blocks, hblock]) hA hG h)

theorem infer_eq_ok (htyped : w.isTyped = true) {ty : Option Ty} (h : w.infer r = .ok (ty, w')) :
    ∃ order v, w.descendants r = .ok order ∧ order.reverse.foldlM unifyInputs w = .ok v ∧
      order.foldlM unifyReference v = .ok w' ∧ w'.outputType? r = .ok ty := by
  simp only [infer, htyped, Bool.not_true, Bool.false_eq_true, if_false, bind_eq_ok] at h
  obtain ⟨order, horder, v, hv, w'', hw'', ty', hty', h⟩ := h
  cases h
  exact ⟨order, v, horder, hv, hw'', hty'⟩

/-- Giving the blocks of a tree the types of their kinds stays in the tree. -/
theorem retypesIn_renewBlocks {order : List BlockId} (hx : x.InOrder) (ho : x.Owned)
    (hblock : x.blocks[r]? = some block) (horder : x.descendants r = .ok order)
    (h : order.foldlM (renewBlock clear) x = .ok x') :
    RetypesIn (x.Below r) (x.GivenIn r) x x' := by
  obtain ⟨ids, hids, -, hmem⟩ := hx.exists_descendants hblock
  cases horder.symm.trans hids
  refine .foldlM (fun b hb v v' hv hstep => ?_) h
  have hbelow := (hmem b).1 hb
  obtain ⟨blockb, hblockb⟩ := hbelow.live hblock
  exact retypesIn_renewBlock (hv.inOrder hx) (hv.owned ho)
    (by rw [hv.retypes.sameGraph.blocks, hblockb]) hbelow
    (fun c hc => ⟨b, blockb, hbelow, hblockb, hc⟩) hstep

/-- A pass changes the types of its tree and of nothing else. -/
theorem Settles.retypesIn (h : Settles clear r x x') (hx : x.InOrder) (ho : x.Owned)
    (htyped : x.isTyped = true) (hlive : ∃ block, x.blocks[r]? = some block) :
    RetypesIn (x.Below r) (x.GivenIn r) x x' := by
  obtain ⟨block, hblock⟩ := hlive
  obtain ⟨order, z, ty, horder, hz, hinfer⟩ := h
  have hrenew := retypesIn_renewBlocks hx ho hblock horder hz
  have hztyped : z.isTyped = true := (isTyped_congr hrenew.agree.options).trans htyped
  obtain ⟨order', v, horder', hv, hx', -⟩ := infer_eq_ok hztyped hinfer
  have hblockz : z.blocks[r]? = some block := by rw [hrenew.retypes.sameGraph.blocks, hblock]
  obtain ⟨ids', hids', -, hmem'⟩ := (hrenew.inOrder hx).exists_descendants hblockz
  cases horder'.symm.trans hids'
  have hbelow : ∀ b ∈ order', x.Below r b := fun b hb => by
    have := (hmem' b).1 hb
    rwa [hrenew.retypes.sameGraph.below_eq] at this
  have hinputs : RetypesIn (x.Below r) (x.GivenIn r) x v := by
    refine hrenew.trans (.foldlM (fun b hb u u' hu hstep => ?_) hv)
    exact retypesIn_unifyInputs (hu.inOrder (hrenew.inOrder hx))
      (hbelow b (List.mem_reverse.1 hb)) hstep
  refine hinputs.trans (.foldlM (fun b hb u u' hu hstep => ?_) hx')
  exact retypesIn_unifyReference (hu.inOrder (hinputs.inOrder hx)) (hbelow b hb) hstep

/-! ## The tree of a pass -/

/-- The connections of a tree. -/
def OfTree (w : Workspace) (r : BlockId) (c : ConnectionId) : Prop :=
  ∃ connection, w.connections[c]? = some connection ∧ w.Below r connection.block

/-- The connections of a tree and the variables that it declares. -/
def HolderIn (w : Workspace) (r : BlockId) : Holder → Prop
  | .inl c => w.OfTree r c
  | .inr v => w.BinderBelow r v

theorem HolderBelow.holderIn (h : w.HolderBelow r a) : w.HolderIn r a := by
  cases a with
  | inl c =>
    obtain ⟨connection, hc, -, hb⟩ := h
    exact ⟨connection, hc, hb⟩
  | inr v => exact h

theorem SameGraph.ofTree (h : SameGraph w w') (hc : w.OfTree r c) : w'.OfTree r c := by
  obtain ⟨connection, hc, hb⟩ := hc
  obtain ⟨new, hnew, hblock, -⟩ := h.connection hc
  exact ⟨new, hnew, by rw [h.below_eq, hblock]; exact hb⟩

theorem SameGraph.holderIn (h : SameGraph w w') (ha : w.HolderIn r a) : w'.HolderIn r a := by
  cases a with
  | inl c => exact h.ofTree ha
  | inr v => exact h.binderBelow ha

/-- A pass over the tree of `r` that was made in good order: no use in the tree is bound to a
declaration outside, and connections that were not cleared had nothing to clear. -/
structure Settled (clear : Bool) (r : BlockId) (x x' : Workspace) : Prop where
  inOrder : x.InOrder
  owned : x.Owned
  typed : x.isTyped = true
  live : ∃ block, x.blocks[r]? = some block
  here : x.Local r
  error : clear = false → ∀ c, x.OfTree r c → x.slotError c = none
  given : clear = false → ∀ c, x.OfTree r c → x.GivenIn r c ∨ x.slotType c = none
  settles : Settles clear r x x'

theorem Settled.retypesIn (h : Settled clear r x x') :
    RetypesIn (x.Below r) (x.GivenIn r) x x' :=
  h.settles.retypesIn h.inOrder h.owned h.typed h.live

end BlockGraph.Workspace
