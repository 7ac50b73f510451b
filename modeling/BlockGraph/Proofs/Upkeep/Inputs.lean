import BlockGraph.Proofs.Upkeep.Disposal

/-!
# Changes of inputs keep trees up to date

Appending, removing and moving the inputs of one block leaves the variables and the parents as they
are (`Workspace.Reshaped`).  A block can be reshaped many times before its tree is refreshed:
`Workspace.Underway` holds between the steps, and says that no tree but that of the block is behind.
-/

namespace BlockGraph

variable {v v' : Workspace} {x : BlockId} {field : Field} {input : Input}
  {errors : List DescriptorError} {count k n index : Nat}

open Relation

theorem perm_cons_eraseIdx {α : Type} {l : List α} {x : α} (h : l[index]? = some x) :
    l.Perm (x :: l.eraseIdx index) := by
  obtain ⟨hlt, rfl⟩ := List.getElem?_eq_some_iff.1 h
  exact (List.getElem_cons_eraseIdx_perm hlt).symm

theorem map_range_succ (n k : Nat) :
    (List.range (k + 1)).map (n + ·) = n :: (List.range k).map (n + 1 + ·) := by
  simp [List.range_succ_eq_map, Function.comp_def, Nat.add_assoc, Nat.add_comm 1]

theorem reverse_map_range_succ (n k : Nat) :
    ((List.range (k + 1)).map (n + ·)).reverse =
    (n + k) :: ((List.range k).map (n + ·)).reverse := by
  simp [List.range_succ]

namespace Block

variable {block : Block}

/-- A block that neither declares nor uses a variable holds none. -/
theorem Tidy.held_eq_none (h : block.Tidy)
    (hkind : ¬ (block.kind.isBinder = true ∨ block.kind = .variablesGet)) :
    ∀ field ∈ block.fields, field.value.heldVariable? = none := by
  have hown : block.own? = none := by
    rw [← Option.not_isSome_iff_eq_none, h.own]
    exact hkind
  have hvars := h.vars
  rw [hown, Option.toList_none, Block.vars, List.filterMap_eq_nil_iff] at hvars
  exact hvars

theorem vars_eq_nil (h : ∀ field ∈ block.fields, field.value.heldVariable? = none) :
    block.vars = [] :=
  List.filterMap_eq_nil_iff.2 h

theorem own?_eq_none (h : ∀ field ∈ block.fields, field.value.heldVariable? = none) :
    block.own? = none := by
  rw [own?, Option.bind_eq_none_iff]
  exact fun field hfield => h field (List.mem_of_find?_eq_some hfield)

theorem mem_fields_of_eraseIdx
    (h : field ∈ Block.fields { block with inputs := block.inputs.eraseIdx index }) :
    field ∈ block.fields := by
  obtain ⟨input, hinput, hfield⟩ := List.mem_flatMap.1 h
  exact List.mem_flatMap.2 ⟨input, List.mem_of_mem_eraseIdx hinput, hfield⟩

/-- A field without a variable is added behind all others. -/
theorem fields_appendField (hlast : block.inputs.length = index + 1) (field : Field) :
    Block.fields { block with inputs := block.inputs.modify index fun i =>
      { i with fields := i.fields ++ [field] } } = block.fields ++ [field] := by
  obtain ⟨front, input, hinputs⟩ : ∃ front input, block.inputs = front ++ [input] :=
    ⟨_, _, (List.dropLast_append_getLast (List.ne_nil_of_length_eq_add_one hlast)).symm⟩
  obtain rfl : front.length = index := by simpa [hinputs] using hlast
  simp [fields, hinputs, modify_last]

theorem own?_of_fields {block' : Block} (h : block'.fields = block.fields ++ [field])
    (hheld : field.value.heldVariable? = none) : block'.own? = block.own? := by
  rw [own?, own?, field?, field?, h, List.find?_append]
  cases block.fields.find? fun f => f.name == Kind.variableField with
  | some found => rfl
  | none =>
    rw [Option.none_or, List.find?_singleton]
    split
    · simpa using hheld
    · rfl

theorem length_itemNames_append (block : Block) (i : Nat) (c : Option ConnectionId) :
    (itemNames { block with inputs := block.inputs ++
      [{ name := Kind.itemName i, kind := .value, connection := c }] }).length =
        block.itemNames.length + 1 := by
  simp [itemNames, Kind.isPrefixOf_itemName]

theorem length_itemNames_eraseIdx {i : Nat} (hinput : block.inputs[index]? = some input)
    (hname : input.name = Kind.itemName i) : block.itemNames.length =
      (itemNames { block with inputs := block.inputs.eraseIdx index }).length + 1 := by
  have hlength :=
    (((perm_cons_eraseIdx hinput).map Input.name).filter fun name => Kind.itemMark.isPrefixOf
      name).length_eq
  rw [itemNames, hlength]
  simp [itemNames, hname, Kind.isPrefixOf_itemName]

/-- Blocks with the same innards have inputs of the same names and connections. -/
theorem input_of_innards {b b' : Block} (h : b'.innards = b.innards) (index : Nat) :
    b'.inputs[index]?.map Input.essence = b.inputs[index]?.map Input.essence := by
  simpa [essence] using congrArg (·[index]?) (inputs_of_innards h)

end Block

namespace Workspace

variable {w w0 w1 w' : Workspace} {Q : Block → Prop} {tracked : Prop} {stale A N : BlockId → Prop}
  {b r : BlockId} {block block' : Block} {name : String} {c : Option ConnectionId}

/-! ## One block -/

/-- The inputs of a block change, but not the variables it holds. -/
structure Reshaped (b : BlockId) (block block' : Block) (w w' : Workspace) : Prop where
  inOrder : w'.InOrder
  confined : Confined .all (· = b) w w'
  vars : w'.vars = w.vars
  count : w'.variableCount = w.variableCount
  old : w.blocks[b]? = some block
  new : w'.blocks[b]? = some block'
  kind : block'.kind = block.kind
  held : block'.vars = block.vars
  own : block'.own? = block.own?
  parent : block'.parent = block.parent

namespace Reshaped

variable (h : Reshaped b block block' w w')
include h

theorem other (hx : x ≠ b) : w'.blocks[x]? = w.blocks[x]? := by
  simpa [View.all] using h.confined.agree.block hx

theorem parentOf_iff {p : BlockId} : w'.ParentOf p x ↔ w.ParentOf p x := by
  by_cases hx : x = b
  · subst hx
    simp [ParentOf, h.old, h.new, h.parent]
  · simp [ParentOf, h.other hx]

theorem below_iff {a : BlockId} : w'.Below a x ↔ w.Below a x := by
  have heq : w'.ParentOf = w.ParentOf := funext fun p => funext fun x => propext h.parentOf_iff
  rw [Below, heq, Below]

theorem mem_top (hw : w.InOrder) : x ∈ w'.top ↔ x ∈ w.top := by
  rw [hw.structured.top.2, h.inOrder.structured.top.2]
  by_cases hx : x = b
  · subst hx
    simp [h.old, h.new, h.parent]
  · rw [h.other hx]

theorem housed (ho : w.Housed) : w'.Housed where
  tidy {x found} hx := by
    by_cases hne : x = b
    · subst hne
      cases h.new.symm.trans hx
      have htidy := ho.tidy h.old
      exact ⟨by rw [h.held, h.own, htidy.vars], by rw [h.own, h.kind, htidy.own]⟩
    · exact ho.tidy (h.other hne ▸ hx)
  var {x found v} hx hown := by
    rw [h.vars]
    by_cases hne : x = b
    · subst hne
      cases h.new.symm.trans hx
      rw [h.kind]
      exact ho.var h.old (h.own ▸ hown)
    · exact ho.var (h.other hne ▸ hx) hown
  holder {v found} hv := by
    obtain ⟨holder, hholder, hown⟩ := ho.holder (h.vars ▸ hv)
    by_cases hne : found.block = b
    · rw [hne] at hholder
      cases h.old.symm.trans hholder
      exact ⟨block', hne ▸ h.new, h.own.trans hown⟩
    · exact ⟨holder, (h.other hne).trans hholder, hown⟩
  index hv := by
    rw [h.count]
    exact ho.index (h.vars ▸ hv)

theorem owned (ho : w.Owned) : w'.Owned where
  toHoused := h.housed ho.toHoused
  unbound htyped _ _ hv := by
    refine ho.unbound ?_ (h.vars ▸ hv)
    rw [isTyped, ← h.confined.agree.options]
    exact htyped

theorem standing (hs : Standing Q w) (hQ : Q block') : Standing Q w' where
  inOrder := h.inOrder
  owned := h.owned hs.owned
  block {x found} hx := by
    by_cases hne : x = b
    · subst hne
      cases h.new.symm.trans hx
      exact hQ
    · exact hs.block (h.other hne ▸ hx)

end Reshaped

/-- A step at one block that leaves parents and bindings as they are: the tree of the block falls
behind, and no other. -/
theorem Kept.growAt (h : Kept Q tracked N w0 stale w) (hb : N b) (hs : Standing Q w')
    (hconfined : Confined .all (· = b) w w')
    (hvars : ∀ v : VariableId, w'.vars[v]?.map Variable.tie = w.vars[v]?.map Variable.tie)
    (hparentOf : ∀ {p x : BlockId}, w'.ParentOf p x ↔ w.ParentOf p x) :
    Kept Q tracked N w0 (fun x => stale x ∨ w'.Below x b) w' := by
  have hA : ∀ x, x = b → N x := fun x hx => hx ▸ hb
  have hgrown := h.grow hs (hconfined.coarsen (View.coarser_all _))
    ((hconfined.agree.mono hA).coarsen (View.coarser_all _))
    (h.parted.of_sub fun p x => hparentOf.1) hA
    (fun _ => local_of_grown h.inOrder h.owned hs.inOrder hvars fun p x => hparentOf.2)
  refine hgrown.relax ?_ ?_
  · rintro x - (hx | ⟨y, rfl, hy⟩)
    · exact .inl hx
    · exact .inr hy
  · rintro x (hx | hx)
    · exact h.inside x hx
    · exact (hgrown.parted.below hx).2 hb

theorem Kept.reshape (h : Kept Q tracked N w0 stale w) (hb : N b)
    (hreshaped : Reshaped b block block' w w') (hQ : Q block') :
    Kept Q tracked N w0 (fun x => stale x ∨ w'.Below x b) w' :=
  h.growAt hb (hreshaped.standing h.standing hQ) hreshaped.confined (by simp [hreshaped.vars])
    hreshaped.parentOf_iff

theorem Kept.refresh (h : Kept Q tracked N w0 stale w) {bs : List BlockId}
    (hbs : ∀ b ∈ bs, (∃ block, w.blocks[b]? = some block) → N b) (hrun : w.refresh bs = .ok w') :
    Kept Q tracked N w0 (fun r => stale r ∧ ∀ b ∈ bs, ¬ w'.Below r b) w' := by
  refine h.editWithin h.standing (.refl _ (fun _ => False) w) (fun _ => False.elim) h.parted
    ?_ hbs hrun
  rintro r - ⟨b, hb, -⟩
  exact hb.elim

/-! ## Many changes of one block -/

/-- Between the changes of a block: only its tree has fallen behind, and only what was below it has
changed. -/
structure Underway (Q : Block → Prop) (tracked : Prop) (N : BlockId → Prop) (w0 : Workspace)
    (stale : BlockId → Prop) (b r : BlockId) (w v : Workspace) : Prop where
  kept : Kept Q tracked N w0 (fun x => stale x ∨ x = r) v
  top : r ∈ v.top
  below : v.Below r b
  sub : ∀ {a x : BlockId}, v.Below a x → w.Below a x
  other : ∀ x, ¬ w.Below b x → v.blocks[x]?.map Block.innards = w.blocks[x]?.map Block.innards

namespace Underway

variable {v v' : Workspace}

theorem start (h : Kept Q tracked N w0 stale w) (hb : N b) (hblock : w.blocks[b]? = some block) :
    ∃ r, Underway Q tracked N w0 stale b r w w := by
  obtain ⟨r, -, hr, hbelow⟩ := h.inOrder.exists_root hblock
  refine ⟨r, h.relax (fun _ _ => .inl) ?_, hr, hbelow, id, fun _ _ => rfl⟩
  rintro x (hx | rfl)
  · exact h.inside x hx
  · exact (h.parted.below hbelow).2 hb

theorem reshape (h : Underway Q tracked N w0 stale b r w v) (hb : N b)
    (hreshaped : Reshaped b block block' v v') (hQ : Q block') :
    Underway Q tracked N w0 stale b r w v' := by
  have hkept := h.kept.reshape hb hreshaped hQ
  have htop : r ∈ v'.top := (hreshaped.mem_top h.kept.inOrder).2 h.top
  have hbelow := hreshaped.below_iff.2 h.below
  refine ⟨hkept.relax ?_ h.kept.inside, htop, hbelow, fun hx => h.sub (hreshaped.below_iff.1 hx),
    fun x hx => ?_⟩
  · rintro x hx ((hstale | rfl) | hxb)
    · exact .inl hstale
    · exact .inr rfl
    · exact .inr (hkept.inOrder.root_unique hx htop hxb hbelow)
  · rw [hreshaped.other, h.other x hx]
    rintro rfl
    exact hx .refl

/-- Refreshing the tree of the block ends the changes. -/
theorem finish (h : Underway Q tracked N w0 stale b r w v) (hb : N b)
    (hrun : v.refresh [b] = .ok v') :
    Kept Q tracked N w0 stale v' ∧ (∃ block, v'.blocks[b]? = some block) ∧
      ∀ x, ¬ w.Below b x → v'.blocks[x]?.map Block.innards = w.blocks[x]?.map Block.innards := by
  have hkept := h.kept.refresh (by simpa using fun _ _ => hb) hrun
  rw [(rest_refresh hrun).2]
  obtain ⟨root, hroot⟩ := h.kept.inOrder.live_of_top h.top
  refine ⟨hkept.relax ?_ fun x hx => h.kept.inside x (.inl hx), h.below.live hroot, h.other⟩
  rintro x - ⟨hx | rfl, hnot⟩
  · exact hx
  · exact absurd ((keeps_refresh hrun).below_iff.2 h.below) (hnot b List.mem_cons_self)

end Underway

/-! ## Appending inputs -/

/-- A new input has no fields. -/
theorem Reshaped.of_input (hw' : w'.InOrder) (hsockets : Sockets b w w1)
    (hold : w.blocks[b]? = some block) (hinput : input.fields = [])
    (h : w1.modifyBlock b (fun block => { block with inputs := block.inputs ++ [input] }) =
      .ok w') :
    Reshaped b block { block with inputs := block.inputs ++ [input] } w w' := by
  have hagree : AgreeOff .all (· = b) w1 w' := .modifyBlock h rfl
  obtain ⟨block', hblock', rfl⟩ := modifyBlock_eq_ok.1 h
  rw [hsockets.blocks, hold] at hblock'
  cases hblock'
  have hfields : Block.fields { block with inputs := block.inputs ++ [input] } = block.fields := by
    simp [Block.fields, hinput]
  exact ⟨hw', hsockets.confined.trans (.of_types hagree rfl), hsockets.vars, hsockets.count, hold,
    by simp, rfl, by rw [Block.vars, hfields, Block.vars],
    by rw [Block.own?, Block.field?, hfields]; rfl, rfl⟩

theorem InOrder.exists_appended (hw : w.InOrder) {kind : InputKind} {check : Check}
    (h : w.appendInput b kind name check = .ok (index, w')) :
    ∃ block connection, index = block.inputs.length ∧
      (name.isEmpty = false → block.input? name = none) ∧
      (kind = .value → ∃ c, connection = some c) ∧
      Reshaped b block { block with inputs := block.inputs ++ [{ name, kind, connection }] }
        w w' := by
  have hw' := hw.appendInput h
  have hsockets := sockets_createSocket hw b kind check
  have hvalue : kind = .value → ∃ c, (w.createSocket b kind check).1 = some c := by
    rintro rfl
    exact ⟨_, rfl⟩
  obtain ⟨block, hblock, hindex, hnone, hmodify⟩ := appendInput_cases h
  exact ⟨block, _, hindex, hnone, hvalue, .of_input hw' hsockets hblock rfl hmodify⟩

/-! ## Removing inputs -/

namespace InOrder

variable (hw : w.InOrder) (hblock : w.blocks[b]? = some block)
include hw hblock

/-- What is plugged into a socket of a block is a child of the block. -/
theorem parentOf_of_targetBlock? {c : ConnectionId} (hc : c ∈ block.inferiors)
    (ht : w.targetBlock? c = .ok (some x)) : w.ParentOf b x := by
  obtain ⟨j, hj, rfl, hinferior⟩ := (hw.mem_inferiors hblock).1 hc
  obtain ⟨socket, hsocket, rfl⟩ := joint_eq_some_iff.1 hj
  simp only [targetBlock?, getConnection_eq_ok.2 hsocket, ok_bind] at ht
  split at ht
  · rename_i t htarget
    obtain ⟨plug, hplug, ht⟩ := bind_eq_ok.1 ht
    rw [getConnection_eq_ok] at hplug
    cases ht
    have hsup := hw.formed.wired.isSuperior_target hj htarget (joint_of_connection hplug)
    rw [hinferior] at hsup
    exact parentOf_of_target hw.formed hplug hsup
      (hw.formed.wired.target_back hj htarget (joint_of_connection hplug)) hsocket
  · cases ht

theorem parentOf_of_occupant? (hc : ∀ d, c = some d → d ∈ block.inferiors)
    (ht : w.occupant? c = .ok (some x)) : w.ParentOf b x := by
  cases c with
  | none => cases ht
  | some c => exact hw.parentOf_of_targetBlock? hblock (hc c rfl) ht

theorem exists_occupant? (hc : ∀ d, c = some d → d ∈ block.inferiors) :
    ∃ x, w.occupant? c = .ok x ∧ ∀ y, x = some y → w.ParentOf b y := by
  cases c with
  | none => exact ⟨none, rfl, by simp⟩
  | some d =>
    obtain ⟨j, hj, -⟩ := (hw.mem_inferiors hblock).1 (hc d rfl)
    obtain ⟨connection, hconnection, -⟩ := joint_eq_some_iff.1 hj
    obtain ⟨x, hx⟩ := hw.exists_targetBlock? hconnection
    exact ⟨x, hx, fun y hy => hw.parentOf_of_occupant? hblock hc (hx.trans (congrArg _ hy))⟩

theorem exists_next? : ∃ x, w.next? b = .ok x ∧ ∀ y, x = some y → w.ParentOf b y := by
  rw [next?, getBlock_eq_ok.2 hblock, ok_bind]
  exact hw.exists_occupant? hblock fun d hd => by simp [Block.inferiors, hd]

end InOrder

/-- A stack can be walked along; each block of it is above the ones that follow. -/
theorem InOrder.exists_stackWithin (hw : w.InOrder) (count : Nat) :
    ∀ start : Option BlockId, (∀ x, start = some x → ∃ block, w.blocks[x]? = some block) →
      ∃ stack, w.stackWithin count start = .ok stack ∧
        (0 < count → ∀ x, start = some x → x ∈ stack) ∧
        (∀ x ∈ stack, (∃ y, start = some y ∧ w.Below y x) ∧ ∃ block, w.blocks[x]? = some block) ∧
        stack.Pairwise (TransGen w.ParentOf) := by
  induction count with
  | zero => exact fun _ _ => ⟨[], rfl, by simp, by simp, .nil⟩
  | succ count ih =>
    intro start hstart
    cases start with
    | none => exact ⟨[], rfl, by simp, by simp, .nil⟩
    | some x =>
      obtain ⟨block, hblock⟩ := hstart x rfl
      obtain ⟨below, hbelow, hparent⟩ := hw.exists_next? hblock
      obtain ⟨stack, hstack, -, hmem, hpairwise⟩ := ih below fun y hy =>
        (hparent y hy).imp fun _ => And.left
      have hunder : ∀ y ∈ stack, TransGen w.ParentOf x y := fun y hy => by
        obtain ⟨⟨z, hz, hzy⟩, -⟩ := hmem y hy
        exact .head' (hparent z hz) hzy
      refine ⟨x :: stack, by simp only [stackWithin, hbelow, ok_bind, hstack, pure_eq_ok], by simp,
        fun y hy => ?_, List.pairwise_cons.2 ⟨hunder, hpairwise⟩⟩
      rcases List.mem_cons.1 hy with rfl | hy
      · exact ⟨⟨y, rfl, .refl⟩, block, hblock⟩
      · exact ⟨⟨x, rfl, (hunder y hy).to_reflTransGen⟩, (hmem y hy).2⟩

/-- The stack that is plugged into an input can be walked along. -/
theorem InOrder.exists_occupants (hw : w.InOrder) (hblock : w.blocks[b]? = some block)
    (name : String) :
    ∃ target stack, w.occupant? (block.socket? name) = .ok target ∧
      w.stackWithin (w.depthBound + 1) target = .ok stack ∧ (∀ x, target = some x → x ∈ stack) ∧
      (∀ x ∈ stack, TransGen w.ParentOf b x ∧ ∃ block, w.blocks[x]? = some block) ∧
      stack.Pairwise (TransGen w.ParentOf) := by
  obtain ⟨target, htarget, hparent⟩ := hw.exists_occupant? hblock (c := block.socket? name)
    fun d hd => Block.mem_inferiors_of_socket? hd
  obtain ⟨stack, hstack, hhead, hmem, hpairwise⟩ := hw.exists_stackWithin (w.depthBound + 1) target
    fun y hy => (hparent y hy).imp fun _ => And.left
  refine ⟨target, stack, htarget, hstack, hhead (Nat.succ_pos _), fun x hx => ?_, hpairwise⟩
  obtain ⟨⟨y, hy, hyx⟩, hlive⟩ := hmem x hx
  exact ⟨.head' (hparent y hy) hyx, hlive⟩

/-- Disposing of a block below a block keeps what stands above it. -/
theorem Underway.dispose (hQ : Steady Q) (h : Underway Q tracked N w0 stale b r w v) (hx : N x)
    (hunder : w.Below b x) (hnot : ¬ v.Below x b) (hrun : v.dispose x false = .ok v') :
    Underway Q tracked N w0 stale b r w v' ∧
      v'.blocks[b]?.map Block.innards = v.blocks[b]?.map Block.innards ∧ Trimmed (· = x) v v' := by
  obtain ⟨hkept, -, htrimmed⟩ := h.kept.dispose hQ hx hrun
  have htrimmed := htrimmed rfl
  have hb : ∀ g, g = x → ¬ v.Below g b := fun g hg => hg ▸ hnot
  have hr : ∀ g, g = x → ¬ v.Below g r := fun g hg hgr => hb g hg (hgr.trans h.below)
  have htop : r ∈ v'.top := by
    obtain ⟨found, hfound, hparent⟩ := (h.kept.inOrder.structured.top.2 r).1 h.top
    obtain ⟨new, hnew, -⟩ := exists_of_map_eq ((htrimmed.rest r hr).1) hfound
    refine (hkept.inOrder.structured.top.2 r).2 ⟨new, hnew, ?_⟩
    cases hp : new.parent with
    | none => rfl
    | some p =>
      obtain ⟨old, hold, hp'⟩ := htrimmed.parentOf p r ⟨new, hnew, hp⟩
      cases hfound.symm.trans hold
      cases hparent.symm.trans hp'
  refine ⟨⟨hkept, htop, htrimmed.below_of_not hb h.below, fun hy => h.sub (htrimmed.below hy),
    fun y hy => ?_⟩, (htrimmed.rest b hb).1, htrimmed⟩
  exact (htrimmed.rest y fun g hg hgy => hy (hunder.trans (h.sub (hg ▸ hgy)))).1.trans
    (h.other y hy)

theorem Underway.disposeAll (hQ : Steady Q) (h : Underway Q tracked N w0 stale b r w v)
    {l : List BlockId} (hN : ∀ x ∈ l, N x) (hunder : ∀ x ∈ l, w.Below b x)
    (hnot : ∀ x ∈ l, ¬ v.Below x b) (hrun : l.foldlM (fun v x => v.dispose x false) v = .ok v') :
      Underway Q tracked N w0 stale b r w v' ∧
      v'.blocks[b]?.map Block.innards = v.blocks[b]?.map Block.innards := by
  obtain ⟨h', hinnards, -⟩ :=
    foldlM_induction (P := fun u => Underway Q tracked N w0 stale b r w u ∧
      u.blocks[b]?.map Block.innards = v.blocks[b]?.map Block.innards ∧ ∀ x, u.Below x b →
      v.Below x b)
    (fun x hx u u' hu hstep => by
      obtain ⟨h', hinnards, htrimmed⟩ := hu.1.dispose hQ (hN x hx) (hunder x hx)
        (fun hb => hnot x hx (hu.2.2 x hb)) hstep
      exact ⟨h', hinnards.trans hu.2.1, fun y hy => hu.2.2 y (htrimmed.below hy)⟩)
        ⟨h, rfl, fun _ => id⟩ hrun
  exact ⟨h', hinnards⟩

theorem name_of_inputIndex (hblock : w.blocks[b]? = some block)
    (h : w.inputIndex b name = .ok index) : block.inputs[index]?.map Input.name = some name := by
  simp only [inputIndex, getBlock_eq_ok.2 hblock, ok_bind] at h
  split at h
  · rename_i found hfound
    cases h
    obtain ⟨hlt, hname, -⟩ := List.findIdx?_eq_some_iff_getElem.1 hfound
    rw [List.getElem?_eq_getElem hlt, Option.map_some, beq_iff_eq.1 hname]
  · cases h

/-- A list block with a number of items. -/
def HasItems (w : Workspace) (b : BlockId) (n : Nat) : Prop :=
  ∃ block, w.blocks[b]? = some block ∧ block.kind = .listCreateWith ∧ block.itemNames.length = n

/-- An input of a block without variables goes, and its connection with it. -/
theorem InOrder.drop (hw : w.InOrder) (hblock : w.blocks[b]? = some block) (htidy : block.Tidy)
    (hkind : ¬ (block.kind.isBinder = true ∨ block.kind = .variablesGet))
    (hinput : block.inputs[index]? = some input)
    (h1 : w.modifyBlock b (fun block => { block with inputs := block.inputs.eraseIdx index }) =
      .ok w1)
    (h2 : input.connection.toList.foldlM disposeConnection w1 = .ok w') :
    Reshaped b block { block with inputs := block.inputs.eraseIdx index } w w' := by
  have hw' := hw.dropInput hblock hinput h1 (.refl w1) h2
  have hagree1 : AgreeOff .all (· = b) w w1 := .modifyBlock h1 rfl
  obtain ⟨block', hblock', rfl⟩ := modifyBlock_eq_ok.1 h1
  cases hblock.symm.trans hblock'
  obtain ⟨hagree2, heq⟩ := disposeConnections_spec (A := (· = b)) (fun c hc old hold => by
    have hmem : c ∈ block.connections := by
      refine List.mem_append_left _ (List.mem_append_right _ (List.mem_filterMap.2 ⟨input, ?_, ?_⟩))
      · exact List.mem_of_getElem? hinput
      · exact Option.mem_toList.1 hc
    obtain ⟨connection, hconnection, hown⟩ := hw.structured.owned hblock hmem
    cases hold.symm.trans hconnection
    exact hown) h2
  have hplain := htidy.held_eq_none hkind
  have hplain' : ∀ field ∈ Block.fields { block with inputs := block.inputs.eraseIdx index },
      field.value.heldVariable? = none := fun field hfield =>
      hplain field (Block.mem_fields_of_eraseIdx hfield)
  refine ⟨hw', .of_types (hagree1.trans hagree2) (by rw [heq]), by rw [heq], by rw [heq], hblock,
    by rw [heq]; simp, rfl, ?_, ?_, rfl⟩
  · rw [Block.vars_eq_nil hplain', Block.vars_eq_nil hplain]
  · rw [Block.own?_eq_none hplain', Block.own?_eq_none hplain]

variable (hQ : Steady Q)
include hQ

theorem Underway.appendItem (h : Underway Q tracked N w0 stale b r w v) (hb : N b)
    (hitems : v.HasItems b n)
    (hrun : v.appendInput b .value (Kind.itemName n) none = .ok (index, v')) :
    Underway Q tracked N w0 stale b r w v' ∧ v'.HasItems b (n + 1) := by
  obtain ⟨block, connection, -, hnone, hvalue, hreshaped⟩ := h.kept.inOrder.exists_appended hrun
  obtain ⟨c, rfl⟩ := hvalue rfl
  obtain ⟨block', hblock', hkind, rfl⟩ := hitems
  cases hreshaped.old.symm.trans hblock'
  have hnone := hnone (by simp [Kind.itemName, Kind.itemMark])
  refine ⟨h.reshape hb hreshaped (hQ.grown c hkind hnone (h.kept.standing.block hblock')), _,
    hreshaped.new, hkind, ?_⟩
  exact Block.length_itemNames_append block _ _

theorem Underway.removeItem (h : Underway Q tracked N w0 stale b r w v) (hb : N b)
    (hitems : v.HasItems b (n + 1)) (hrun : v.removeInput b (Kind.itemName n) = .ok v') :
    Underway Q tracked N w0 stale b r w v' ∧ v'.HasItems b n := by
  obtain ⟨block, hblock, hkind, hlength⟩ := hitems
  simp only [removeInput, inputTarget?, inputConnection?_eq hblock, bind_eq_ok, ok_bind,
    getBlock_eq_ok] at hrun
  obtain ⟨index, hindex, target, htarget, stack, hstack, v1, h1, block1, hblock1, v2, h2, v3, h3,
    hrun⟩ := hrun
  obtain ⟨target', stack', htarget', hstack', -, hmem, -⟩ :=
    h.kept.inOrder.exists_occupants hblock (Kind.itemName n)
  cases htarget.symm.trans htarget'
  cases hstack.symm.trans hstack'
  have hbelow : ∀ x ∈ stack.reverse, TransGen v.ParentOf b x := fun x hx =>
    (hmem x (List.mem_reverse.1 hx)).1
  obtain ⟨h', hinnards⟩ := h.disposeAll hQ
    (fun x hx => (h.kept.parted.below (hbelow x hx).to_reflTransGen).1 hb)
    (fun x hx => h.sub (hbelow x hx).to_reflTransGen)
    (fun x hx hxb => h.kept.inOrder.acyclic b ((hbelow x hx).trans_left hxb)) h1
  rw [hblock, hblock1] at hinnards
  have hinnards : block1.innards = block.innards := Option.some.inj hinnards
  have hkind1 : block1.kind = .listCreateWith := (Block.kind_of_innards hinnards).trans hkind
  have hlength1 : block1.itemNames.length = n + 1 :=
    by rw [Block.itemNames_of_innards hinnards, hlength]
  obtain ⟨old, hold, hname⟩ := Option.map_eq_some_iff.1 (name_of_inputIndex hblock hindex)
  obtain ⟨input, hinput, hessence⟩ := exists_of_map_eq (Block.input_of_innards hinnards index) hold
  have hname : input.name = Kind.itemName n := (congrArg Input.name hessence).trans hname
  have hnot : ¬ (block1.kind.isBinder = true ∨ block1.kind = .variablesGet) :=
    by simp [hkind1, Kind.isBinder]
  have hheld : input.fields.filterMap (·.value.heldVariable?) = [] :=
    List.filterMap_eq_nil_iff.2 fun field hfield =>
      (h'.kept.owned.tidy hblock1).held_eq_none hnot field
        (List.mem_flatMap.2 ⟨input, List.mem_of_getElem? hinput, hfield⟩)
  rw [hinput, Option.getD_some, hheld] at h3
  cases h3
  rw [hinput, Option.getD_some] at hrun
  have hreshaped := h'.kept.inOrder.drop hblock1 (h'.kept.owned.tidy hblock1) hnot hinput h2 hrun
  refine ⟨h'.reshape hb hreshaped ?_, _, hreshaped.new, hkind1, ?_⟩
  · refine hQ.shrunk hkind1 hinput ?_ (by omega) (h'.kept.standing.block hblock1)
    rw [hname, hlength1, Nat.add_sub_cancel]
  · have hone := Block.length_itemNames_eraseIdx hinput hname
    omega

theorem Underway.appendItems (hb : N b) :
    ∀ {n : Nat} {v v' : Workspace}, Underway Q tracked N w0 stale b r w v → v.HasItems b n →
      ((List.range k).map (n + ·)).foldlM (fun w i => do
        return (← w.appendInput b .value (Kind.itemName i) none).2) v = .ok v' →
      Underway Q tracked N w0 stale b r w v' ∧ v'.HasItems b (n + k) := by
  induction k with
  | zero =>
    intro n v v' h hitems hrun
    cases hrun
    exact ⟨h, hitems⟩
  | succ k ih =>
    intro n v v' h hitems hrun
    simp only [map_range_succ, List.foldlM_cons, bind_eq_ok] at hrun
    obtain ⟨v1, ⟨⟨index, v2⟩, h2, h1⟩, hrun⟩ := hrun
    cases h1
    obtain ⟨h', hitems'⟩ := h.appendItem hQ hb hitems h2
    obtain ⟨h'', hitems''⟩ := ih h' hitems' hrun
    exact ⟨h'', by rwa [Nat.add_assoc, Nat.add_comm 1] at hitems''⟩

theorem Underway.removeItems (hb : N b) :
    ∀ {v v' : Workspace}, Underway Q tracked N w0 stale b r w v → v.HasItems b (n + k) →
      ((List.range k).map (n + ·)).reverse.foldlM (fun w i => w.removeInput b (Kind.itemName i)) v =
        .ok v' →
      Underway Q tracked N w0 stale b r w v' ∧ v'.HasItems b n := by
  induction k with
  | zero =>
    intro v v' h hitems hrun
    cases hrun
    exact ⟨h, hitems⟩
  | succ k ih =>
    intro v v' h hitems hrun
    rw [reverse_map_range_succ, List.foldlM_cons, bind_eq_ok] at hrun
    obtain ⟨v1, h1, hrun⟩ := hrun
    obtain ⟨h', hitems'⟩ := h.removeItem hQ hb hitems h1
    exact ih h' hitems' hrun

/-- Before the types are brought up to date, the list has its items and only its tree is behind. -/
theorem Kept.underway_setItemCount (h : Kept Q tracked N w0 stale w) (hb : N b)
    (hrun : w.setItemCount b count = .ok w') :
    ∃ r v, Underway Q tracked N w0 stale b r w v ∧ v.HasItems b count ∧ v.refresh [b] = .ok w' := by
  simp only [Workspace.setItemCount, bind_eq_ok, getBlock_eq_ok, require_eq_ok] at hrun
  obtain ⟨block, hblock, _, hkind, w1, h1, w2, h2, hrun⟩ := hrun
  obtain ⟨r, hstart⟩ := Underway.start h hb hblock
  obtain ⟨hunderway1, hitems1⟩ :=
    hstart.appendItems hQ hb ⟨block, hblock, by simpa using hkind, rfl⟩ h1
  have hsum : block.itemNames.length + (count - block.itemNames.length) =
      count + (block.itemNames.length - count) := by omega
  obtain ⟨hunderway2, hitems2⟩ := hunderway1.removeItems hQ hb (hsum ▸ hitems1) h2
  exact ⟨r, w2, hunderway2, hitems2, hrun⟩

theorem Kept.setItemCount (h : Kept Q tracked N w0 stale w) (hb : N b)
    (hrun : w.setItemCount b count = .ok w') :
    Kept Q tracked N w0 stale w' ∧ (∃ block, w'.blocks[b]? = some block) ∧
      ∀ x, ¬ w.Below b x → w'.blocks[x]?.map Block.innards = w.blocks[x]?.map Block.innards := by
  obtain ⟨r, v, hunderway, -, hrefresh⟩ := h.underway_setItemCount hQ hb hrun
  exact hunderway.finish hb hrefresh

end Workspace

end BlockGraph
