import BlockGraph.Proofs.Scope.Removal
import BlockGraph.Proofs.Totality.Disposal

/-!
# Changing the items of a list ends

Before an input is removed, the stack plugged into it is disposed of from its lower end.  A block of
the stack is still there when its turn comes, since only blocks below it are gone by then
(`Serviceable.exists_disposeAll`).  Nothing is plugged into the input in the end, so its socket is
free and the input can go (`Serviceable.exists_removeItem`).

The items of a list are named by the numbers below their count, each once and without a gap, in
whatever order they stand (`Block.Laid.perm_itemNames`): a new item has a name that is free, and an
item to be removed is there.
-/

namespace BlockGraph

open Relation

namespace Block

variable {block : Block}

/-- An input that is there is found by its name. -/
theorem exists_inputIndex? {name : String} (h : ∃ input ∈ block.inputs, input.name = name) :
    ∃ index input, block.inputIndex? name = some index ∧ block.inputs[index]? = some input ∧
      block.input? name = some input := by
  obtain ⟨input, hinput, rfl⟩ := h
  cases hindex : block.inputIndex? input.name with
  | none => simpa using List.findIdx?_eq_none_iff.1 hindex input hinput
  | some index =>
    obtain ⟨hlt, hname, hbefore⟩ := List.findIdx?_eq_some_iff_getElem.1 hindex
    refine ⟨index, _, rfl, List.getElem?_eq_getElem hlt,
      List.find?_eq_some_iff_getElem.2 ⟨hname, index, hlt, rfl, ?_⟩⟩
    exact fun j hj => by simpa using hbefore j hj

/-- The items of a list are numbered without a gap. -/
theorem Laid.perm_itemNames (h : block.Laid) (hkind : block.kind = .listCreateWith) :
    block.itemNames.Perm ((List.range block.itemNames.length).map Kind.itemName) := by
  have hnames := (h.inputs.map Prod.fst).filter fun name => Kind.itemMark.isPrefixOf name
  have hitems : ∀ name ∈ (List.range block.itemNames.length).map Kind.itemName,
      Kind.itemMark.isPrefixOf name = true := by
    intro name hname
    obtain ⟨i, -, rfl⟩ := List.mem_map.1 hname
    exact Kind.isPrefixOf_itemName i
  rw [hkind, Kind.plannedInputs, if_pos rfl, List.map_cons,
    List.filter_cons_of_neg (by decide +kernel), List.map_map, List.map_map] at hnames
  exact hnames.trans (.of_eq (List.filter_eq_self.2 hitems))

/-- A list has an input for an item exactly if the number of the item is below the count. -/
theorem Laid.exists_item_iff (h : block.Laid) (hkind : block.kind = .listCreateWith) (i : Nat) :
    (∃ input ∈ block.inputs, input.name = Kind.itemName i) ↔ i < block.itemNames.length := by
  have hmem : (∃ input ∈ block.inputs, input.name = Kind.itemName i) ↔
      Kind.itemName i ∈ block.itemNames := by
    simp [itemNames, Kind.isPrefixOf_itemName]
  rw [hmem, (h.perm_itemNames hkind).mem_iff, List.mem_map]
  constructor
  · rintro ⟨j, hj, heq⟩
    exact Kind.itemName_inj heq ▸ List.mem_range.1 hj
  · exact fun hi => ⟨i, List.mem_range.2 hi, rfl⟩

end Block

namespace Workspace

variable {w w0 w' v : Workspace} {Q : Block → Prop} {tracked : Prop} {stale N : BlockId → Prop}
  {b r x : BlockId} {block block' : Block} {l : List BlockId} {n k : Nat}

/-- Nothing is plugged in by disposal, and what is disposed of is not. -/
theorem InOrder.plugs_disposeAll (hw : w.InOrder)
    (h : l.foldlM (fun v x => v.dispose x false) w = .ok w') {c : ConnectionId}
    (hx : w'.Plugs x c) : w.Plugs x c ∧ x ∉ l := by
  induction l generalizing w with
  | nil =>
    cases h
    exact ⟨hx, List.not_mem_nil⟩
  | cons y l ih =>
    rw [List.foldlM_cons, bind_eq_ok] at h
    obtain ⟨w1, h1, h⟩ := h
    obtain ⟨block, hblock, -⟩ := bind_eq_ok.1 h1
    obtain ⟨_, trees, w2, w3, -, -, -, -, huprooted⟩ :=
      hw.dispose_cases (getBlock_eq_ok.1 hblock) h1
    obtain ⟨hx, hnot⟩ := ih (checkClosed_inOrder.dispose hw h1) h
    obtain ⟨hremoved, hx⟩ := (huprooted.plugs_iff x c).1 hx
    refine ⟨((huprooted.apart.only hx).resolve_right nofun).1, fun hmem => ?_⟩
    rcases List.mem_cons.1 hmem with rfl | hmem
    · exact hremoved List.mem_cons_self
    · exact hnot hmem

/-- A socket is free when what was plugged into it has been disposed of. -/
theorem InOrder.free_of_disposeAll (hw : w.InOrder) (hw' : w'.InOrder)
    (h : l.foldlM (fun v x => v.dispose x false) w = .ok w') (hblock : w.blocks[b]? = some block)
    (hblock' : w'.blocks[b]? = some block') (hinnards : block'.innards = block.innards)
    {c : ConnectionId} (hc : c ∈ block.inferiors) {target : Option BlockId}
    (htarget : w.targetBlock? c = .ok target) (hmem : ∀ x, target = some x → x ∈ l) :
    ∃ connection, w'.connections[c]? = some connection ∧ connection.target = none := by
  obtain ⟨j, hj, -, hinferior⟩ := (hw'.mem_inferiors hblock').1
    (Block.inferiors_of_innards hinnards ▸ hc)
  obtain ⟨connection, hconnection, rfl⟩ := joint_eq_some_iff.1 hj
  refine ⟨connection, hconnection, hw'.target_eq_none hconnection (fun hsup => ?_) fun x hx => ?_⟩
  · cases hsup.symm.trans hinferior
  · obtain ⟨hx, hnot⟩ := hw.plugs_disposeAll h hx
    cases htarget.symm.trans ((hw.targetBlock?_eq_some_iff hblock hc).2 hx)
    exact hnot (hmem x rfl)

/-- An input with a free socket can be taken out, with the variable that it may hold. -/
theorem Housed.exists_eraseInput (ho : w.Housed) (hblock : w.blocks[b]? = some block) {index : Nat}
    {input : Input} (hinput : block.inputs[index]? = some input)
    (hfree : ∀ c ∈ input.connection.toList, ∃ connection, w.connections[c]? = some connection ∧
      connection.target = none) :
    ∃ w1 w2 w3, w.modifyBlock b
        (fun block => { block with inputs := block.inputs.eraseIdx index }) = .ok w1 ∧
      (input.fields.filterMap (·.value.heldVariable?)).foldlM disposeVariable w1 = .ok w2 ∧
      input.connection.toList.foldlM disposeConnection w2 = .ok w3 := by
  have hheld : (input.fields.filterMap (·.value.heldVariable?)).Sublist block.vars :=
    .filterMap _ (List.sublist_flatten_of_mem (List.mem_map_of_mem (List.mem_of_getElem? hinput)))
  obtain ⟨w1, hw1, hvars, hconnections1⟩ : ∃ w1, w.modifyBlock b
      (fun block => { block with inputs := block.inputs.eraseIdx index }) = .ok w1 ∧
      w1.vars = w.vars ∧ w1.connections = w.connections :=
    ⟨_, modifyBlock_eq_ok.2 ⟨block, hblock, rfl⟩, rfl, rfl⟩
  obtain ⟨w2, hw2⟩ := ho.exists_disposeVariables hblock hvars hheld
  have hconnections : w2.connections = w.connections := by
    rw [(drops_disposeVariables hw2).rest]
    exact hconnections1
  obtain ⟨w3, hw3⟩ := exists_disposeConnections (w := w2) (by cases input.connection <;> simp)
    (hconnections ▸ hfree)
  exact ⟨w1, w2, w3, hw1, hw2, hw3⟩

namespace Serviceable

variable (hQ : Serviceable Q)
include hQ

/-- Blocks below a block can be disposed of, if none is above one that comes after it. -/
theorem exists_disposeAll (h : Underway Q tracked N w0 stale b r w v) (hN : ∀ x ∈ l, N x)
    (hunder : ∀ x ∈ l, w.Below b x ∧ ¬ v.Below x b)
    (hlive : ∀ x ∈ l, ∃ block, v.blocks[x]? = some block)
    (hpairwise : l.Pairwise fun x y => ¬ v.Below x y) :
    ∃ v', l.foldlM (fun v x => v.dispose x false) v = .ok v' := by
  induction l generalizing v with
  | nil => exact ⟨v, rfl⟩
  | cons x l ih =>
    obtain ⟨hfirst, hpairwise⟩ := List.pairwise_cons.1 hpairwise
    obtain ⟨block, hblock⟩ := hlive x List.mem_cons_self
    have hx := hN x List.mem_cons_self
    obtain ⟨hbelow, hnot⟩ := hunder x List.mem_cons_self
    obtain ⟨v1, hdispose⟩ := hQ.exists_dispose h.kept hx hblock false
    obtain ⟨h1, -, htrimmed⟩ := h.dispose hQ.toSteady hx hbelow hnot hdispose
    rw [List.foldlM_cons, hdispose]
    refine ih h1 (fun y hy => hN y (List.mem_cons_of_mem x hy)) (fun y hy => ?_) (fun y hy => ?_)
      (hpairwise.imp fun hxy hbelow => hxy (htrimmed.below hbelow))
    · exact (hunder y (List.mem_cons_of_mem x hy)).imp_right fun hnot hbelow =>
        hnot (htrimmed.below hbelow)
    · obtain ⟨found, hfound⟩ := hlive y (List.mem_cons_of_mem x hy)
      obtain ⟨found', hfound', -⟩ :=
        exists_of_map_eq (htrimmed.rest y fun g hg => hg ▸ hfirst y hy).1 hfound
      exact ⟨found', hfound'⟩

/-- The last item of a list can be removed. -/
theorem exists_removeItem (h : Underway Q tracked N w0 stale b r w v) (hb : N b)
    (hitems : v.HasItems b (n + 1)) :
    ∃ v', v.removeInput b (Kind.itemName n) = .ok v' := by
  obtain ⟨block, hblock, hkind, hlength⟩ := hitems
  have hw := h.kept.inOrder
  obtain ⟨index, input, hindex, hinput, hfind⟩ := Block.exists_inputIndex?
    (((hQ.laid (h.kept.standing.block hblock)).exists_item_iff hkind n).2 (by omega))
  have hsocket : block.socket? (Kind.itemName n) = input.connection := by
    simp [Block.socket?, hfind]
  obtain ⟨target, stack, htarget, hstack, hhead, hmem, hpairwise⟩ :=
    hw.exists_occupants hblock (Kind.itemName n)
  have hbelow : ∀ x ∈ stack.reverse, TransGen v.ParentOf b x := fun x hx =>
    (hmem x (List.mem_reverse.1 hx)).1
  have hN : ∀ x ∈ stack.reverse, N x := fun x hx =>
    (h.kept.parted.below (hbelow x hx).to_reflTransGen).1 hb
  have hunder : ∀ x ∈ stack.reverse, w.Below b x ∧ ¬ v.Below x b := fun x hx =>
    ⟨h.sub (hbelow x hx).to_reflTransGen, fun hxb => hw.acyclic b ((hbelow x hx).trans_left hxb)⟩
  obtain ⟨v1, hv1⟩ :=
    hQ.exists_disposeAll h hN hunder (fun x hx => (hmem x (List.mem_reverse.1 hx)).2)
      (List.pairwise_reverse.2
        (hpairwise.imp fun {x y} hxy (hyx : v.Below y x) => hw.acyclic x (hxy.trans_left hyx)))
  obtain ⟨h1, hinnards⟩ := h.disposeAll hQ.toSteady hN (fun x hx => (hunder x hx).1)
    (fun x hx => (hunder x hx).2) hv1
  obtain ⟨block1, hblock1, hinnards⟩ := exists_of_map_eq hinnards hblock
  obtain ⟨input1, hinput1, hessence⟩ :=
    exists_of_map_eq (Block.input_of_innards hinnards index) hinput
  have hconnection : input1.connection = input.connection := (congrArg Input.connection hessence :)
  obtain ⟨v2, v3, v4, hv2, hv3, hv4⟩ :=
    h1.kept.owned.exists_eraseInput hblock1 hinput1 fun c hc => by
      rw [hconnection, Option.mem_toList] at hc
      rw [hsocket, hc] at htarget
      exact hw.free_of_disposeAll h1.kept.inOrder hv1 hblock hblock1 hinnards
        (Block.mem_inferiors_of_socket? (hsocket.trans hc)) htarget
        fun x hx => List.mem_reverse.2 (hhead x hx)
  refine ⟨v4, ?_⟩
  simp only [removeInput, inputIndex, getBlock_eq_ok.2 hblock, hindex, inputTarget?,
    inputConnection?_eq hblock, htarget, hstack, hv1, getBlock_eq_ok.2 hblock1, hinput1, hv2, hv3,
    ok_bind, pure_eq_ok, Option.getD_some, hv4]

theorem exists_appendItems (hb : N b) :
    ∀ {n : Nat} {v : Workspace}, Underway Q tracked N w0 stale b r w v → v.HasItems b n →
      ∃ v', ((List.range k).map (n + ·)).foldlM (fun w i => do
        return (← w.appendInput b .value (Kind.itemName i) none).2) v = .ok v' := by
  induction k with
  | zero => exact fun _ _ => ⟨_, rfl⟩
  | succ k ih =>
    intro n v h hitems
    obtain ⟨block, hblock, hkind, hlength⟩ := id hitems
    have hnone : block.input? (Kind.itemName n) = none :=
      List.find?_eq_none.2 fun input hinput hname => by
        have hlt := ((hQ.laid (h.kept.standing.block hblock)).exists_item_iff hkind n).1
          ⟨input, hinput, by simpa using hname⟩
        omega
    obtain ⟨index, v1, hv1⟩ := exists_appendInput hblock .value none fun _ => hnone
    obtain ⟨h', hitems'⟩ := h.appendItem hQ.toSteady hb hitems hv1
    obtain ⟨v', hv'⟩ := ih h' hitems'
    exact ⟨v', by rw [map_range_succ, List.foldlM_cons, hv1]; exact hv'⟩

theorem exists_removeItems (hb : N b) :
    ∀ {v : Workspace}, Underway Q tracked N w0 stale b r w v → v.HasItems b (n + k) →
      ∃ v', ((List.range k).map (n + ·)).reverse.foldlM
      (fun w i => w.removeInput b (Kind.itemName i)) v = .ok v' := by
  induction k with
  | zero => exact fun _ _ => ⟨_, rfl⟩
  | succ k ih =>
    intro v h hitems
    obtain ⟨v1, hv1⟩ := hQ.exists_removeItem h hb (n := n + k) hitems
    obtain ⟨h', hitems'⟩ := h.removeItem hQ.toSteady hb hitems hv1
    obtain ⟨v', hv'⟩ := ih h' hitems'
    exact ⟨v', by rw [reverse_map_range_succ, List.foldlM_cons, hv1, ok_bind, hv']⟩

/-- A list can be given any number of items. -/
theorem exists_setItemCount (h : Kept Q tracked N w0 stale w) (hb : N b)
    (hblock : w.blocks[b]? = some block) (hkind : block.kind = .listCreateWith) (count : Nat) :
    ∃ w', w.setItemCount b count = .ok w' := by
  obtain ⟨r, hstart⟩ := Underway.start h hb hblock
  have hitems : w.HasItems b block.itemNames.length := ⟨block, hblock, hkind, rfl⟩
  obtain ⟨w1, hw1⟩ := hQ.exists_appendItems hb hstart hitems (k := count - block.itemNames.length)
  obtain ⟨h1, hitems1⟩ := hstart.appendItems hQ.toSteady hb hitems hw1
  have hsum : block.itemNames.length + (count - block.itemNames.length) =
      count + (block.itemNames.length - count) := by omega
  rw [hsum] at hitems1
  obtain ⟨w2, hw2⟩ := hQ.exists_removeItems hb h1 hitems1
  obtain ⟨h2, -⟩ := h1.removeItems hQ.toSteady hb hitems1 hw2
  obtain ⟨w', hrefresh⟩ := h2.kept.tended.exists_refresh hQ.equipped [b] fun _ _ hfalse =>
    hfalse.elim
  refine ⟨w', ?_⟩
  simp only [Workspace.setItemCount, getBlock_eq_ok.2 hblock, hkind, ok_bind, require,
    beq_self_eq_true, if_true, hw1, hw2, hrefresh]

end Serviceable

end Workspace

end BlockGraph
