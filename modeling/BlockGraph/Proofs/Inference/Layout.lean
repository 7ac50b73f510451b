import Std.Data.String.ToNat
import BlockGraph.Proofs.Workspace.Trees

/-!
# Blocks that keep their layout

A kind's signature names the inputs that it types, and the layout of a new block has them.  Edits
can add, remove and rename nothing without breaking that; `Workspace.KeepsLayout` says that a block
still has the inputs of its kind in some order (a list any number of items), the output, and a
variable of its own if the kind has one.

For such a block the signature and the sockets correspond: `Block.Declares` says which scheme the
kind gives to which connection, and every value connection is given exactly one
(`InOrder.exists_declares`, `InOrder.declares_unique`).
-/

namespace BlockGraph

variable {c : ConnectionId} {input : Input} {k : Kind} {ty ty' : Ty} {name : String} {block : Block}

namespace Kind

/-- The scheme that a kind gives to an input with a name. -/
def InputType (k : Kind) (name : String) (ty : Ty) : Prop :=
  (name, ty) ∈ k.signature.inputs ∨ (itemMark.isPrefixOf name = true ∧ k.signature.items = some ty)

/-- The inputs of a block of a kind, for a list with a number of items. -/
def plannedInputs (k : Kind) (items : Nat) : List (String × InputKind) :=
  if k = .listCreateWith then
    ("HEAD", .dummy) :: (List.range items).map fun i => (itemName i, .value)
  else k.layout.inputs.map fun plan => (plan.name, plan.kind)

def hasOutput (k : Kind) : Bool :=
  match k.layout.stem with
  | .output _ => true
  | .statement => false

/-- Whether blocks of a kind declare a variable. -/
def isBinder (k : Kind) : Bool := k == .lambda || k == .letIn

/-! ## What the tables have in common -/

theorem isSome_output (k : Kind) : k.signature.output.isSome = k.hasOutput := by
  cases k <;> rfl

theorem isSome_binder (k : Kind) : k.signature.binder.isSome = k.isBinder := by
  cases k <;> rfl

theorem isSome_items (k : Kind) : k.signature.items.isSome = decide (k = .listCreateWith) := by
  cases k <;> rfl

theorem nodup_signature (k : Kind) : (k.signature.inputs.map Prod.fst).Nodup := by
  cases k <;> decide

theorem eq_listCreateWith_of_items (h : k.signature.items = some ty) : k = .listCreateWith := by
  have hsome := k.isSome_items
  rw [h] at hsome
  exact of_decide_eq_true hsome.symm

theorem InputType.unique (h : k.InputType name ty) (h' : k.InputType name ty') : ty = ty' := by
  rcases h with h | ⟨-, h⟩
  · rcases h' with h' | ⟨-, h'⟩
    · exact congrArg Prod.snd (List.inj_on_of_nodup_map k.nodup_signature h h' rfl)
    · cases eq_listCreateWith_of_items h'
      cases h
  · rcases h' with h' | ⟨-, h'⟩
    · cases eq_listCreateWith_of_items h
      cases h'
    · exact Option.some.inj (h.symm.trans h')

theorem itemName_inj {i j : Nat} (h : itemName i = itemName j) : i = j := by
  have htail : (toString i).toList = (toString j).toList := by
    simpa [itemName] using congrArg String.toList h
  rw [← Nat.repr_inj, ← Nat.toString_eq_repr, ← Nat.toString_eq_repr]
  exact String.toList_injective htail

theorem isPrefixOf_itemName (i : Nat) : itemMark.isPrefixOf (itemName i) = true := by
  rw [String.isPrefixOf, String.startsWith_string_iff, itemName, String.toList_append]
  exact List.prefix_append _ _

/-- The inputs of a kind have different names. -/
theorem nodup_plannedInputs (k : Kind) (items : Nat) :
    ((k.plannedInputs items).map Prod.fst).Nodup := by
  by_cases hk : k = .listCreateWith
  · subst hk
    simp only [plannedInputs, if_true, List.map_cons, List.map_map, List.nodup_cons]
    refine ⟨fun h => ?_, (List.nodup_range).map ?_⟩
    · obtain ⟨i, -, hi⟩ := List.mem_map.1 h
      have hhead : itemMark.isPrefixOf "HEAD" = true := by
        rw [← show itemName i = "HEAD" from hi]
        exact isPrefixOf_itemName i
      exact absurd hhead (by decide +kernel)
    · intro i j hij
      exact itemName_inj hij
  · simp only [plannedInputs, if_neg hk]
    cases k <;> decide

/-- A kind types its value inputs and no others. -/
theorem value_iff_of_mem_plannedInputs {items : Nat} {kind : InputKind}
    (h : (name, kind) ∈ k.plannedInputs items) : kind = .value ↔ ∃ ty, k.InputType name ty := by
  by_cases hk : k = .listCreateWith
  · subst hk
    simp only [plannedInputs, if_true, List.mem_cons, List.mem_map, Prod.mk.injEq] at h
    rcases h with ⟨rfl, rfl⟩ | ⟨i, -, rfl, rfl⟩
    · refine ⟨fun h => (by cases h), fun ⟨ty, hty⟩ => ?_⟩
      rcases hty with hty | ⟨hmark, -⟩
      · cases hty
      · exact absurd hmark (by decide +kernel)
    · exact ⟨fun _ => ⟨.var 0, Or.inr ⟨isPrefixOf_itemName i, rfl⟩⟩, fun _ => rfl⟩
  · have hplans : k ≠ .listCreateWith →
        ∀ p ∈ k.layout.inputs.map fun plan => (plan.name, plan.kind), p.2 = .value ↔
        ∃ q ∈ k.signature.inputs, q.1 = p.1 := by
      cases k <;> decide
    rw [plannedInputs, if_neg hk] at h
    rw [hplans hk _ h]
    constructor
    · rintro ⟨⟨name, ty⟩, hq, rfl⟩
      exact ⟨ty, Or.inl hq⟩
    · rintro ⟨ty, hq | ⟨-, hitems⟩⟩
      · exact ⟨_, hq, rfl⟩
      · exact absurd (eq_listCreateWith_of_items hitems) hk

/-- A kind has the inputs that its signature names. -/
theorem mem_plannedInputs_of_signature (h : (name, ty) ∈ k.signature.inputs) (items : Nat) :
    (name, .value) ∈ k.plannedInputs items := by
  by_cases hk : k = .listCreateWith
  · subst hk
    cases h
  · have hnames : ∀ p ∈ k.signature.inputs,
        (p.1, InputKind.value) ∈ k.layout.inputs.map fun plan => (plan.name, plan.kind) := by
      cases k <;> decide
    rw [plannedInputs, if_neg hk]
    exact hnames _ h

/-- A scheme that a signature mentions. -/
def Mentions (k : Kind) (ty : Ty) : Prop :=
  k.signature.binder = some ty ∨ (∃ name, k.InputType name ty) ∨ k.signature.output = some ty

/-- Every type that a signature mentions is over the variables it counts. -/
theorem lt_fresh_of_mentions (h : k.Mentions ty) : ∀ v ∈ ty.occurrences, v < k.signature.fresh := by
  have hbinder : ∀ ty ∈ k.signature.binder, ∀ v ∈ ty.occurrences, v < k.signature.fresh := by
    cases k <;> decide
  have hinputs : ∀ p ∈ k.signature.inputs, ∀ v ∈ p.2.occurrences, v < k.signature.fresh := by
    cases k <;> decide
  have hitems : ∀ ty ∈ k.signature.items, ∀ v ∈ ty.occurrences, v < k.signature.fresh := by
    cases k <;> decide
  have houtput : ∀ ty ∈ k.signature.output, ∀ v ∈ ty.occurrences, v < k.signature.fresh := by
    cases k <;> decide
  rcases h with h | ⟨name, h⟩ | h
  · exact hbinder ty h
  · rcases h with h | ⟨-, h⟩
    · exact hinputs _ h
    · exact hitems ty h
  · exact houtput ty h

end Kind

theorem eq_of_nodup_filterMap {α β : Type} {f : α → Option β} {l : List α}
    (h : (l.filterMap f).Nodup) {x y : α} (hx : x ∈ l) (hy : y ∈ l) {z : β} (hfx : f x = some z)
    (hfy : f y = some z) : x = y := by
  induction l with
  | nil => cases hx
  | cons a l ih =>
    rcases List.mem_cons.1 hx with rfl | hx'
    · rw [List.filterMap_cons_some hfx, List.nodup_cons] at h
      rcases List.mem_cons.1 hy with rfl | hy'
      · rfl
      · exact absurd (List.mem_filterMap.2 ⟨y, hy', hfy⟩) h.1
    · rcases List.mem_cons.1 hy with rfl | hy'
      · rw [List.filterMap_cons_some hfy, List.nodup_cons] at h
        exact absurd (List.mem_filterMap.2 ⟨x, hx', hfx⟩) h.1
      · refine ih (h.sublist ?_) hx' hy'
        exact (List.sublist_cons_self a l).filterMap f

/-- The kind of a block gives one of its connections a scheme. -/
def Block.Declares (block : Block) (c : ConnectionId) (ty : Ty) : Prop :=
  (∃ input ∈ block.inputs, input.connection = some c ∧ block.kind.InputType input.name ty) ∨
    (block.output = some c ∧ block.kind.signature.output = some ty)

namespace Block

/-- The inputs and the output of a block are those of its kind. -/
structure Laid (block : Block) : Prop where
  inputs : (block.inputs.map fun input => (input.name, input.kind)).Perm
    (block.kind.plannedInputs block.itemNames.length)
  output : block.output.isSome = block.kind.hasOutput

namespace Laid

variable (h : block.Laid)
include h

theorem nodup_names : (block.inputs.map Input.name).Nodup := by
  have hplanned := Kind.nodup_plannedInputs block.kind block.itemNames.length
  have hperm := h.inputs.map Prod.fst
  rw [List.map_map] at hperm
  exact hperm.nodup_iff.2 hplanned

/-- The inputs that a kind types are the value inputs. -/
theorem value_iff (hinput : input ∈ block.inputs) :
    input.kind = .value ↔ ∃ ty, block.kind.InputType input.name ty :=
  Kind.value_iff_of_mem_plannedInputs (h.inputs.mem_iff.1 (List.mem_map_of_mem hinput))

/-- A name leads to the one input that has it. -/
theorem input?_name (hinput : input ∈ block.inputs) : block.input? input.name = some input := by
  have hsome : (block.input? input.name).isSome = true := by
    rw [Block.input?, List.find?_isSome]
    exact ⟨input, hinput, by simp⟩
  obtain ⟨found, hfound⟩ := Option.isSome_iff_exists.1 hsome
  have hname : found.name = input.name := by simpa using List.find?_some hfound
  rw [hfound, List.inj_on_of_nodup_map h.nodup_names (List.mem_of_find?_eq_some hfound)
    hinput hname]

/-- A kind types the output exactly if the block has one. -/
theorem exists_output (hc : block.output = some c) :
    ∃ ty, block.kind.signature.output = some ty := by
  rw [← Option.isSome_iff_exists, Kind.isSome_output, ← h.output, hc]
  rfl

end Laid

end Block

namespace Workspace

/-- A block still has the inputs and the output of its kind, and the variable that was made with
it. -/
structure KeepsLayout (w : Workspace) (b : BlockId) (block : Block) : Prop where
  inputs : (block.inputs.map fun input => (input.name, input.kind)).Perm
    (block.kind.plannedInputs block.itemNames.length)
  output : block.output.isSome = block.kind.hasOutput
  ownVariable : block.kind.isBinder = true ∨ block.kind = .variablesGet →
    ∃ v own, w.ownVariable b = .ok v ∧ w.vars[v]? = some own ∧ own.block = b ∧
      (own.isReference = true ↔ block.kind = .variablesGet)

variable {w : Workspace} {b : BlockId} {block : Block}

namespace KeepsLayout

instance : Decidable (w.KeepsLayout b block) :=
  decidable_of_iff ((block.inputs.map fun input => (input.name, input.kind)).Perm
      (block.kind.plannedInputs block.itemNames.length) ∧
    block.output.isSome = block.kind.hasOutput ∧
    (block.kind.isBinder = true ∨ block.kind = .variablesGet →
      ∃ v ∈ (w.ownVariable b).toOption, ∃ own ∈ w.vars[v]?, own.block = b ∧
        (own.isReference = true ↔ block.kind = .variablesGet)))
    ⟨fun ⟨hinputs, houtput, hown⟩ => ⟨hinputs, houtput, fun hk =>
        have ⟨v, hv, own, hlook, hrest⟩ := hown hk
        ⟨v, own, toOption_eq_some_iff.1 hv, hlook, hrest⟩⟩,
      fun h => ⟨h.inputs, h.output, fun hk =>
        have ⟨v, own, hv, hlook, hrest⟩ := h.ownVariable hk
        ⟨v, toOption_eq_some_iff.2 hv, own, hlook, hrest⟩⟩⟩

theorem laid (h : w.KeepsLayout b block) : block.Laid := ⟨h.inputs, h.output⟩

end KeepsLayout

/-! ## Connections and schemes -/

namespace InOrder

theorem input_unique (hw : w.InOrder) (hblock : w.blocks[b]? = some block) {input' : Input}
    (hinput : input ∈ block.inputs) (hinput' : input' ∈ block.inputs)
    (hc : input.connection = some c) (hc' : input'.connection = some c) : input = input' := by
  have hsockets : block.sockets.Nodup := by
    refine (hw.nodup_connections hblock).sublist ?_
    rw [Block.connections, List.append_assoc]
    exact (List.sublist_append_left _ _).trans (List.sublist_append_right _ _)
  exact eq_of_nodup_filterMap hsockets hinput hinput' hc hc'

/-- A connection is given at most one scheme. -/
theorem declares_unique (hw : w.InOrder) (hblock : w.blocks[b]? = some block)
    (h : block.Declares c ty) (h' : block.Declares c ty') : ty = ty' := by
  have hapart : ∀ {input}, input ∈ block.inputs → input.connection = some c →
      block.output ≠ some c := by
    intro input hinput hc hout
    have hsocket : c ∈ block.sockets := List.mem_filterMap.2 ⟨input, hinput, hc⟩
    have hnodup := hw.nodup_connections hblock
    rw [Block.connections, hout, List.append_assoc, List.append_assoc] at hnodup
    exact (List.nodup_append.1 hnodup).2.2 c (by simp) c (by simp [hsocket]) rfl
  rcases h with ⟨input, hinput, hc, hty⟩ | ⟨hout, hty⟩
  · rcases h' with ⟨input', hinput', hc', hty'⟩ | ⟨hout, -⟩
    · cases hw.input_unique hblock hinput hinput' hc hc'
      exact hty.unique hty'
    · exact absurd hout (hapart hinput hc)
  · rcases h' with ⟨input', hinput', hc', -⟩ | ⟨-, hty'⟩
    · exact absurd hout (hapart hinput' hc')
    · exact Option.some.inj (hty.symm.trans hty')

/-- Every value connection of a block that keeps its layout is given a scheme. -/
theorem exists_declares (hw : w.InOrder) {connection : Connection}
    (hc : w.connections[c]? = some connection) (hvalue : connection.kind.isValue = true)
    (hblock : w.blocks[connection.block]? = some block) (h : w.KeepsLayout connection.block block) :
    ∃ ty, block.Declares c ty := by
  obtain ⟨block', hblock', -, hholds⟩ := hw.structured.listed hc
  cases hblock.symm.trans hblock'
  cases hkind : connection.kind with
  | output =>
    rw [hkind] at hholds
    obtain ⟨ty, hty⟩ := h.laid.exists_output hholds
    exact ⟨ty, Or.inr ⟨hholds, hty⟩⟩
  | inputValue =>
    rw [hkind] at hholds
    obtain ⟨input, hinput, hvalue, hconnection⟩ := hholds
    obtain ⟨ty, hty⟩ := (h.laid.value_iff hinput).1 hvalue
    exact ⟨ty, Or.inl ⟨input, hinput, hconnection, hty⟩⟩
  | previousStatement =>
    rw [hkind] at hvalue
    cases hvalue
  | nextStatement =>
    rw [hkind] at hvalue
    cases hvalue

end InOrder

end Workspace

end BlockGraph
