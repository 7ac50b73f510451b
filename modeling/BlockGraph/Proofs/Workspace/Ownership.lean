import BlockGraph.Proofs.Inference.Layout
import BlockGraph.Proofs.Workspace.Agreement

/-!
# Who owns which variable

A binder and a use of a variable have one variable each, in their field `VAR`; no other block has
one (`Block.Tidy`).  `Workspace.Housed` says that the blocks and the variables of a workspace know
each other: the variable of a block names the block, and every variable is held by the block that it
names.  In an `Owned` workspace, moreover, nothing is bound unless types are inferred.

Most edits change neither what a block is made of nor which variables there are
(`Workspace.KeepsInnards`), and keep ownership for that reason.
-/

namespace BlockGraph

variable {v : VariableId} {b b' : Block} {found : Variable}

/-! ## What a block is made of -/

/-- What a block is made of, without its place in a tree. -/
def Block.innards (b : Block) : Block := { b.essence with parent := none, children := [] }

namespace FieldValue

@[simp] theorem heldVariable?_essence (x : FieldValue) :
    x.essence.heldVariable? = x.heldVariable? := by
  cases x <;> rfl

end FieldValue

namespace Block

theorem fields_essence (b : Block) : b.essence.fields = b.fields.map Field.essence := by
  simp [fields, essence, Input.essence, List.flatMap_map, List.map_flatMap]

theorem vars_essence (b : Block) : b.essence.vars = b.vars := by
  simp [vars, fields_essence, List.filterMap_map, Function.comp_def, Field.essence]

theorem held_field?_essence (b : Block) (name : String) :
    (b.essence.field? name).bind (·.value.heldVariable?) = (b.field? name).bind
    (·.value.heldVariable?) := by
  simp [field?, fields_essence, List.find?_map, Function.comp_def, Field.essence, Option.bind_map]

section Innards

variable {b b' : Block} (h : b'.innards = b.innards)

include h

theorem kind_of_innards : b'.kind = b.kind := by
  have := congrArg Block.kind h
  exact this

theorem inputs_of_innards : b'.essence.inputs = b.essence.inputs := by
  have := congrArg Block.inputs h
  exact this

theorem output_of_innards : b'.output = b.output := by
  have := congrArg Block.output h
  exact this

theorem next_of_innards : b'.next = b.next := by
  have := congrArg Block.next h
  exact this

theorem previous_of_innards : b'.previous = b.previous := by
  have := congrArg Block.previous h
  exact this

theorem sockets_of_innards : b'.sockets = b.sockets := by
  have := congrArg (List.filterMap Input.connection) (inputs_of_innards h)
  simp only [essence, List.filterMap_map] at this
  exact this

theorem connections_of_innards : b'.connections = b.connections := by
  simp only [connections, output_of_innards h, previous_of_innards h, sockets_of_innards h,
    next_of_innards h]

theorem inferiors_of_innards : b'.inferiors = b.inferiors := by
  simp only [inferiors, sockets_of_innards h, next_of_innards h]

theorem itemNames_of_innards : b'.itemNames = b.itemNames := by
  have := congrArg (List.map Input.name) (inputs_of_innards h)
  simp only [essence, List.map_map] at this
  exact congrArg (List.filter fun name => Kind.itemMark.isPrefixOf name) this

theorem vars_of_innards : b'.vars = b.vars := by
  rw [← vars_essence b', ← vars_essence b]
  simp only [vars, fields, inputs_of_innards h]

theorem held_of_innards (name : String) :
    (b'.field? name).bind (·.value.heldVariable?) = (b.field? name).bind
    (·.value.heldVariable?) := by
  rw [← held_field?_essence b', ← held_field?_essence b]
  simp only [field?, fields, inputs_of_innards h]

theorem own?_of_innards : b'.own? = b.own? := held_of_innards h _

end Innards

theorem innards_of_essence (h : b'.essence = b.essence) : b'.innards = b.innards := by
  unfold innards
  rw [h]

/-- The fields of a block hold its own variable and no other; binders and uses have one. -/
structure Tidy (b : Block) : Prop where
  vars : b.vars = b.own?.toList
  own : b.own?.isSome = true ↔ b.kind.isBinder = true ∨ b.kind = .variablesGet

theorem Tidy.of_innards (hb : b.Tidy) (h : b'.innards = b.innards) : b'.Tidy where
  vars := by rw [vars_of_innards h, own?_of_innards h, hb.vars]
  own := by rw [own?_of_innards h, kind_of_innards h, hb.own]

theorem Tidy.mem_vars (hb : b.Tidy) : v ∈ b.vars ↔ b.own? = some v := by
  rw [hb.vars, Option.mem_toList]

end Block

namespace Workspace

variable {w w' w'' : Workspace} {block : Block}

theorem fieldVariable?_eq {b : BlockId} (hb : w.blocks[b]? = some block) (name : String) :
    w.fieldVariable? b name = .ok ((block.field? name).bind (·.value.heldVariable?)) := by
  simp only [fieldVariable?, getBlock_eq_ok.2 hb, ok_bind, pure_eq_ok]

theorem ownVariable_eq_ok {b : BlockId}
    (hb : w.blocks[b]? = some block) : w.ownVariable b = .ok v ↔ block.own? = some v := by
  simp only [ownVariable, fieldVariable?_eq hb, ok_bind]
  unfold Block.own?
  cases (block.field? Kind.variableField).bind (·.value.heldVariable?) with
  | none => simp
  | some u => simp [pure_eq_ok]

/-! ## Ownership -/

/-- The numbers of all variables are below the next one. -/
def Counted (w : Workspace) : Prop :=
  ∀ (v : VariableId) (found : Variable), w.vars[v]? = some found → v.index < w.variableCount

/-- Every variable is held by the block that it names, and each block holds the variables of its
kind. -/
structure Housed (w : Workspace) : Prop where
  tidy : ∀ {b : BlockId} {block : Block}, w.blocks[b]? = some block → block.Tidy
  var : ∀ {b : BlockId} {block : Block} {v : VariableId}, w.blocks[b]? = some block →
    block.own? = some v → ∃ found, w.vars[v]? = some found ∧ found.block = b ∧
      (found.isReference = true ↔ block.kind = .variablesGet)
  holder : ∀ {v : VariableId} {found : Variable}, w.vars[v]? = some found →
    ∃ block, w.blocks[found.block]? = some block ∧ block.own? = some v
  index : ∀ {v : VariableId} {found : Variable}, w.vars[v]? = some found → v.index < w.variableCount

theorem Housed.counted (hw : w.Housed) : w.Counted := fun _ _ => hw.index

structure Owned (w : Workspace) : Prop extends Housed w where
  /-- Without types no use is ever bound. -/
  unbound : w.isTyped = false → ∀ {v : VariableId} {found : Variable}, w.vars[v]? = some found →
    found.binding? = none

theorem Housed.new (options : Options) : (Workspace.new options).Housed := by
  refine ⟨fun h => ?_, fun h => ?_, fun h => ?_, fun h => ?_⟩ <;> simp [Workspace.new] at h

theorem Owned.new (options : Options) : (Workspace.new options).Owned :=
  ⟨.new options, fun _ _ _ h => by simp [Workspace.new] at h⟩

/-- The variables of a declaration and a use are told apart by the kind of their block. -/
theorem Housed.isReference_iff (hw : w.Housed) (hv : w.vars[v]? = some found)
    (hb : w.blocks[found.block]? = some block) : found.isReference = true ↔
    block.kind = .variablesGet := by
  obtain ⟨block', hb', hown⟩ := hw.holder hv
  obtain ⟨found', hv', -, hiff⟩ := hw.var hb' hown
  rw [hv] at hv'
  rw [hb] at hb'
  cases hv'
  cases hb'
  exact hiff

/-- A block is what it was made of, and its variable too. -/
structure KeepsInnards (w w' : Workspace) : Prop where
  options : w'.options = w.options
  count : w'.variableCount = w.variableCount
  block : ∀ b : BlockId, w'.blocks[b]?.map Block.innards = w.blocks[b]?.map Block.innards
  var : ∀ v : VariableId, w'.vars[v]?.map (fun x => (x.block, x.isReference)) =
    w.vars[v]?.map fun x => (x.block, x.isReference)
  unbound : w.isTyped = false → ∀ v : VariableId,
    w'.vars[v]?.bind Variable.binding? = w.vars[v]?.bind Variable.binding?

namespace KeepsInnards

theorem refl (w : Workspace) : KeepsInnards w w :=
  ⟨rfl, rfl, fun _ => rfl, fun _ => rfl, fun _ _ => rfl⟩

theorem trans (h : KeepsInnards w w') (h' : KeepsInnards w' w'') : KeepsInnards w w'' where
  options := h'.options.trans h.options
  count := h'.count.trans h.count
  block b := (h'.block b).trans (h.block b)
  var v := (h'.var v).trans (h.var v)
  unbound htyped v := by
    rw [h'.unbound ((isTyped_congr h.options).trans htyped), h.unbound htyped]

theorem of_eq (hoptions : w'.options = w.options) (hcount : w'.variableCount = w.variableCount)
    (hblocks : w'.blocks = w.blocks) (hvars : w'.vars = w.vars) : KeepsInnards w w' :=
  ⟨hoptions, hcount, fun _ => by rw [hblocks], fun _ => by rw [hvars], fun _ _ => by rw [hvars]⟩

theorem modifyBlock {b : BlockId} {f : Block → Block} (h : w.modifyBlock b f = .ok w')
    (hf : ∀ block, w.blocks[b]? = some block → (f block).innards = block.innards) :
    KeepsInnards w w' := by
  obtain ⟨block, hblock, rfl⟩ := modifyBlock_eq_ok.1 h
  refine ⟨rfl, rfl, congr_getElem?_insert (Option.map Block.innards) ?_, fun _ => rfl,
    fun _ _ => rfl⟩
  rw [hblock, Option.map_some, Option.map_some, hf block hblock]

theorem modifyConnection {c : ConnectionId} {f : Connection → Connection}
    (h : w.modifyConnection c f = .ok w') : KeepsInnards w w' := by
  obtain ⟨connection, -, rfl⟩ := modifyConnection_eq_ok.1 h
  exact of_eq rfl rfl rfl rfl

theorem modifyVariable {f : Variable → Variable} (h : w.modifyVariable v f = .ok w')
    (hblock : ∀ x, (f x).block = x.block) (hreference : ∀ x, (f x).isReference = x.isReference)
    (hunbound : w.isTyped = false → ∀ x, (f x).binding? = x.binding?) : KeepsInnards w w' := by
  obtain ⟨found, hfound, rfl⟩ := modifyVariable_eq_ok.1 h
  refine ⟨rfl, rfl, fun _ => rfl,
    congr_getElem?_insert (Option.map fun x : Variable => (x.block, x.isReference)) ?_,
    fun htyped => congr_getElem?_insert (Option.bind · Variable.binding?) ?_⟩
  · rw [hfound, Option.map_some, Option.map_some, hblock, hreference]
  · simp only [hfound, Option.bind_some, hunbound htyped]

variable (h : KeepsInnards w w')
include h

theorem exists_block_after {b : BlockId} (hb : w.blocks[b]? = some block) :
    ∃ block', w'.blocks[b]? = some block' ∧ block'.innards = block.innards :=
  exists_of_map_eq (h.block b) hb

theorem exists_block {b : BlockId} {block' : Block} (hb : w'.blocks[b]? = some block') :
    ∃ block, w.blocks[b]? = some block ∧ block'.innards = block.innards := by
  obtain ⟨block, hblock, heq⟩ := exists_of_map_eq (h.block b).symm hb
  exact ⟨block, hblock, heq.symm⟩

theorem exists_var (hv : w.vars[v]? = some found) :
    ∃ new, w'.vars[v]? = some new ∧ new.block = found.block ∧
    new.isReference = found.isReference := by
  obtain ⟨new, hnew, heq⟩ := exists_of_map_eq (h.var v) hv
  exact ⟨new, hnew, congrArg Prod.fst heq, congrArg Prod.snd heq⟩

theorem exists_old {new : Variable} (hv : w'.vars[v]? = some new) :
    ∃ old, w.vars[v]? = some old ∧ new.block = old.block ∧ new.isReference = old.isReference := by
  obtain ⟨old, hold, heq⟩ := exists_of_map_eq (h.var v).symm hv
  exact ⟨old, hold, (congrArg Prod.fst heq).symm, (congrArg Prod.snd heq).symm⟩

end KeepsInnards

theorem Housed.keeps (hw : w.Housed) (h : KeepsInnards w w') : w'.Housed where
  tidy {b block'} hb := by
    obtain ⟨block, hblock, heq⟩ := h.exists_block hb
    exact (hw.tidy hblock).of_innards heq
  var {b block' v} hb hown := by
    obtain ⟨block, hblock, heq⟩ := h.exists_block hb
    obtain ⟨found, hv, hholder, hiff⟩ := hw.var hblock (by rw [← Block.own?_of_innards heq, hown])
    obtain ⟨new, hnew, hb', href⟩ := h.exists_var hv
    exact ⟨new, hnew, hb'.trans hholder, by rw [href, hiff, Block.kind_of_innards heq]⟩
  holder {v new} hv := by
    obtain ⟨old, hold, hb', -⟩ := h.exists_old hv
    obtain ⟨block, hblock, hown⟩ := hw.holder hold
    obtain ⟨block', hblock', heq⟩ := h.exists_block_after hblock
    exact ⟨block', by rw [hb', hblock'], by rw [Block.own?_of_innards heq, hown]⟩
  index {v new} hv := by
    obtain ⟨old, hold, -⟩ := h.exists_old hv
    rw [h.count]
    exact hw.index hold

theorem Owned.keeps (hw : w.Owned) (h : KeepsInnards w w') : w'.Owned where
  toHoused := hw.toHoused.keeps h
  unbound htyped v new hv := by
    have htyped' : w.isTyped = false := by
      rw [isTyped, h.options] at htyped
      exact htyped
    obtain ⟨old, hold, -⟩ := h.exists_old hv
    have := h.unbound htyped' v
    rw [hv, hold, Option.bind_some, Option.bind_some] at this
    rw [this]
    exact hw.unbound htyped' hold

theorem Retypes.keepsInnards (h : Retypes w w') : KeepsInnards w w' := by
  refine ⟨by rw [h.rest], by rw [h.rest], fun _ => by rw [h.rest], fun v => ?_, fun _ v => ?_⟩
  · refine map_eq_of_map_eq (fun heq => ?_) (h.untyped v)
    rw [Variable.block_of_untyped heq, Variable.isReference_of_untyped heq]
  · have := congrArg (fun o : Option Variable => o.bind Variable.binding?) (h.untyped v)
    simpa only [Option.bind_map, Function.comp_def, Variable.binding?_untyped] using this

/-! ## Bindings within a tree -/

variable {r : BlockId}

/-- A variable of a tree was there before. -/
theorem Same.exists_old_var (h : Same .graph w w' r) (hw : w.Owned) (hw' : w'.Owned)
    {new : Variable} (hv : w'.vars[v]? = some new) (hb : w'.Below r new.block) :
    ∃ old, w.vars[v]? = some old ∧ new.untyped = old.untyped := by
  obtain ⟨block', hblock', hown⟩ := hw'.holder hv
  obtain ⟨block, hblock, heq⟩ := exists_of_map_eq (h.block (h.below.1 hb)).symm hblock'
  have hown' : block.own? = some v := by
    rw [← hown]
    exact Block.own?_of_innards (Block.innards_of_essence heq)
  obtain ⟨old, hold, hholder, -⟩ := hw.var hblock hown'
  obtain ⟨new', hnew', huntyped⟩ := h.exists_var hold (by rw [hholder]; exact h.below.1 hb)
  rw [hv] at hnew'
  cases hnew'
  exact ⟨old, hold, huntyped⟩

/-- The uses in the tree of `r` that are bound are bound to declarations of the tree. -/
def Local (w : Workspace) (r : BlockId) : Prop :=
  ∀ {v u : VariableId} {use : Variable}, w.vars[v]? = some use → w.Below r use.block →
    use.binding? = some u → ∃ value, w.vars[u]? = some value ∧ value.isReference = false ∧
    w.Below r value.block

theorem Local.same (hlocal : w.Local r) (h : Same .graph w w' r) (hw : w.Owned) (hw' : w'.Owned) :
    w'.Local r := by
  intro v u use hv hb hbinding
  obtain ⟨old, hold, huntyped⟩ := h.exists_old_var hw hw' hv hb
  have hblock : use.block = old.block := Variable.block_of_untyped huntyped
  have hbinding' : old.binding? = some u :=
    (Variable.binding?_of_untyped huntyped).symm.trans hbinding
  obtain ⟨value, hvalue, hdeclared, hbelow⟩ := hlocal hold (hblock ▸ h.below.1 hb) hbinding'
  obtain ⟨value', hvalue', huntyped'⟩ := h.exists_var hvalue hbelow
  exact ⟨value', hvalue', (Variable.isReference_of_untyped huntyped').trans hdeclared,
    h.below.2 (Variable.block_of_untyped huntyped' ▸ hbelow)⟩

/-- A declaration is the own variable of a binder. -/
theorem Housed.binder (hw : w.Housed) {u : VariableId} {value : Variable}
    (hu : w.vars[u]? = some value) (hdeclared : value.isReference = false) :
    ∃ block, w.blocks[value.block]? = some block ∧ block.kind.isBinder = true ∧
    block.own? = some u := by
  obtain ⟨block, hblock, hown⟩ := hw.holder hu
  refine ⟨block, hblock, ?_, hown⟩
  rcases (hw.tidy hblock).own.1 (by rw [hown]; rfl) with hbinder | huse
  · exact hbinder
  · rw [(hw.isReference_iff hu hblock).2 huse] at hdeclared
    cases hdeclared

end Workspace

end BlockGraph
