import BlockGraph.Proofs.Workspace.Ownership

/-!
# New blocks

`Workspace.Making` follows a block while its layout is applied: its inputs and fields are those
planned so far (`Kind.InputPlan.Made`), the variables that belong to it are those in its fields, its
connections are new, and nothing outside it has changed.

A block that is made to the end keeps the layout of its kind (`Making.laid`) and its variables are
in order (`Making.owned`), because the layouts of the kinds are.
-/

namespace BlockGraph

open List (Forall₂)

/-- The last of a list that is related to another is related to its last. -/
theorem exists_last_of_forall₂ {α β : Type} {R : α → β → Prop} {l : List α} {a : α} :
    ∀ {l' : List β}, Forall₂ R (l ++ [a]) l' →
      ∃ front last, l' = front ++ [last] ∧ Forall₂ R l front ∧ R a last := by
  induction l with
  | nil =>
    intro l' h
    cases h with
    | cons hlast hrest =>
      cases hrest
      exact ⟨[], _, rfl, .nil, hlast⟩
  | cons x l ih =>
    intro l' h
    cases h with
    | @cons _ y _ _ hx hrest =>
      obtain ⟨front, last, rfl, hfront, hlast⟩ := ih hrest
      exact ⟨y :: front, last, rfl, .cons hx hfront, hlast⟩

theorem modify_last {α : Type} (l : List α) (a : α) (f : α → α) :
    (l ++ [a]).modify l.length f = l ++ [f a] := by
  induction l with
  | nil => rfl
  | cons x l ih =>
    rw [List.cons_append, List.length_cons, List.modify_succ_cons, ih]
    rfl

/-- What a block shows beside its fields: whether it is disabled and collapsed, and its comment. -/
def Block.style (block : Block) : Bool × Bool × Option String :=
  (block.disabled, block.collapsed, block.comment)

theorem Block.vars_appendField {block : Block} {front : List Input} {input : Input}
    (h : block.inputs = front ++ [input]) (field : Field) :
    ({ block with inputs := front ++ [{ input with fields := input.fields ++ [field] }] } :
      Block).vars = block.vars ++ field.value.heldVariable?.toList := by
  simp only [Block.vars, Block.fields, h, List.flatMap_append, List.flatMap_cons, List.flatMap_nil,
    List.append_nil, List.filterMap_append, List.append_assoc]
  cases hvalue : field.value.heldVariable? <;> simp [hvalue]

/-! ## Plans carried out -/

namespace Kind

/-- A field that was made after a plan; a variable belongs to the block. -/
def FieldPlan.Made (w : Workspace) (b : BlockId) : FieldPlan → Field → Prop
  | .label text, f => f = ⟨"", .label text⟩
  | .number name, f => f = ⟨name, .number 0⟩
  | .checkbox name value, f => f = ⟨name, .checkbox value⟩
  | .dropdown name selected, f => f = ⟨name, .dropdown selected⟩
  | .binder name, f => ∃ v type, f = ⟨name, .var v⟩ ∧
  w.vars[v]? = some ⟨defaultName, b, .value type⟩
  | .reference name, f =>
    ∃ v, f = ⟨name, .var v⟩ ∧ w.vars[v]? = some ⟨defaultName, b, .reference none⟩

/-- An input that was made after a plan. -/
structure InputPlan.Made (w : Workspace) (b : BlockId) (plan : InputPlan) (input : Input) :
    Prop where
  name : input.name = plan.name
  kind : input.kind = plan.kind
  fields : Forall₂ (FieldPlan.Made w b) plan.fields input.fields

variable {w w' : Workspace} {b : BlockId} {field : Field} {plan : FieldPlan}

theorem FieldPlan.Made.mono
    (hvars : ∀ (v : VariableId) found, w.vars[v]? = some found → w'.vars[v]? = some found)
    (h : plan.Made w b field) : plan.Made w' b field := by
  cases plan with
  | binder name =>
    obtain ⟨v, type, hf, hv⟩ := h
    exact ⟨v, type, hf, hvars v _ hv⟩
  | reference name =>
    obtain ⟨v, hf, hv⟩ := h
    exact ⟨v, hf, hvars v _ hv⟩
  | _ => exact h

theorem InputPlan.Made.mono
    (hvars : ∀ (v : VariableId) found, w.vars[v]? = some found → w'.vars[v]? = some found)
    {plan : InputPlan} {input : Input} (h : plan.Made w b input) : plan.Made w' b input :=
  ⟨h.name, h.kind, h.fields.imp fun _ _ => FieldPlan.Made.mono hvars⟩

theorem InputPlan.Made.map_eq {plans : List InputPlan} {inputs : List Input}
    (h : Forall₂ (InputPlan.Made w b) plans inputs) :
    inputs.map (fun input => (input.name, input.kind)) = plans.map fun plan =>
    (plan.name, plan.kind) := by
  induction h with
  | nil => rfl
  | cons hplan _ ih => rw [List.map_cons, List.map_cons, hplan.name, hplan.kind, ih]

/-- Whether a field holds a variable. -/
def FieldPlan.isVariable : FieldPlan → Bool
  | .binder _ => true
  | .reference _ => true
  | _ => false

/-- Whether a field holds a use. -/
def FieldPlan.isReference : FieldPlan → Bool
  | .reference _ => true
  | _ => false

/-- The name of a field. -/
def FieldPlan.name : FieldPlan → String
  | .label _ => ""
  | .number name => name
  | .checkbox name _ => name
  | .dropdown name _ => name
  | .binder name => name
  | .reference name => name

/-- A variable in a field belongs to the block, is used or declared as planned, and is bound to
nothing. -/
theorem FieldPlan.Made.held (h : plan.Made w b field) :
    field.name = plan.name ∧ (plan.isVariable = false → field.value.heldVariable? = none) ∧
      (plan.isVariable = true → ∃ v found, field.value.heldVariable? = some v ∧
        w.vars[v]? = some found ∧ found.block = b ∧ found.binding? = none ∧
        found.isReference = plan.isReference) := by
  cases plan with
  | binder name =>
    obtain ⟨v, type, rfl, hv⟩ := h
    exact ⟨rfl, nofun, fun _ => ⟨v, _, rfl, hv, rfl, rfl, rfl⟩⟩
  | reference name =>
    obtain ⟨v, rfl, hv⟩ := h
    exact ⟨rfl, nofun, fun _ => ⟨v, _, rfl, hv, rfl, rfl, rfl⟩⟩
  | _ =>
    cases h
    exact ⟨rfl, fun _ => rfl, nofun⟩

/-- No two inputs of a layout share a name. -/
theorem nodup_layout (k : Kind) : (k.layout.inputs.map InputPlan.name).Nodup := by
  cases k <;> decide

/-- The fields of a layout. -/
def Layout.fields (layout : Layout) : List FieldPlan := layout.inputs.flatMap InputPlan.fields

end Kind

namespace Workspace

variable {w0 w w' : Workspace} {b : BlockId} {kind : Kind} {plans : List Kind.InputPlan}
  {plan : Kind.InputPlan} {new : Kind.FieldPlan} {check : Check} {c : ConnectionId} {block : Block}
  {types : Table}

/-! ## A block in the making -/

/-- A block of which some inputs have been made. -/
structure Making (w0 : Workspace) (b : BlockId) (kind : Kind) (hasOutput : Bool)
    (plans : List Kind.InputPlan) (w : Workspace) (block : Block) : Prop where
  entered : w0.blocks[b]? = none
  confined : Confined .all (· = b) w0 w
  inOrder : w.InOrder
  lookup : w.blocks[b]? = some block
  kind_eq : block.kind = kind
  style : block.style = (false, false, none)
  output : block.output.isSome = hasOutput
  inputs : Forall₂ (Kind.InputPlan.Made w b) plans block.inputs
  grow : ∀ {v : VariableId} {found : Variable}, w0.vars[v]? = some found → w.vars[v]? = some found
  held : ∀ {v : VariableId} {found : Variable}, w.vars[v]? = some found →
    w0.vars[v]? = some found ∨ found.block = b ∧ v ∈ block.vars
  counted : w.Counted
  new : ∀ {c : ConnectionId} {connection : Connection}, w.connections[c]? = some connection →
    connection.block = b → connection.target = none ∧ connection.error = none ∧
      connection.type.isSome = (w.isTyped && connection.kind.isValue)

/-- A step in which a block may get one connection and nothing else happens. -/
structure Sockets (b : BlockId) (w w' : Workspace) : Prop where
  confined : Confined .all (· = b) w w'
  blocks : w'.blocks = w.blocks
  vars : w'.vars = w.vars
  count : w'.variableCount = w.variableCount
  new : ∀ {c : ConnectionId} {connection : Connection}, w'.connections[c]? = some connection →
    w.connections[c]? = some connection ∨ connection.block = b ∧ connection.target = none ∧
      connection.error = none ∧ connection.type.isSome = (w.isTyped && connection.kind.isValue)

theorem sockets_createConnection (hw : w.InOrder) (b : BlockId) (kind : ConnectionKind)
    (check : Check) : Sockets b w (w.createConnection b kind check).2 := by
  have hfresh : ∀ old, w.connections[(⟨w.connectionCount⟩ : ConnectionId)]? = some old →
      old.block = b := by
    intro old hold
    have := hw.formed.wired.joint_fresh (c := ⟨w.connectionCount⟩) rfl
    rw [joint_of_connection hold] at this
    cases this
  refine ⟨⟨?_, ?_, fun huntyped => by simp [createConnection, huntyped]⟩, rfl, rfl, rfl,
    fun {c connection} hc => ?_⟩
  · exact (AgreeOff.insertConnection hfresh).trans (.of_eq rfl rfl rfl rfl rfl)
  · simp only [createConnection]
    split
    · exact .fresh w.types
    · exact .refl w.types
  · simp only [createConnection, getElem?_insert_eq] at hc
    split at hc
    · cases hc
      refine .inr ⟨rfl, rfl, rfl, ?_⟩
      by_cases htyped : (w.isTyped && kind.isValue) = true
      · simp [htyped]
      · simp [htyped]
    · exact .inl hc

theorem sockets_createSocket (hw : w.InOrder) (b : BlockId) (kind : InputKind) (check : Check) :
    Sockets b w (w.createSocket b kind check).2 := by
  cases kind with
  | value => exact sockets_createConnection hw b .inputValue check
  | statement => exact sockets_createConnection hw b .nextStatement check
  | dummy => exact ⟨.refl _ _ w, rfl, rfl, rfl, .inl⟩

/-- A step in which a block may get one connection, or a variable that it is to hold. -/
structure Furnishes (b : BlockId) (held : Option VariableId) (w w' : Workspace) : Prop where
  confined : Confined .all (· = b) w w'
  blocks : w'.blocks = w.blocks
  grow : ∀ {v : VariableId} {found : Variable}, w.vars[v]? = some found → w'.vars[v]? = some found
  var : ∀ {v : VariableId} {found : Variable}, w'.vars[v]? = some found →
    w.vars[v]? = some found ∨ found.block = b ∧ held = some v
  counted : w.Counted → w'.Counted
  new : ∀ {c : ConnectionId} {connection : Connection}, w'.connections[c]? = some connection →
    w.connections[c]? = some connection ∨ connection.block = b ∧ connection.target = none ∧
      connection.error = none ∧ connection.type.isSome = (w.isTyped && connection.kind.isValue)

theorem Sockets.furnishes (h : Sockets b w w') : Furnishes b none w w' where
  confined := h.confined
  blocks := h.blocks
  grow hv := h.vars ▸ hv
  var hv := .inl (h.vars ▸ hv)
  counted hw v found hv := by
    rw [h.count]
    exact hw v found (h.vars ▸ hv)
  new := h.new

/-- A variable that was just made. -/
theorem furnishes_pushVariable (hw : w.Counted) (htypes : w.types.Carries types)
    (huntyped : w.isTyped = false → types = w.types) (new : Variable) (hnew : new.block = b) :
    Furnishes b (some ⟨w.variableCount⟩) w ({ w with types }.pushVariable new).2 := by
  have hlookup : ∀ v : VariableId, ({ w with types }.pushVariable new).2.vars[v]? =
      if v = ⟨w.variableCount⟩ then some new else w.vars[v]? := fun v => by
    simp only [pushVariable, getElem?_insert_eq]
  have hstart : AgreeOff .all (· = b) w { w with types } := .of_eq rfl rfl rfl rfl rfl
  have hinsert : AgreeOff .all (· = b) { w with types } { w with
      types, vars := w.vars.insert ⟨w.variableCount⟩ new } := .insertVariable fun old hold =>
    absurd (hw _ _ hold) (Nat.lt_irrefl _)
  refine ⟨⟨hstart.trans (hinsert.trans (.of_eq rfl rfl rfl rfl rfl)), htypes, huntyped⟩, rfl,
    fun {v found} hv => ?_, fun {v found} hv => ?_, fun _ v found hv => ?_, .inl⟩
  · rw [hlookup, if_neg, hv]
    rintro rfl
    exact Nat.lt_irrefl _ (hw _ _ hv)
  · rw [hlookup] at hv
    split at hv
    · next hself =>
      cases hv
      exact .inr ⟨hnew, congrArg some hself.symm⟩
    · exact .inl hv
  · rw [hlookup] at hv
    show v.index < w.variableCount + 1
    split at hv
    · next hself =>
      rw [hself]
      exact Nat.lt_succ_self _
    · exact Nat.lt_succ_of_lt (hw v found hv)

theorem Furnishes.exists_modify {held : Option VariableId} (h : Furnishes b held w w')
    (hblock : w.blocks[b]? = some block) (g : Block → Block) :
    ∃ w'', w'.modifyBlock b g = .ok w'' :=
  ⟨_, modifyBlock_eq_ok.2 ⟨block, h.blocks ▸ hblock, rfl⟩⟩

/-- A connection that is made is none of those that were there, and these are as they were. -/
theorem connection_createConnection {kind : ConnectionKind} (hc : c ≠ ⟨w.connectionCount⟩) :
    (w.createConnection b kind check).2.connections[c]? = w.connections[c]? := by
  simp only [createConnection, getElem?_insert_eq, if_neg hc]

theorem connection_createSocket {kind : InputKind}
    (hc : c ≠ ⟨w.connectionCount⟩) :
    (w.createSocket b kind check).2.connections[c]? = w.connections[c]? := by
  cases kind with
  | value | statement => exact connection_createConnection hc
  | dummy => rfl

/-- An input can be appended under a name that is new or empty. -/
theorem exists_appendInput (hblock : w.blocks[b]? = some block) (kind : InputKind) (check : Check)
    {name : String} (hname : name.isEmpty = false → block.input? name = none) :
    ∃ index w', w.appendInput b kind name check = .ok (index, w') := by
  have hblock' : (w.createSocket b kind check).2.blocks[b]? = some block := by
    rw [blocks_createSocket, hblock]
  cases hempty : name.isEmpty with
  | true =>
    simp only [appendInput, hempty, Bool.not_true, Bool.false_eq_true, if_false,
      getBlock_eq_ok.2 hblock', ok_bind, modifyBlock]
    exact ⟨_, _, rfl⟩
  | false =>
    simp only [appendInput, hempty, Bool.not_false, if_true, getBlock_eq_ok.2 hblock, hname hempty,
      require, Option.isNone_none, getBlock_eq_ok.2 hblock', ok_bind, modifyBlock]
    exact ⟨_, _, rfl⟩

theorem exists_appendField {index : Nat} (hblock : w.blocks[b]? = some block)
    (hindex : index < block.inputs.length) (field : Field) :
    ∃ w', w.appendField b index field = .ok w' := by
  simp only [appendField, getBlock_eq_ok.2 hblock, ok_bind, require, hindex, decide_true, if_true,
    modifyBlock]
  exact ⟨_, rfl⟩

namespace Making

variable {hasOutput : Bool} {block : Block} {w1 : Workspace}

/-- The inputs have the names that were planned. -/
theorem map_name (h : Making w0 b kind hasOutput plans w block) :
    block.inputs.map Input.name = plans.map Kind.InputPlan.name := by
  have := congrArg (List.map Prod.fst) (Kind.InputPlan.Made.map_eq h.inputs)
  rwa [List.map_map, List.map_map] at this

/-- Nothing has been made of a block that was just entered. -/
theorem start (hw : w0.InOrder) (hcounted : w0.Counted) (hnone : w0.blocks[b]? = none) (kind : Kind)
    (next : Nat) : Making w0 b kind false []
      { w0 with nextBlock := next, blocks := w0.blocks.insert b { kind }, top := w0.top ++ [b] }
      { kind } where
  entered := hnone
  confined := by
    have hinsert : AgreeOff .all (· = b) w0 { w0 with blocks := w0.blocks.insert b { kind } } :=
      .insertBlock rfl
    have htop : AgreeOff .all (· = b) { w0 with blocks := w0.blocks.insert b { kind } }
        { w0 with blocks := w0.blocks.insert b { kind }, top := w0.top ++ [b] } := .appendTop rfl
    exact .of_types (hinsert.trans (htop.trans (.of_eq rfl rfl rfl rfl rfl))) rfl
  inOrder := hw.enterBlock hnone next
  lookup := by simp only [getElem?_insert_eq, if_true]
  kind_eq := rfl
  style := rfl
  output := rfl
  inputs := .nil
  grow hv := hv
  held hv := .inl hv
  counted := hcounted
  new hc hb := by
    obtain ⟨block, hblock⟩ := hw.block_of_connection hc
    rw [hb, hnone] at hblock
    cases hblock

theorem inputs_after {held : Option VariableId} (h : Making w0 b kind hasOutput plans w block)
    (h1 : Furnishes b held w w1) : Forall₂ (Kind.InputPlan.Made w1 b) plans block.inputs :=
  h.inputs.imp fun _ _ => Kind.InputPlan.Made.mono fun _ _ => h1.grow

/-- What the block was given is entered in it. -/
theorem extend {held : Option VariableId} (h : Making w0 b kind hasOutput plans w block)
    (h1 : Furnishes b held w w1) {g : Block → Block} (hmodify : w1.modifyBlock b g = .ok w')
    (hw' : w'.InOrder) {plans' : List Kind.InputPlan} {hasOutput' : Bool}
    (hkind : (g block).kind = block.kind) (hstyle : (g block).style = block.style)
    (hvars : (g block).vars = block.vars ++ held.toList)
    (hout : (g block).output.isSome = hasOutput')
    (hinputs : Forall₂ (Kind.InputPlan.Made w1 b) plans' (g block).inputs) :
    Making w0 b kind hasOutput' plans' w' (g block) := by
  have hagree : AgreeOff .all (· = b) w1 w' := .modifyBlock hmodify rfl
  obtain ⟨block', hblock', rfl⟩ := modifyBlock_eq_ok.1 hmodify
  rw [h1.blocks, h.lookup] at hblock'
  cases hblock'
  refine ⟨h.entered, h.confined.trans (h1.confined.trans (.of_types hagree rfl)), hw', ?_,
    hkind.trans h.kind_eq, hstyle.trans h.style, hout, ?_, fun {v found} hv => h1.grow (h.grow hv),
    fun {v found} hv => ?_, h1.counted h.counted, fun {c connection} hc hb => ?_⟩
  · simp only [getElem?_insert_eq, if_true]
  · refine hinputs.imp fun _ _ => Kind.InputPlan.Made.mono ?_
    exact fun _ _ hv => hv
  · rw [hvars]
    rcases h1.var hv with hold | ⟨hb, hheld⟩
    · exact (h.held hold).imp_right fun ⟨hb, hmem⟩ => ⟨hb, List.mem_append_left _ hmem⟩
    · exact .inr ⟨hb, by simp [hheld]⟩
  · have htyped : w1.isTyped = w.isTyped := h1.confined.isTyped_eq
    show connection.target = none ∧ connection.error = none ∧
      connection.type.isSome = (w1.isTyped && _)
    rw [htyped]
    rcases h1.new hc with hold | ⟨-, hnew⟩
    · exact h.new hold hb
    · exact hnew

/-- What joins the block to others above and below. -/
theorem exists_applyStem (h : Making w0 b kind false [] w block) (hout : block.output = none)
    (hprev : block.previous = none) (hnext : block.next = none) (stem : Kind.Stem) :
    ∃ w' block', w.applyStem b stem = .ok w' ∧
      Making w0 b kind (match stem with | .output _ => true | .statement => false)
      [] w' block' := by
  cases stem with
  | output check =>
    have hfurnishes := (sockets_createConnection h.inOrder b .output check).furnishes
    obtain ⟨w', hmodify⟩ := hfurnishes.exists_modify h.lookup
      ({ · with output := some (w.createConnection b .output check).1 })
    have hstem : w.applyStem b (.output check) = .ok w' := by
      simp only [applyStem, declareOutput, getBlock_eq_ok.2 h.lookup, ok_bind, hprev, require,
        Option.isNone_none, if_true]
      exact hmodify
    exact ⟨w', _, hstem,
      h.extend hfurnishes hmodify (h.inOrder.applyStem h.lookup hout hprev hnext hstem) rfl rfl
      (List.append_nil _).symm rfl (h.inputs_after hfurnishes)⟩
  | statement =>
    have hfurnishes := (sockets_createConnection h.inOrder b .previousStatement none).furnishes
    obtain ⟨w1, hmodify⟩ := hfurnishes.exists_modify h.lookup
      ({ · with previous := some (w.createConnection b .previousStatement none).1 })
    have hprevious : w.declarePrevious b none = .ok w1 := by
      simp only [declarePrevious, getBlock_eq_ok.2 h.lookup, ok_bind, hout, require,
        Option.isNone_none, if_true]
      exact hmodify
    have hin : w1.InOrder := (h.inOrder.declarePrevious (fun block' hblock' => by
      cases h.lookup.symm.trans hblock'
      exact hprev) hprevious).1
    have hone : Making w0 b kind false [] w1 _ :=
      h.extend hfurnishes hmodify hin rfl rfl (List.append_nil _).symm h.output
        (h.inputs_after hfurnishes)
    have hfurnishes := (sockets_createConnection hin b .nextStatement none).furnishes
    obtain ⟨w', hmodify⟩ := hfurnishes.exists_modify hone.lookup
      ({ · with next := some (w1.createConnection b .nextStatement none).1 })
    have hstem : w.applyStem b .statement = .ok w' := by
      rw [applyStem, hprevious, ok_bind]
      exact hmodify
    exact ⟨w', _, hstem,
      hone.extend hfurnishes hmodify (h.inOrder.applyStem h.lookup hout hprev hnext hstem) rfl rfl
      (List.append_nil _).symm hone.output (hone.inputs_after hfurnishes)⟩

/-- An input without fields, under a name that is new. -/
theorem exists_appendInput (h : Making w0 b kind hasOutput plans w block)
    (hnew : plan.name ∉ plans.map Kind.InputPlan.name) :
    ∃ w' block', w.appendInput b plan.kind plan.name plan.check = .ok (plans.length, w') ∧
      Making w0 b kind hasOutput (plans ++ [{ plan with fields := [] }]) w' block' := by
  obtain ⟨index, w', happend⟩ := Workspace.exists_appendInput h.lookup plan.kind plan.check fun _ =>
    List.find?_eq_none.2 fun input hinput hname => hnew (by
      rw [← h.map_name]
      exact List.mem_map.2 ⟨input, hinput, by simpa using hname⟩)
  have hw' := h.inOrder.appendInput happend
  have hfurnishes := (sockets_createSocket h.inOrder b plan.kind plan.check).furnishes
  obtain ⟨block', hblock', rfl, -, hmodify⟩ := appendInput_cases happend
  cases h.lookup.symm.trans hblock'
  refine ⟨w', _, by rw [happend, h.inputs.length_eq],
    h.extend hfurnishes hmodify hw' rfl rfl ?_ h.output ?_⟩
  · simp [Block.vars, Block.fields]
  · exact List.rel_append (h.inputs_after hfurnishes) (.cons ⟨rfl, rfl, .nil⟩ .nil)

/-- A field is added to the last input; a variable in it has just been made for the block. -/
theorem exists_appendField {fields : List Kind.FieldPlan} {field : Field}
    (h : Making w0 b kind hasOutput (plans ++ [{ plan with fields }]) w block)
    (h1 : Furnishes b field.value.heldVariable? w w1) (hmade : new.Made w1 b field)
    (hw1 : w1.InOrder) :
    ∃ w' block', w1.appendField b plans.length field = .ok w' ∧
      Making w0 b kind hasOutput (plans ++ [{ plan with fields := fields ++ [new] }]) w'
        block' := by
  -- the last input is the one that is added to
  obtain ⟨front, input, hinputs, hfront, hinput⟩ := exists_last_of_forall₂ (h.inputs_after h1)
  have hmodify : block.inputs.modify plans.length
      (fun i => { i with fields := i.fields ++ [field] }) =
      front ++ [{ input with fields := input.fields ++ [field] }] := by
    rw [hinputs, hfront.length_eq, modify_last]
  obtain ⟨w', happend⟩ := Workspace.exists_appendField (h1.blocks ▸ h.lookup)
    (by simp [hinputs, hfront.length_eq] : plans.length < block.inputs.length) field
  have hw' := hw1.keeps (keeps_appendField happend)
  obtain ⟨_, -, happended⟩ := bind_eq_ok.1 happend
  obtain ⟨_, -, happended⟩ := bind_eq_ok.1 happended
  refine ⟨w', _, happend, h.extend h1 happended hw' rfl rfl ?_ h.output ?_⟩
  · rw [hmodify, Block.vars_appendField hinputs]
  · rw [hmodify]
    exact List.rel_append hfront (.cons ⟨hinput.name, hinput.kind, List.rel_append hinput.fields
      (.cons hmade .nil)⟩ .nil)

/-- A field with a variable that the block declares or uses. -/
theorem exists_appendVariable {fields : List Kind.FieldPlan}
    (h : Making w0 b kind hasOutput (plans ++ [{ plan with fields }]) w block)
    (htypes : w.types.Carries types) (huntyped : w.isTyped = false → types = w.types)
    {name : String} {role : VariableRole}
    (hmade : ∀ w' : Workspace, w'.vars[(⟨w.variableCount⟩ : VariableId)]? =
        some ⟨Kind.defaultName, b, role⟩ → new.Made w' b ⟨name, .var ⟨w.variableCount⟩⟩)
    (hkeeps : Keeps w ({ w with types }.pushVariable ⟨Kind.defaultName, b, role⟩).2) :
    ∃ w' block', ({ w with types }.pushVariable ⟨Kind.defaultName, b, role⟩).2.appendField b
        plans.length ⟨name, .var ⟨w.variableCount⟩⟩ = .ok w' ∧
      Making w0 b kind hasOutput (plans ++ [{ plan with fields := fields ++ [new] }]) w' block' :=
  h.exists_appendField (furnishes_pushVariable h.counted htypes huntyped _ rfl)
    (hmade _ ((getElem?_insert_eq ..).trans (if_pos rfl))) (h.inOrder.keeps hkeeps)

theorem exists_appendPlannedField {fields : List Kind.FieldPlan}
    (h : Making w0 b kind hasOutput (plans ++ [{ plan with fields }]) w block)
    (new : Kind.FieldPlan) :
    ∃ w' block', w.appendPlannedField b plans.length new = .ok w' ∧
      Making w0 b kind hasOutput (plans ++ [{ plan with fields := fields ++ [new] }]) w'
        block' := by
  have hkeeps := keeps_newValue w b Kind.defaultName
  have hplain : ∀ {field : Field}, new.Made w b field → field.value.heldVariable? = none → _ :=
      fun hmade hheld =>
    h.exists_appendField (hheld ▸ ⟨.refl _ _ w, rfl, id, .inl, id, .inl⟩) hmade h.inOrder
  cases new with
  | binder name =>
    simp only [Workspace.appendPlannedField, newValue] at hkeeps ⊢
    split at hkeeps
    · next htyped =>
      rw [if_pos htyped]
      exact h.exists_appendVariable (.fresh w.types) (fun huntyped => by simp [huntyped] at htyped)
        (fun w' hv => ⟨_, _, rfl, hv⟩) hkeeps
    · next htyped =>
      rw [if_neg htyped]
      exact h.exists_appendVariable (.refl w.types) (fun _ => rfl)
        (fun w' hv => ⟨_, _, rfl, hv⟩) hkeeps
  | reference name =>
    exact h.exists_appendVariable (.refl w.types) (fun _ => rfl) (fun w' hv => ⟨_, rfl, hv⟩)
      (keeps_newReference w b Kind.defaultName)
  | _ => exact hplain rfl rfl

theorem exists_appendPlannedInput (h : Making w0 b kind hasOutput plans w block)
    (hnew : plan.name ∉ plans.map Kind.InputPlan.name) :
    ∃ w' block', w.appendPlannedInput b plan = .ok w' ∧
    Making w0 b kind hasOutput (plans ++ [plan]) w' block' := by
  obtain ⟨w1, block1, happend, h1⟩ := h.exists_appendInput hnew
  obtain ⟨w', hfields, done, block', hdone, h'⟩ := exists_foldlM_rest
    (f := fun w field => w.appendPlannedField b plans.length field)
    (P := fun rest w => ∃ done block, done ++ rest = plan.fields ∧
      Making w0 b kind hasOutput (plans ++ [{ plan with fields := done }]) w block)
      (fun new rest w h => by
      obtain ⟨done, block, hdone, h⟩ := h
      obtain ⟨w', block', hrun, h'⟩ := h.exists_appendPlannedField new
      exact ⟨w', hrun, done ++ [new], block', by simpa using hdone, h'⟩) ⟨[], block1, rfl, h1⟩
  rw [List.append_nil] at hdone
  subst hdone
  exact ⟨w', block', by rw [appendPlannedInput, happend, ok_bind]; exact hfields, h'⟩

/-- The layout of its kind can be applied to a block that was just entered. -/
theorem exists_layout (hw : w.InOrder) (hcounted : w.Counted) (hnone : w.blocks[b]? = none)
    (kind : Kind) (next : Nat) :
    ∃ w' block, Workspace.applyLayout
        { w with nextBlock := next, blocks := w.blocks.insert b { kind }, top := w.top ++ [b] } b
          kind.layout = .ok w' ∧
      Making w b kind kind.hasOutput kind.layout.inputs w' block := by
  obtain ⟨x, block0, hstem, h0⟩ := (start hw hcounted hnone kind next).exists_applyStem rfl rfl rfl
    kind.layout.stem
  obtain ⟨w', hinputs, done, block, hdone, h⟩ :=
    exists_foldlM_rest (f := fun w plan => w.appendPlannedInput b plan)
      (P := fun rest v => ∃ done block, done ++ rest = kind.layout.inputs ∧
        Making w b kind kind.hasOutput done v block)
    (fun plan rest v h => by
      obtain ⟨done, block, hdone, h⟩ := h
      have hnodup := kind.nodup_layout
      rw [← hdone, List.map_append, List.map_cons] at hnodup
      have hnew : plan.name ∉ done.map Kind.InputPlan.name := fun hmem =>
        (List.nodup_append.1 hnodup).2.2 _ hmem _ List.mem_cons_self rfl
      obtain ⟨v', block', hrun, h'⟩ := h.exists_appendPlannedInput hnew
      exact ⟨v', hrun, done ++ [plan], block', by simpa using hdone, h'⟩) ⟨[], block0, rfl, h0⟩
  rw [List.append_nil] at hdone
  exact ⟨w', block, by rw [applyLayout, hstem, ok_bind, hinputs], hdone ▸ h⟩

end Making

/-- A block that was made to the end, before it is given types. -/
theorem exists_making (hw : w.InOrder) (hcounted : w.Counted) {id : BlockId}
    (h : w.newBlockWithId kind id = .ok w') :
    ∃ x block z, w.blocks[id]? = none ∧ Making w id kind kind.hasOutput kind.layout.inputs x block ∧
      x.declareTypesIfTyped id = .ok z ∧ w' = z.fire (.create id kind) := by
  simp only [newBlockWithId, bind_eq_ok, require_eq_ok] at h
  obtain ⟨_, hunused, x, hx, z, hz, h⟩ := h
  cases h
  have hnone : w.blocks[id]? = none := containsBlock_eq_false_iff.1 (by simpa using hunused)
  obtain ⟨x', block, hx', hmaking⟩ := Making.exists_layout hw hcounted hnone kind _
  cases hx.symm.trans hx'
  exact ⟨x, block, z, hnone, hmaking, hz, rfl⟩

end Workspace

/-! ## What the layouts have in common -/

namespace Kind

theorem plain_of_not_variable {k : Kind} (h : ¬ (k.isBinder = true ∨ k = .variablesGet)) :
    ∀ plan ∈ k.layout.fields, plan.isVariable = false := by
  revert h
  cases k <;> decide

/-- A field for the variable of a block holds a variable. -/
theorem isVariable_of_name (k : Kind) :
    ∀ plan ∈ k.layout.fields, plan.name = variableField → plan.isVariable = true := by
  cases k <;> decide

theorem isReference_iff (k : Kind) : ∀ plan ∈ k.layout.fields, plan.isVariable = true →
    (plan.isReference = true ↔ k = .variablesGet) := by
  cases k <;> decide

theorem isBinder_iff {k : Kind} : k.isBinder = true ↔ k = .lambda ∨ k = .letIn := by
  cases k <;> decide

/-- A new block has the items of its layout. -/
theorem plannedInputs_layout (k : Kind) :
    k.plannedInputs ((k.layout.inputs.map InputPlan.name).filter fun name =>
      itemMark.isPrefixOf name).length = k.layout.inputs.map fun plan =>
          (plan.name, plan.kind) := by
  cases k <;> decide +kernel

end Kind

namespace Block

/-- A field for the variable of a block holds a variable. -/
def Marked (block : Block) : Prop :=
  ∀ field ∈ block.fields, field.name = Kind.variableField → field.value.heldVariable?.isSome = true

/-- Moreover no two inputs share a name. -/
structure Plain (block : Block) : Prop where
  holds : block.Marked
  names : ((block.inputs.map Input.name).filter fun name => name ≠ "").Nodup

end Block

namespace Workspace

variable {w0 w w' : Workspace} {b : BlockId} {kind : Kind}

theorem Housed.keepsLayout (hw : w.Housed) {block : Block} (hblock : w.blocks[b]? = some block)
    (h : block.Laid) : w.KeepsLayout b block where
  inputs := h.inputs
  output := h.output
  ownVariable hkind := by
    obtain ⟨v, hv⟩ := Option.isSome_iff_exists.1 ((hw.tidy hblock).own.2 hkind)
    obtain ⟨found, hfound, hb, hreference⟩ := hw.var hblock hv
    exact ⟨v, found, (ownVariable_eq_ok hblock).2 hv, hfound, hb, hreference⟩

namespace Making

variable {block : Block} (h : Making w0 b kind kind.hasOutput kind.layout.inputs w block)
  {v : VariableId}

include h

theorem fields : Forall₂ (Kind.FieldPlan.Made w b) kind.layout.fields block.fields :=
  List.rel_flatMap h.inputs fun _ _ hmade => hmade.fields

theorem exists_plan {field : Field} (hfield : field ∈ block.fields) :
    ∃ plan ∈ kind.layout.fields, plan.Made w b field := by
  have hall : ∀ {plans : List Kind.FieldPlan} {fields : List Field},
      Forall₂ (Kind.FieldPlan.Made w b) plans fields → field ∈ fields →
      ∃ plan ∈ plans, plan.Made w b field := by
    intro plans fields hmade hmem
    induction hmade with
    | nil => cases hmem
    | cons hplan _ ih =>
      rcases List.mem_cons.1 hmem with rfl | hmem
      · exact ⟨_, List.mem_cons_self, hplan⟩
      · obtain ⟨plan, hplan, hmade⟩ := ih hmem
        exact ⟨plan, List.mem_cons_of_mem _ hplan, hmade⟩
  exact hall h.fields hfield

theorem laid : block.Laid := by
  refine ⟨?_, by rw [h.output, h.kind_eq]⟩
  rw [Kind.InputPlan.Made.map_eq h.inputs, h.kind_eq, Block.itemNames, h.map_name,
    Kind.plannedInputs_layout]

theorem plain : block.Plain := by
  refine ⟨fun field hfield hname => ?_, ?_⟩
  · obtain ⟨plan, hplan, hmade⟩ := h.exists_plan hfield
    obtain ⟨hsame, -, hvariable⟩ := hmade.held
    obtain ⟨v, -, hv, -⟩ := hvariable (kind.isVariable_of_name plan hplan (hsame.symm.trans hname))
    rw [hv]
    rfl
  · have hnodup := (h.laid.inputs.map Prod.fst).nodup_iff.2 (Kind.nodup_plannedInputs _ _)
    rw [List.map_map] at hnodup
    exact hnodup.filter _

/-- The block holds the one variable it declares or uses, if it is of that kind. -/
theorem tidy : block.Tidy := by
  by_cases hkind : kind.isBinder = true ∨ kind = .variablesGet
  · have hown : ∃ v, block.vars = [v] ∧ block.own? = some v := by
      have hfields := h.fields
      unfold Block.vars Block.own? Block.field?
      generalize block.fields = fields at hfields
      rw [Kind.isBinder_iff] at hkind
      rcases hkind with (rfl | rfl) | rfl
      · rcases hfields with _ | ⟨⟨⟩, _ | ⟨⟨v, _, rfl, -⟩, _ | ⟨⟨⟩, ⟨⟩⟩⟩⟩
        exact ⟨v, rfl, rfl⟩
      · rcases hfields with _ | ⟨⟨⟩, _ | ⟨⟨v, _, rfl, -⟩, _ | ⟨⟨⟩, _ | ⟨⟨⟩, ⟨⟩⟩⟩⟩⟩
        exact ⟨v, rfl, rfl⟩
      · rcases hfields with _ | ⟨⟨v, rfl, -⟩, ⟨⟩⟩
        exact ⟨v, rfl, rfl⟩
    obtain ⟨v, hvars, hown⟩ := hown
    exact ⟨by rw [hvars, hown]; rfl, by rw [hown, h.kind_eq]; simpa using hkind⟩
  · have hnone : ∀ field ∈ block.fields, field.value.heldVariable? = none := fun field hfield => by
      obtain ⟨plan, hplan, hmade⟩ := h.exists_plan hfield
      exact hmade.held.2.1 (Kind.plain_of_not_variable hkind plan hplan)
    have hown : block.own? = none := by
      cases hfield : block.field? Kind.variableField with
      | none => rw [Block.own?, hfield]; rfl
      | some field =>
        rw [Block.own?, hfield]
        exact hnone field (List.mem_of_find?_eq_some hfield)
    refine ⟨?_, by rw [hown, h.kind_eq]; simpa using hkind⟩
    rw [hown, Block.vars, List.filterMap_eq_nil_iff.2 hnone]
    rfl

/-- A variable of the block is bound to nothing, and is a use exactly in a block that is one. -/
theorem exists_variable (hv : v ∈ block.vars) :
    ∃ found, w.vars[v]? = some found ∧ found.block = b ∧ found.binding? = none ∧
      (found.isReference = true ↔ kind = .variablesGet) := by
  obtain ⟨field, hfield, hheld⟩ := List.mem_filterMap.1 hv
  obtain ⟨plan, hplan, hmade⟩ := h.exists_plan hfield
  obtain ⟨-, hplain, hvariable⟩ := hmade.held
  have hisVariable : plan.isVariable = true := by
    cases hbool : plan.isVariable with
    | true => rfl
    | false =>
      rw [hplain hbool] at hheld
      cases hheld
  obtain ⟨u, found, hu, hfound, hblock, hbinding, hreference⟩ := hvariable hisVariable
  rw [hu] at hheld
  cases hheld
  exact ⟨found, hfound, hblock, hbinding, by
    rw [hreference, kind.isReference_iff plan hplan hisVariable]⟩

/-- A variable that belongs to the block is new, and in a field of it. -/
theorem mem_vars (ho : w0.Housed) {found : Variable} (hv : w.vars[v]? = some found)
    (hb : found.block = b) : v ∈ block.vars := by
  rcases h.held hv with hold | ⟨-, hmem⟩
  · obtain ⟨owner, howner, -⟩ := ho.holder hold
    rw [hb, h.entered] at howner
    cases howner
  · exact hmem

/-- With the new block, variables are in order as before. -/
theorem housed (ho : w0.Housed) : w.Housed := by
  have hblocks : ∀ {x : BlockId}, x ≠ b → w.blocks[x]? = w0.blocks[x]? := fun hx => by
    have := h.confined.agree.block hx
    simpa [View.all] using this
  have hvars : ∀ {v : VariableId} {found : Variable}, w0.vars[v]? = some found → found.block ≠ b →
      w.vars[v]? = some found := fun hv hb => by
    have := h.confined.agree.var hv hb
    simpa [View.all] using this
  refine ⟨fun {x owner} hx => ?_, fun {x owner v} hx hown => ?_, fun {v found} hv => ?_,
    fun {v found} hv => h.counted v found hv⟩
  · by_cases hb : x = b
    · subst hb
      cases h.lookup.symm.trans hx
      exact h.tidy
    · rw [hblocks hb] at hx
      exact ho.tidy hx
  · by_cases hb : x = b
    · subst hb
      cases h.lookup.symm.trans hx
      obtain ⟨found, hfound, hholder, -, hreference⟩ := h.exists_variable (h.tidy.mem_vars.2 hown)
      exact ⟨found, hfound, hholder, by rw [hreference, h.kind_eq]⟩
    · rw [hblocks hb] at hx
      obtain ⟨found, hfound, hholder, hreference⟩ := ho.var hx hown
      exact ⟨found, hvars hfound (by rw [hholder]; exact hb), hholder, hreference⟩
  · by_cases hb : found.block = b
    · exact ⟨block, by rw [hb]; exact h.lookup, h.tidy.mem_vars.1 (h.mem_vars ho hv hb)⟩
    · obtain ⟨owner, howner, hown⟩ := ho.holder ((h.held hv).resolve_right fun hnew => hb hnew.1)
      exact ⟨owner, by rw [hblocks hb]; exact howner, hown⟩

theorem owned (ho : w0.Owned) : w.Owned := by
  refine ⟨h.housed ho.toHoused, fun htyped v found hv => ?_⟩
  rcases h.held hv with hold | ⟨-, hmem⟩
  · refine ho.unbound ?_ hold
    rw [isTyped, ← h.confined.agree.options]
    exact htyped
  · obtain ⟨found', hfound', -, hbinding, -⟩ := h.exists_variable hmem
    cases hv.symm.trans hfound'
    exact hbinding

end Making

end Workspace

end BlockGraph
