import BlockGraph.Proofs.Upkeep.Inputs

/-!
# Extending a block

A descriptor is worked off input by input.  An input is appended if its kind is known and its name
is new: neither the block nor an input that stands before it in the descriptor has it.  Of the
fields of such an input those are made whose value can be used.  All else is skipped, and reported
in order.

`InputDescriptor.judge` says for every described input whether it is skipped, and why, from the
names that are in use alone.  `exists_extendInputs` is the main statement: the inputs can be
appended, and the block then has its old inputs and behind them those that were accepted
(`Workspace.Extended`), while the others and the fields that could not be made are reported.
-/

namespace BlockGraph

variable {b : BlockId} {block : Block} {kind : InputKind} {name : String} {check : Check}
  {field : Field} {error : DescriptorError} {inputs : List InputDescriptor}

/-! ## What is accepted -/

namespace FieldDescriptor

/-- The field that is made, if the value can be used. -/
def made? (d : FieldDescriptor) : Option Field := d.fieldValue.toOption.map (⟨d.name, ·⟩)

/-- Why the field is not made, if it is not. -/
def error? (d : FieldDescriptor) : Option DescriptorError :=
  match d.fieldValue with
  | .ok _ => none
  | .error error => some error

end FieldDescriptor

namespace InputDescriptor

variable {d : InputDescriptor} {used used' : List String}

def madeFields (d : InputDescriptor) : List Field := d.fields.filterMap FieldDescriptor.made?

def fieldErrors (d : InputDescriptor) : List DescriptorError :=
  d.fields.filterMap FieldDescriptor.error?

/-- Why an input is skipped, if it is, where some names are in use. -/
def refusal? (d : InputDescriptor) (used : List String) : Option DescriptorError :=
  if d.inputKind?.isNone then some (.unknownInputKind d.name d.kind)
  else if d.name ≠ "" ∧ d.name ∈ used then some (.duplicateInput d.name)
  else none

/-- The names of the described inputs whose kind is known. -/
def knownNames (inputs : List InputDescriptor) : List String :=
  (inputs.filter (·.inputKind?.isSome)).map InputDescriptor.name

/-- Every described input with the reason why it is skipped, if it is.  In use are some names from
the start, and those of the inputs that stand before. -/
def judge (used : List String) (inputs : List InputDescriptor) :
    List (InputDescriptor × Option DescriptorError) :=
  inputs.mapIdx fun i d => (d, d.refusal? (used ++ knownNames (inputs.take i)))

/-- The described inputs that are appended. -/
def accepted (used : List String) (inputs : List InputDescriptor) : List InputDescriptor :=
  ((judge used inputs).filter (·.2.isNone)).map Prod.fst

/-- What is reported of a described input: why it is skipped, or else what is wrong with its
fields. -/
def report (verdict : InputDescriptor × Option DescriptorError) : List DescriptorError :=
  match verdict.2 with
  | some error => [error]
  | none => verdict.1.fieldErrors

def skipped (used : List String) (inputs : List InputDescriptor) : List DescriptorError :=
  (judge used inputs).flatMap report

theorem refusal?_congr (h : ∀ name, name ≠ "" → (name ∈ used ↔ name ∈ used')) :
    d.refusal? used = d.refusal? used' := by
  unfold refusal?
  by_cases hname : d.name = ""
  · simp [hname]
  · simp [hname, h d.name hname]

theorem judge_congr (h : ∀ name, name ≠ "" → (name ∈ used ↔ name ∈ used'))
    (inputs : List InputDescriptor) :
    judge used inputs = judge used' inputs := by
  unfold judge
  congr 1
  funext i d
  rw [refusal?_congr fun name hname => ?_]
  rw [List.mem_append, List.mem_append, h name hname]

theorem judge_cons (used : List String) (d : InputDescriptor) (rest : List InputDescriptor) :
    judge used (d :: rest) = (d, d.refusal? used) :: judge (used ++ knownNames [d]) rest := by
  have hnames : ∀ l, knownNames (d :: l) = knownNames [d] ++ knownNames l := by
    intro l
    simp only [knownNames, List.filter_cons, List.filter_nil]
    split <;> rfl
  unfold judge
  rw [List.mapIdx_cons]
  simp only [List.take_zero, knownNames, List.filter_nil, List.map_nil, List.append_nil,
    List.take_succ_cons]
  congr 2
  funext i e
  rw [List.append_assoc]
  exact congrArg (fun names => (e, e.refusal? (used ++ names))) (hnames _)

theorem refusal?_eq_none_iff : d.refusal? used = none ↔
    d.inputKind?.isSome = true ∧ (d.name = "" ∨ d.name ∉ used) := by
  unfold refusal?
  cases d.inputKind? with
  | none => simp
  | some kind => by_cases hname : d.name = "" <;> simp [hname]

/-- The name of an input that is appended is in use from then on. -/
theorem judge_cons_of_accepted (h : d.refusal? used = none) (rest : List InputDescriptor) :
    judge used (d :: rest) = (d, none) :: judge (used ++ [d.name]) rest := by
  rw [judge_cons, h]
  simp [knownNames, (refusal?_eq_none_iff.1 h).1]

/-- An input that is skipped leaves the names that are in use as they are. -/
theorem judge_cons_of_refused (h : d.refusal? used = some error)
    (rest : List InputDescriptor) :
    judge used (d :: rest) = (d, some error) :: judge used rest := by
  rw [judge_cons, h]
  congr 1
  cases hkind : d.inputKind? with
  | none => simp [knownNames, hkind]
  | some kind =>
    -- the kind is known, so the name was in use
    have hmem : d.name ∈ used := by
      by_contra hnot
      have hnone := refusal?_eq_none_iff.2 ⟨by rw [hkind]; rfl, .inr hnot⟩
      rw [h] at hnone
      cases hnone
    refine judge_congr (fun name _ => ?_) rest
    have hnames : knownNames [d] = [d.name] := by simp [knownNames, hkind]
    rw [hnames, List.mem_append, List.mem_singleton, or_iff_left_of_imp]
    rintro rfl
    exact hmem

theorem accepted_cons_of_accepted (h : d.refusal? used = none) (rest : List InputDescriptor) :
    accepted used (d :: rest) = d :: accepted (used ++ [d.name]) rest := by
  simp [accepted, judge_cons_of_accepted h]

theorem accepted_cons_of_refused (h : d.refusal? used = some error)
    (rest : List InputDescriptor) : accepted used (d :: rest) = accepted used rest := by
  simp [accepted, judge_cons_of_refused h]

/-- Names that were apart stay apart. -/
theorem nodup_accepted :
    ∀ {used : List String}, (used.filter fun name => name ≠ "").Nodup →
      ((used ++ (accepted used inputs).map InputDescriptor.name).filter fun name =>
        name ≠ "").Nodup := by
  induction inputs with
  | nil => simp [accepted, judge]
  | cons d rest ih =>
    intro used hused
    cases hrefusal : d.refusal? used with
    | none =>
      have hnext : ((used ++ [d.name]).filter fun name => name ≠ "").Nodup := by
        rw [List.filter_append]
        refine hused.append ((List.nodup_singleton _).filter _) fun name hold hnew => ?_
        obtain ⟨hmem, hne⟩ := List.mem_filter.1 hold
        rw [List.mem_singleton.1 (List.mem_of_mem_filter hnew)] at hmem hne
        rcases (refusal?_eq_none_iff.1 hrefusal).2 with hempty | hnot
        · simp [hempty] at hne
        · exact hnot hmem
      rw [accepted_cons_of_accepted hrefusal, List.map_cons, List.append_cons]
      exact ih hnext
    | some error =>
      rw [accepted_cons_of_refused hrefusal]
      exact ih hused

/-- An input is one that was made for a described one. -/
structure Made (w : Workspace) (b : BlockId) (d : InputDescriptor) (input : Input) : Prop where
  name : input.name = d.name
  kind : d.inputKind? = some input.kind
  fields : input.fields = d.madeFields
  /-- It has a socket unless it is a dummy; the socket is free and has the check that is
  described. -/
  socket : input.kind ≠ .dummy → ∃ c connection, input.connection = some c ∧
    w.connections[c]? = some connection ∧ connection.block = b ∧ connection.check = d.check ∧
    connection.target = none

end InputDescriptor

namespace Workspace

variable {w w' w'' : Workspace} {block' block'' : Block} {index : Nat} {d : InputDescriptor}

/-! ## Single steps -/

/-- A connection that is there stays as it is, its type and error apart. -/
def KeepsJoints (w w' : Workspace) : Prop :=
  ∀ (c : ConnectionId) (connection : Connection), w.connections[c]? = some connection →
    ∃ connection', w'.connections[c]? = some connection' ∧ connection'.joint = connection.joint

theorem KeepsJoints.refl (w : Workspace) : KeepsJoints w w := fun _ connection hc =>
  ⟨connection, hc, rfl⟩

theorem KeepsJoints.trans (h : KeepsJoints w w') (h' : KeepsJoints w' w'') : KeepsJoints w w'' := by
  intro c connection hc
  obtain ⟨connection', hc', heq⟩ := h c connection hc
  obtain ⟨connection'', hc'', heq'⟩ := h' c connection' hc'
  exact ⟨connection'', hc'', heq'.trans heq⟩

theorem KeepsJoints.of_retouches (h : Retouches w w') : KeepsJoints w w' := by
  intro c connection hc
  exact exists_of_map_eq (h.joint c) hc

theorem KeepsJoints.made (hkeeps : KeepsJoints w w') {input : Input}
    (h : d.Made w b input) : d.Made w' b input where
  name := h.name
  kind := h.kind
  fields := h.fields
  socket hkind := by
    obtain ⟨c, connection, hinput, hc, hb, hcheck, htarget⟩ := h.socket hkind
    obtain ⟨connection', hc', heq⟩ := hkeeps c connection hc
    exact ⟨c, connection', hinput, hc', (congrArg Joint.block heq).trans hb,
      (congrArg Joint.check heq).trans hcheck, (congrArg Joint.target heq).trans htarget⟩

theorem Reshaped.refl (hw : w.InOrder) (hblock : w.blocks[b]? = some block) :
    Reshaped b block block w w :=
  ⟨hw, .refl _ _ w, rfl, rfl, hblock, hblock, rfl, rfl, rfl, rfl⟩

theorem Reshaped.trans (h : Reshaped b block block' w w') (h' : Reshaped b block' block'' w' w'') :
    Reshaped b block block'' w w'' where
  inOrder := h'.inOrder
  confined := h.confined.trans h'.confined
  vars := h'.vars.trans h.vars
  count := h'.count.trans h.count
  old := h.old
  new := h'.new
  kind := h'.kind.trans h.kind
  held := h'.held.trans h.held
  own := h'.own.trans h.own
  parent := h'.parent.trans h.parent

/-- What a new socket is like. -/
theorem exists_of_createSocket (w : Workspace) (b : BlockId) (check : Check)
    (hkind : kind ≠ .dummy) :
    ∃ c connection, (w.createSocket b kind check).1 = some c ∧
      (w.createSocket b kind check).2.connections[c]? = some connection ∧ connection.block = b ∧
      connection.check = check ∧ connection.target = none := by
  cases kind with
  | value | statement =>
    exact ⟨_, _, rfl, (getElem?_insert_eq ..).trans (if_pos rfl), rfl, rfl, rfl⟩
  | dummy => exact absurd rfl hkind

theorem InOrder.keepsJoints_createSocket (hw : w.InOrder) (b : BlockId) (kind : InputKind)
    (check : Check) :
    KeepsJoints w (w.createSocket b kind check).2 := by
  intro c connection hc
  refine ⟨connection, ?_, rfl⟩
  rw [connection_createSocket, hc]
  rintro rfl
  have hfresh := hw.formed.wired.joint_fresh (c := ⟨w.connectionCount⟩) rfl
  rw [joint_of_connection hc] at hfresh
  cases hfresh

theorem heldVariable?_of_fieldValue {d : FieldDescriptor} {value : FieldValue}
    (h : d.fieldValue = .ok value) : value.heldVariable? = none := by
  have hmap : ∀ {α : Type} {x : Except DescriptorError α} {f : α → FieldValue},
      (∀ a, (f a).heldVariable? = none) → x.map f = .ok value → value.heldVariable? = none := by
    intro α x f hf hx
    cases x with
    | error e => cases hx
    | ok a =>
      cases hx
      exact hf a
  unfold FieldDescriptor.fieldValue at h
  split at h
  · exact hmap (fun _ => rfl) h
  split at h
  · exact hmap (fun _ => rfl) h
  split at h
  · exact hmap (fun _ => rfl) h
  split at h
  · exact hmap (fun _ => rfl) h
  split at h
  · split at h
    · cases h
      rfl
    · cases h
  · cases h

theorem InOrder.exists_appendedField (hw : w.InOrder) (hblock : w.blocks[b]? = some block)
    (hlast : block.inputs.length = index + 1) (hheld : field.value.heldVariable? = none)
    (h : w.appendField b index field = .ok w') :
    Reshaped b block { block with inputs := block.inputs.modify index fun i =>
      { i with fields := i.fields ++ [field] } } w w' := by
  have hw' := hw.keeps (keeps_appendField h)
  simp only [appendField, bind_eq_ok] at h
  obtain ⟨_, -, _, -, h⟩ := h
  have hagree : AgreeOff .all (· = b) w w' := .modifyBlock h rfl
  obtain ⟨block', hblock', rfl⟩ := modifyBlock_eq_ok.1 h
  cases hblock.symm.trans hblock'
  have hfields := Block.fields_appendField hlast field
  refine ⟨hw', .of_types hagree rfl, rfl, rfl, hblock, by simp, rfl, ?_,
    Block.own?_of_fields hfields hheld, rfl⟩
  rw [Block.vars, hfields, List.filterMap_append, Block.vars]
  simp [hheld]

/-! ## One described input -/

/-- Behind the inputs of a block stand inputs made for described ones, and nothing else has
changed. -/
structure Extended (b : BlockId) (block : Block) (made : List InputDescriptor) (w w' : Workspace)
    (block' : Block) : Prop where
  reshaped : Reshaped b block block' w w'
  joints : KeepsJoints w w'
  appended : ∃ added, block' = { block with inputs := block.inputs ++ added } ∧
    List.Forall₂ (InputDescriptor.Made w' b) made added

theorem Extended.nil (hw : w.InOrder) (hblock : w.blocks[b]? = some block) : Extended b block
    [] w w block :=
  ⟨.refl hw hblock, .refl w, [], by simp, .nil⟩

theorem Extended.append {made made' : List InputDescriptor} (h : Extended b block made w w' block')
    (h' : Extended b block' made' w' w'' block'') :
    Extended b block (made ++ made') w w'' block'' := by
  obtain ⟨added, rfl, hadded⟩ := h.appended
  obtain ⟨added', rfl, hadded'⟩ := h'.appended
  refine ⟨h.reshaped.trans h'.reshaped, h.joints.trans h'.joints, added ++ added', by simp, ?_⟩
  exact List.rel_append (hadded.imp fun _ _ => h'.joints.made) hadded'

/-- The fields that can be made are appended to the last input, the others are reported. -/
theorem exists_extendFields (fields : List FieldDescriptor) {front : List Input} :
    ∀ {w : Workspace} {block : Block} {last : Input}, w.InOrder → w.blocks[b]? = some block →
      block.inputs = front ++ [last] → ∃ w', w.extendFields b front.length fields =
        .ok (fields.filterMap FieldDescriptor.error?, w') ∧ w'.connections = w.connections ∧
        Reshaped b block { block with inputs := front ++ [{ last with
          fields := last.fields ++ fields.filterMap FieldDescriptor.made? }] } w w' := by
  induction fields with
  | nil =>
    intro w block last hw hblock hinputs
    refine ⟨w, rfl, rfl, ?_⟩
    simpa [← hinputs] using Reshaped.refl hw hblock
  | cons d fields ih =>
    intro w block last hw hblock hinputs
    cases hvalue : d.fieldValue with
    | error error =>
      obtain ⟨w', hrun, hconnections, hreshaped⟩ := ih hw hblock hinputs
      refine ⟨w', ?_, hconnections, ?_⟩
      · simp only [extendFields, hvalue, hrun, ok_bind, pure_eq_ok]
        simp [FieldDescriptor.error?, hvalue]
      · simpa [FieldDescriptor.made?, hvalue, Except.toOption] using hreshaped
    | ok value =>
      have hlength : block.inputs.length = front.length + 1 := by simp [hinputs]
      obtain ⟨w1, h1⟩ := exists_appendField hblock (by omega : front.length < _) ⟨d.name, value⟩
      have hfirst := hw.exists_appendedField hblock hlength (heldVariable?_of_fieldValue hvalue) h1
      have hconnections1 : w1.connections = w.connections := by
        simp only [appendField, bind_eq_ok] at h1
        obtain ⟨_, -, _, -, h1⟩ := h1
        obtain ⟨_, -, rfl⟩ := modifyBlock_eq_ok.1 h1
        rfl
      have hinputs1 : block.inputs.modify front.length
          (fun i => { i with fields := i.fields ++ [⟨d.name, value⟩] }) =
          front ++ [{ last with fields := last.fields ++ [⟨d.name, value⟩] }] := by
        rw [hinputs, List.modify_eq_set_getElem?]
        simp
      rw [hinputs1] at hfirst
      obtain ⟨w', hrun, hconnections, hreshaped⟩ := ih hfirst.inOrder hfirst.new rfl
      refine ⟨w', ?_, hconnections.trans hconnections1, ?_⟩
      · simp only [extendFields, hvalue, h1, ok_bind, hrun]
        simp [FieldDescriptor.error?, hvalue]
      · refine hfirst.trans ?_
        simpa [FieldDescriptor.made?, hvalue, Except.toOption] using hreshaped

/-- An input that is not refused is made. -/
theorem InOrder.exists_extendInput (hw : w.InOrder) (hblock : w.blocks[b]? = some block)
    (haccepted : d.refusal? (block.inputs.map Input.name) = none) :
    ∃ w' block', w.extendInput b d = .ok (d.fieldErrors, w') ∧ Extended b block
    [d] w w' block' := by
  obtain ⟨hknown, hnew⟩ := InputDescriptor.refusal?_eq_none_iff.1 haccepted
  obtain ⟨kind, hkind⟩ := Option.isSome_iff_exists.1 hknown
  have hname : d.name.isEmpty = false → block.input? d.name = none := by
    intro hempty
    refine List.find?_eq_none.2 fun input hinput heq => ?_
    rcases hnew with hnew | hnew
    · simp [hnew] at hempty
    · exact hnew (List.mem_map.2 ⟨input, hinput, eq_of_beq heq⟩)
  obtain ⟨index, w1, h1⟩ := exists_appendInput hblock kind d.check hname
  obtain ⟨block1, hblock1, rfl, -, hmodify⟩ := appendInput_cases h1
  cases hblock.symm.trans hblock1
  have hreshaped1 := Reshaped.of_input (hw.appendInput h1) (sockets_createSocket hw b kind d.check)
    hblock rfl hmodify
  have hconnections1 : w1.connections = (w.createSocket b kind d.check).2.connections := by
    obtain ⟨_, -, rfl⟩ := modifyBlock_eq_ok.1 hmodify
    rfl
  obtain ⟨w', h2, hconnections, hreshaped⟩ :=
    exists_extendFields d.fields hreshaped1.inOrder hreshaped1.new rfl
  have hsame : w'.connections = (w.createSocket b kind d.check).2.connections :=
    hconnections.trans hconnections1
  refine ⟨w', _, ?_, hreshaped1.trans hreshaped, fun c connection hc => ?_, _, rfl, .cons ?_ .nil⟩
  · simp only [Workspace.extendInput, hkind, getBlock_eq_ok.2 hblock, ok_bind, h1, h2]
    cases hempty : d.name.isEmpty with
    | true => rfl
    | false =>
      rw [hname hempty]
      rfl
  · rw [hsame]
    exact hw.keepsJoints_createSocket b kind d.check c connection hc
  · refine ⟨rfl, hkind, by simp [InputDescriptor.madeFields], fun hdummy => ?_⟩
    obtain ⟨c, connection, hc, hconnection, hrest⟩ := exists_of_createSocket w b d.check hdummy
    exact ⟨c, connection, hc, by rw [hsame, hconnection], hrest⟩

/-- An input that is refused is reported, and nothing changes. -/
theorem extendInput_of_refusal (hblock : w.blocks[b]? = some block)
    (h : d.refusal? (block.inputs.map Input.name) = some error) :
    w.extendInput b d = .ok ([error], w) := by
  unfold InputDescriptor.refusal? at h
  cases hkind : d.inputKind? with
  | none =>
    simp only [hkind, Option.isNone_none, if_true, Option.some.injEq] at h
    subst h
    simp only [Workspace.extendInput, hkind, pure_eq_ok]
  | some kind =>
    simp only [hkind, Option.isNone_some, Bool.false_eq_true, if_false] at h
    split at h
    · rename_i hused
      cases h
      have hempty : d.name.isEmpty = false := by simpa using hused.1
      obtain ⟨input, hinput, hname⟩ := List.mem_map.1 hused.2
      have hfound : (block.input? d.name).isSome = true :=
        List.find?_isSome.2 ⟨input, hinput, by simp [hname]⟩
      simp only [Workspace.extendInput, hkind, hempty, Bool.not_false, if_true,
        getBlock_eq_ok.2 hblock, ok_bind, hfound, pure_eq_ok]
    · cases h

/-! ## A whole descriptor -/

/-- Described inputs can be appended: those that are accepted are made, the rest is reported. -/
theorem exists_extendInputs (inputs : List InputDescriptor) :
    ∀ {w : Workspace} {block : Block}, w.InOrder → w.blocks[b]? = some block →
      ∃ w' block', w.extendInputs b inputs =
        .ok (InputDescriptor.skipped (block.inputs.map Input.name) inputs, w') ∧
        Extended b block (InputDescriptor.accepted (block.inputs.map Input.name) inputs) w w'
          block' := by
  induction inputs with
  | nil => exact fun hw hblock => ⟨_, _, rfl, .nil hw hblock⟩
  | cons d rest ih =>
    intro w block hw hblock
    cases hrefusal : d.refusal? (block.inputs.map Input.name) with
    | none =>
      obtain ⟨w1, block1, h1, hfirst⟩ := hw.exists_extendInput hblock hrefusal
      obtain ⟨w', block', hrest, hextended⟩ := ih hfirst.reshaped.inOrder hfirst.reshaped.new
      have hnames : block1.inputs.map Input.name = block.inputs.map Input.name ++ [d.name] := by
        obtain ⟨added, rfl, hadded⟩ := hfirst.appended
        cases hadded with
        | cons hmade hnil =>
          cases hnil
          simp [hmade.name]
      rw [hnames] at hrest hextended
      refine ⟨w', block', ?_, ?_⟩
      · simp only [Workspace.extendInputs, h1, hrest, ok_bind, pure_eq_ok, InputDescriptor.skipped,
          InputDescriptor.judge_cons_of_accepted hrefusal, List.flatMap_cons,
          InputDescriptor.report]
      · rw [InputDescriptor.accepted_cons_of_accepted hrefusal]
        exact hfirst.append hextended
    | some error =>
      obtain ⟨w', block', hrest, hextended⟩ := ih hw hblock
      refine ⟨w', block', ?_, ?_⟩
      · simp only [Workspace.extendInputs, extendInput_of_refusal hblock hrefusal, hrest, ok_bind,
          pure_eq_ok, InputDescriptor.skipped, InputDescriptor.judge_cons_of_refused hrefusal,
          List.flatMap_cons, InputDescriptor.report]
      · rwa [InputDescriptor.accepted_cons_of_refused hrefusal]

/-- A block that is gone gets no inputs. -/
theorem InOrder.extendInputs_of_gone (hw : w.InOrder) (hgone : w.blocks[b]? = none) :
    ∀ {w' : Workspace} {errors : List DescriptorError},
      w.extendInputs b inputs = .ok (errors, w') → w' = w := by
  induction inputs with
  | nil =>
    intro w' errors h
    cases h
    rfl
  | cons input rest ih =>
    intro w' errors h
    simp only [Workspace.extendInputs, bind_eq_ok] at h
    obtain ⟨⟨first, w1⟩, h1, ⟨more, w2⟩, h2, h⟩ := h
    cases h
    have happend : ∀ {kind : InputKind},
        ¬ ((w.appendInput b kind input.name input.check) >>= fun r =>
        r.2.extendFields b r.1 input.fields) = .ok (first, w1) := by
      intro kind happend
      obtain ⟨⟨index, w3⟩, h3, -⟩ := bind_eq_ok.1 happend
      obtain ⟨block, connection, -, -, -, hreshaped⟩ := hw.exists_appended h3
      cases hgone.symm.trans hreshaped.old
    have heq : w1 = w := by
      simp only [Workspace.extendInput] at h1
      split at h1
      · cases h1
        rfl
      · split at h1
        · obtain ⟨block, hblock, -⟩ := bind_eq_ok.1 h1
          cases hgone.symm.trans (getBlock_eq_ok.1 hblock)
        · exact absurd h1 happend
    subst heq
    exact ih h2

variable {Q : Block → Prop} {tracked : Prop} {stale N : BlockId → Prop} {w0 : Workspace}
  {errors : List DescriptorError}

/-- What applying a descriptor to a block comes down to. -/
theorem InOrder.applyDescriptor_cases (hw : w.InOrder) (hblock : w.blocks[b]? = some block)
    {d : Descriptor} (hrun : w.applyDescriptor b d = .ok (errors, w')) :
    ∃ w1 block', errors = InputDescriptor.skipped (block.inputs.map Input.name) d.inputs ∧
      Extended b block (InputDescriptor.accepted (block.inputs.map Input.name) d.inputs) w w1
        block' ∧
      w1.refresh [b] = .ok w' := by
  simp only [Workspace.applyDescriptor, bind_eq_ok] at hrun
  obtain ⟨⟨first, w1⟩, h1, w2, h2, hrun⟩ := hrun
  cases hrun
  obtain ⟨w1', block', h1', hextended⟩ := exists_extendInputs d.inputs hw hblock
  cases h1.symm.trans h1'
  exact ⟨w1, block', rfl, hextended, h2⟩

/-- A block that was extended and brought up to date. -/
theorem Kept.applyDescriptor (h : Kept Q tracked N w0 stale w) (hb : N b) {d : Descriptor}
    (hrun : w.applyDescriptor b d = .ok (errors, w'))
    (hQ : ∀ {block w1 block'}, Extended b block
      (InputDescriptor.accepted (block.inputs.map Input.name) d.inputs) w w1 block' → w1.refresh
      [b] = .ok w' → Q block') : Kept Q tracked N w0 stale w' := by
  cases hblock : w.blocks[b]? with
  | some block =>
    obtain ⟨w1, block', -, hextended, hrefresh⟩ := h.inOrder.applyDescriptor_cases hblock hrun
    obtain ⟨r, hstart⟩ := Underway.start h hb hblock
    exact ((hstart.reshape hb hextended.reshaped (hQ hextended hrefresh)).finish hb hrefresh).1
  | none =>
    simp only [Workspace.applyDescriptor, bind_eq_ok] at hrun
    obtain ⟨⟨first, w1⟩, h1, w2, h2, hrun⟩ := hrun
    cases hrun
    obtain rfl := h.inOrder.extendInputs_of_gone hblock h1
    exact (h.refresh (by simp [hblock]) h2).relax (fun _ _ hr => hr.1) h.inside

end Workspace

end BlockGraph
