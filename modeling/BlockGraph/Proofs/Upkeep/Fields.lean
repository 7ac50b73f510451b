import BlockGraph.Proofs.Upkeep.Inputs

/-!
# Names, values and places

Renaming a variable changes what the uses in its tree are bound to, so the tree is refreshed.  The
value of a field, the flags, the comment and the place of a block change neither types nor bindings.
Moving an input is not followed by a refresh: a name still denotes what it did, since sockets and
variables are found by name and not by place (`Upheld.moveNumberedInput`).
-/

namespace BlockGraph

open Relation

/-- All values without a variable look alike. -/
theorem FieldValue.essence_of_held {value : FieldValue} (h : value.heldVariable? = none) :
    value.essence = .label "" := by
  cases value <;> first | rfl | cases h

namespace Block

theorem essence_setInFields {name : String} {value : FieldValue}
    (hvalue : value.heldVariable? = none) {fields : List Field}
    (h : ∀ f, fields.find? (·.name == name) = some f → f.value.heldVariable? = none) :
    (setInFields name value fields).map Field.essence = fields.map Field.essence := by
  induction fields with
  | nil => rfl
  | cons f fs ih =>
    unfold setInFields
    split
    · rename_i hname
      have hold := h f (by simp [hname])
      simp [Field.essence, FieldValue.essence_of_held hvalue, FieldValue.essence_of_held hold]
    · rename_i hname
      rw [List.map_cons, ih fun g hg => h g (by simpa [hname] using hg), List.map_cons]

theorem essence_setInInputs {name : String} {value : FieldValue}
    (hvalue : value.heldVariable? = none) {inputs : List Input}
    (h : ∀ f, (inputs.flatMap Input.fields).find? (·.name == name) = some f →
      f.value.heldVariable? = none) :
    (setInInputs name value inputs).map Input.essence = inputs.map Input.essence := by
  induction inputs with
  | nil => rfl
  | cons i is ih =>
    rw [List.flatMap_cons, List.find?_append] at h
    unfold setInInputs
    split
    · have hfields : (setInFields name value i.fields).map Field.essence =
        i.fields.map Field.essence :=
        essence_setInFields hvalue fun f hf => h f (by rw [hf]; rfl)
      simp [Input.essence, hfields]
    · rename_i hnone
      have hfind : i.fields.find? (·.name == name) = none := by simpa using hnone
      rw [hfind, Option.none_or] at h
      rw [List.map_cons, ih h, List.map_cons]

/-- A field that holds no variable does not matter. -/
theorem essence_setField {block : Block} {name : String} {value : FieldValue}
    (hvalue : value.heldVariable? = none)
    (h : ∀ f, block.field? name = some f → f.value.heldVariable? = none) :
    (block.setField name value).essence = block.essence := by
  simp only [essence, setField, essence_setInInputs hvalue h]

/-! ## Order of inputs -/

/-- A list with one match is searched in any order. -/
theorem find?_eq_of_perm {α : Type} {l l' : List α} (h : l'.Perm l) {p : α → Bool}
    (hone : (l.filter p).length ≤ 1) : l'.find? p = l.find? p := by
  have hperm := h.filter p
  rw [← List.head?_filter, ← List.head?_filter]
  cases hl : l.filter p with
  | nil =>
    rw [hl] at hperm
    rw [hperm.eq_nil]
  | cons a rest =>
    rw [hl, List.length_cons] at hone
    obtain rfl : rest = [] := List.eq_nil_of_length_eq_zero (by omega)
    rw [hl] at hperm
    rw [List.perm_singleton.1 hperm]

variable {block block' : Block} {name : String}

theorem Plain.length_filter_name (h : block.Plain) (hname : name ≠ "") :
    (block.inputs.filter fun i => i.name == name).length ≤ 1 := by
  have hcount := List.nodup_iff_count_le_one.1 h.names name
  rw [List.count_filter (by simpa using hname), List.count_eq_length_filter, List.filter_map,
    List.length_map] at hcount
  exact hcount

section Moved

variable (hperm : block'.inputs.Perm block.inputs)
include hperm

theorem perm_fields : block'.fields.Perm block.fields := hperm.flatMap_right _

theorem socket?_of_perm (h : block.Plain) (hname : name ≠ "") :
    block'.socket? name = block.socket? name := by
  rw [socket?, socket?, input?, input?, find?_eq_of_perm hperm (h.length_filter_name hname)]

theorem vars_of_perm (htidy : block.Tidy) : block'.vars = block.vars := by
  have hvars : block'.vars.Perm block.vars := (perm_fields hperm).filterMap _
  rw [htidy.vars] at hvars ⊢
  cases hown : block.own? with
  | none =>
    rw [hown] at hvars
    exact hvars.eq_nil
  | some v =>
    rw [hown] at hvars
    exact List.perm_singleton.1 hvars

/-- All fields with the name of the variable hold the one variable there is. -/
theorem own?_of_perm (h : block.Marked) (htidy : block.Tidy) : block'.own? = block.own? := by
  have hmem : ∀ {field}, field ∈ block.fields → field.name = Kind.variableField →
      field.value.heldVariable? = block.own? := by
    intro field hfield hname
    obtain ⟨v, hv⟩ := Option.isSome_iff_exists.1 (h field hfield hname)
    rw [hv, htidy.mem_vars.1 (List.mem_filterMap.2 ⟨field, hfield, hv⟩)]
  rw [own?, field?]
  cases hfind : block'.fields.find? fun f => f.name == Kind.variableField with
  | some field =>
    have hname : field.name = Kind.variableField := by simpa using List.find?_some hfind
    exact hmem ((perm_fields hperm).mem_iff.1 (List.mem_of_find?_eq_some hfind)) hname
  | none =>
    have hnone : block.fields.find? (fun f => f.name == Kind.variableField) = none := by
      rw [List.find?_eq_none] at hfind ⊢
      exact fun field hfield => hfind field ((perm_fields hperm).mem_iff.2 hfield)
    rw [own?, field?, hnone]

theorem marked_of_perm (h : block.Marked) : block'.Marked :=
  fun field hfield => h field ((perm_fields hperm).mem_iff.1 hfield)

theorem plain_of_perm (h : block.Plain) : block'.Plain where
  holds := marked_of_perm hperm h.holds
  names := (((hperm.map Input.name).filter _).nodup_iff).2 h.names

end Moved

end Block

namespace Workspace

variable {w w0 w1 w' : Workspace} {Q : Block → Prop} {tracked : Prop} {stale A N : BlockId → Prop}
  {b r : BlockId} {block block' : Block} {name : String} {v : VariableId} {source target : Nat}
  {f : Block → Block}

/-! ## Names -/

/-- A variable in a field is there and belongs to the block. -/
theorem Owned.exists_held (ho : w.Owned) (hblock : w.blocks[b]? = some block)
    (h : (block.field? name).bind (·.value.heldVariable?) = some v) :
    ∃ found, w.vars[v]? = some found ∧ found.block = b := by
  obtain ⟨field, hfield, hheld⟩ := Option.bind_eq_some_iff.1 h
  have hmem : v ∈ block.vars :=
    List.mem_filterMap.2 ⟨field, List.mem_of_find?_eq_some hfield, hheld⟩
  obtain ⟨found, hv, hb, -⟩ := ho.var hblock ((ho.tidy hblock).mem_vars.1 hmem)
  exact ⟨found, hv, hb⟩

theorem Owned.block_of_held (ho : w.Owned) (hblock : w.blocks[b]? = some block)
    (h : (block.field? name).bind (·.value.heldVariable?) = some v) {found : Variable}
    (hv : w.vars[v]? = some found) : found.block = b := by
  obtain ⟨found', hv', hb⟩ := ho.exists_held hblock h
  cases hv.symm.trans hv'
  exact hb

/-- The tree of a variable that gets another name falls behind, and no other. -/
theorem Kept.rename (hQ : Steady Q) (h : Kept Q tracked N w0 stale w) (hb : N b)
    (hown : ∀ found, w.vars[v]? = some found → found.block = b)
    (hrun : w.modifyVariable v ({ · with name }) = .ok w') :
    Kept Q tracked N w0 (fun x => stale x ∨ w'.Below x b) w' := by
  have hkeeps := Keeps.of_modifyVariable hrun
  have hs : Standing Q w' := h.standing.keepsInnards hQ (h.inOrder.keeps hkeeps)
    (.modifyVariable hrun (fun _ => rfl) (fun _ => rfl) fun _ _ => rfl)
  have hagree : AgreeOff .all (· = b) w w' := .modifyVariable hrun hown
  have hvars : ∀ u : VariableId, w'.vars[u]?.map Variable.tie = w.vars[u]?.map Variable.tie := by
    obtain ⟨found, hv, rfl⟩ := modifyVariable_eq_ok.1 hrun
    exact congr_getElem?_insert (Option.map Variable.tie) (by rw [hv]; rfl)
  have htypes : w'.types = w.types := by
    obtain ⟨found, -, rfl⟩ := modifyVariable_eq_ok.1 hrun
    rfl
  exact h.growAt hb hs (.of_types hagree htypes) hvars hkeeps.parentOf_iff

/-- A change that no type or binding depends on. -/
theorem Kept.aside (h : Kept Q tracked N w0 stale w) (hs : Standing Q w')
    (hconfined : Confined .sense (fun _ => False) w w')
    (hagree : AgreeOff (.kept w0.isTyped) N w w') (hkeeps : Keeps w w') (hvars : w'.vars = w.vars) :
    Kept Q tracked N w0 stale w' := by
  have hgrown := h.grow hs hconfined hagree (hkeeps.parted h.parted) (fun _ => False.elim)
    (fun _ => local_of_grown h.inOrder h.owned hs.inOrder (by simp [hvars]) fun p x =>
      hkeeps.parentOf_iff.2)
  refine hgrown.relax ?_ h.inside
  rintro x - (hx | ⟨y, hy, -⟩)
  · exact hx
  · exact hy.elim

theorem Kept.fire (hQ : Steady Q) (h : Kept Q tracked N w0 stale w) (event : Event) :
    Kept Q tracked N w0 stale (w.fire event) :=
  h.aside (h.standing.fire hQ event) ((Rewires.fire event).confined _)
    ((Rewires.fire event).confined _).agree (.of_fire w event) rfl

theorem Kept.renameVariable (hQ : Steady Q) (h : Kept Q tracked N w0 stale w) (hb : N b)
    {field : String} (hrun : w.renameVariable b field name = .ok w') :
    Kept Q tracked N w0 stale w' := by
  obtain ⟨block, v, found, w1, hblock, hheld, -, h1, hrun⟩ := renameVariable_cases hrun
  have hkept := (h.rename hQ hb (fun found => h.owned.block_of_held hblock hheld) h1).fire hQ
      (.change b ⟨.field, some field⟩ found.name name)
  refine (hkept.refresh (by simpa using fun _ _ => hb) hrun).relax ?_ h.inside
  rintro x - ⟨hx | hx, hnot⟩
  · exact hx
  · exact absurd ((keeps_refresh hrun).below_iff.2 hx) (hnot b List.mem_cons_self)

/-! ## Values, flags and places -/

/-- A property that is kept if some block shows something else, and if that is announced. -/
structure StyleClosed (N : BlockId → Prop) (P : Workspace → Prop) : Prop where
  restyle : ∀ {w w' : Workspace} {b : BlockId} {f : Block → Block}, N b → P w →
    w.modifyBlock b f = .ok w' →
    (∀ block, w.blocks[b]? = some block → (f block).essence = block.essence ∧
      (f block).frame = block.frame) → P w'
  fire : ∀ {w : Workspace} (event : Event), P w → P (w.fire event)

namespace StyleClosed

variable {P : Workspace → Prop} (hP : StyleClosed N P) (hb : N b) (h : P w)
include hP hb h

theorem setFieldValue {value : FieldValue} (hrun : w.setFieldValue b name value = .ok w') :
    P w' := by
  obtain ⟨hvalue, block, field, _, _, w1, hblock, hfield, hheld, -, -, h1, rfl⟩ :=
    setFieldValue_cases hrun
  refine hP.fire _ (hP.restyle hb h h1 fun block' hblock' => ?_)
  cases hblock.symm.trans hblock'
  refine ⟨Block.essence_setField hvalue fun f hf => ?_, block.frame_setField name value⟩
  cases hfield.symm.trans hf
  exact hheld

theorem restyled (hrun : Restyled b f w w')
    (hf : ∀ block, (f block).essence = block.essence ∧ (f block).frame = block.frame) : P w' := by
  obtain ⟨w1, h1, hw'⟩ := hrun
  have hstyled := hP.restyle hb h h1 fun block _ => hf block
  rcases hw' with rfl | ⟨_, _, _, rfl⟩
  · exact hstyled
  · exact hP.fire _ hstyled

theorem moveBy {dx dy : Float} (hrun : w.moveBy b dx dy = .ok w') : P w' := by
  simp only [Workspace.moveBy, bind_eq_ok] at hrun
  obtain ⟨block, -, _, -, w1, h1, hrun⟩ := hrun
  cases hrun
  exact hP.fire _ (hP.restyle hb h h1 fun _ _ => ⟨rfl, rfl⟩)

end StyleClosed

/-- What a block shows changes, and nothing that types or bindings depend on. -/
theorem Kept.restyle (hQ : Steady Q) (h : Kept Q tracked N w0 stale w) (hb : N b)
    (hrun : w.modifyBlock b f = .ok w')
    (hf : ∀ block, w.blocks[b]? = some block → (f block).essence = block.essence ∧
      (f block).frame = block.frame) : Kept Q tracked N w0 stale w' := by
  have hkeeps := Keeps.of_modifyBlock hrun fun block hblock => (hf block hblock).2
  have hs : Standing Q w' := h.standing.keepsInnards hQ (h.inOrder.keeps hkeeps)
    (.modifyBlock hrun fun block hblock => Block.innards_of_essence (hf block hblock).1)
  have hagree : AgreeOff (.kept w0.isTyped) N w w' := .modifyBlock hrun hb
  obtain ⟨block, hblock, rfl⟩ := modifyBlock_eq_ok.1 hrun
  refine h.aside hs (.of_types ⟨rfl, fun {x} _ => ?_, fun hc _ => congrArg _ hc,
    fun hv _ => congrArg _ hv, fun _ _ => .rfl⟩ rfl) hagree hkeeps rfl
  simp only [getElem?_insert_eq]
  split
  · rename_i hx
    rw [hx, hblock]
    exact congrArg some (hf block hblock).1
  · rfl

theorem styleClosed_kept (hQ : Steady Q) : StyleClosed N (Kept Q tracked N w0 stale) where
  restyle hb h hrun hf := h.restyle hQ hb hrun hf
  fire event h := h.fire hQ event

/-! ## Moving inputs -/

/-- The inputs of a plain block change places; names denote what they did. -/
theorem Reshaped.offers_iff (h : Reshaped b block block' w w') (hplain : block.Plain)
    (hperm : block'.inputs.Perm block.inputs) (hconnections : w'.connections = w.connections)
    {p x : BlockId} : w'.Offers name p x v ↔ w.Offers name p x v := by
  have htarget : ∀ c, w'.targetBlock? c = w.targetBlock? c := by
    intro c
    simp only [targetBlock?, getConnection, hconnections]
  have hsame : ∀ {found found' : Block}, w.blocks[p]? = some found → w'.blocks[p]? = some found' →
      found'.kind = found.kind → found'.own? = found.own? →
      (∀ name, name ≠ "" → found'.socket? name = found.socket? name) →
      (w'.Offers name p x v ↔ w.Offers name p x v) := by
    intro found found' hfound hfound' hkind hown hsocket
    have hscope : ∀ {input}, found.kind.scope? = some input →
        found'.socket? input = found.socket? input := by
      intro input hinput
      refine hsocket input ?_
      rcases scope?_eq_some_iff.1 hinput with ⟨-, rfl⟩ | ⟨-, rfl⟩ <;> decide
    rw [Offers, Offers, encloses_iff hfound, encloses_iff hfound', introduces_iff hfound,
      introduces_iff hfound', hkind, hown, h.vars]
    refine and_congr (exists_congr fun input => exists_congr fun c => ?_) Iff.rfl
    rw [htarget]
    exact and_congr_right fun hinput => by rw [hscope hinput]
  by_cases hp : p = b
  · subst hp
    exact hsame h.old h.new h.kind h.own fun name hname => Block.socket?_of_perm hperm hplain hname
  · cases hfound : w.blocks[p]? with
    | some found => exact hsame hfound ((h.other hp).trans hfound) rfl rfl fun _ _ => rfl
    | none =>
      have hfound' := (h.other hp).trans hfound
      constructor
      · rintro ⟨⟨found', hfound'', -⟩, -⟩
        cases hfound'.symm.trans hfound''
      · rintro ⟨⟨found', hfound'', -⟩, -⟩
        cases hfound.symm.trans hfound''

/-- A property of plain blocks that does not depend on the order of their inputs. -/
structure Unordered (Q : Block → Prop) : Prop where
  plain : ∀ {block : Block}, Q block → block.Plain
  perm : ∀ {block : Block} {inputs : List Input}, inputs.Perm block.inputs → Q block →
    Q { block with inputs }

/-- The inputs of a block are moved, and the block keeps its variable. -/
theorem InOrder.moved (hw : w.InOrder) (hrun : w.moveNumberedInput b source target = .ok w') :
    ∃ block inputs, w.blocks[b]? = some block ∧ inputs.Perm block.inputs ∧
      w'.connections = w.connections ∧
      (block.Tidy → block.Marked → Reshaped b block { block with inputs } w w') := by
  have hw' := hw.moveNumberedInput hrun
  obtain ⟨block, inputs, hblock, hperm, rfl⟩ := moveNumberedInput_cases hrun
  have hagree :
    AgreeOff .all (· = b) w { w with blocks := w.blocks.insert b { block with inputs } } :=
    .modifyBlock (f := fun _ => { block with inputs }) (modifyBlock_eq_ok.2 ⟨block, hblock, rfl⟩)
      rfl
  exact ⟨block, inputs, hblock, hperm, rfl,
    fun htidy hmarked => ⟨hw', .of_types hagree rfl, rfl, rfl, hblock, by simp, rfl,
      Block.vars_of_perm hperm htidy, Block.own?_of_perm hperm hmarked htidy, rfl⟩⟩

/-- A block that is reshaped leaves every tree up to date, apart from types, if names denote what
they did.  Its connections may be new, if their types are types of the table. -/
theorem Reshaped.upheld (hreshaped : Reshaped b block block' w w') (h : Upheld Q False w)
    (hq : Q block') (hoffers : ∀ {name : String} {p x : BlockId} {v : VariableId}, w'.Offers name p
      x v ↔ w.Offers name p x v)
    (hslots : ∀ c ty, w'.slotType c = some ty →
      w'.connections[c]? = w.connections[c]? ∨ w'.types.Covers ty) : Upheld Q False w' := by
  have hs := hreshaped.standing h.standing hq
  have htyped : w'.isTyped = w.isTyped := isTyped_congr hreshaped.confined.agree.options
  have hdenotes : ∀ {name : String} {x : BlockId} {v : VariableId},
      w'.Denotes name x v ↔ w.Denotes name x v := by
    intro name x v
    constructor
    · exact fun hd => hd.congr (fun _ _ => trivial)
        (fun _ hp => ⟨hreshaped.parentOf_iff.1 hp, fun _ _ => hoffers.symm⟩) trivial
    · exact fun hd => hd.congr (fun _ _ => trivial)
        (fun _ hp => ⟨hreshaped.parentOf_iff.2 hp, fun _ _ => hoffers⟩) trivial
  have htop : ∀ {x}, x ∈ w'.top → x ∈ w.top := (hreshaped.mem_top h.standing.inOrder).1
  refine ⟨hs, fun ht x hx _ => ?_, fun ht => ⟨fun _ => b, fun x hx _ => ⟨?_, False.elim⟩⟩,
    fun ht x hx _ c hc ty hty v hv => ?_⟩
  · exact local_of_grown h.standing.inOrder h.standing.owned hs.inOrder (by simp [hreshaped.vars])
      (fun p x => hreshaped.parentOf_iff.2) (fun r hr => h.here (htyped ▸ ht) r hr id) x hx
  · obtain ⟨owner, howner⟩ := h.current (htyped ▸ ht)
    have hscoped := (howner x (htop hx) id).1
    intro v use hv hbelow use' hv' href u
    rw [hreshaped.vars] at hv hv'
    rw [hdenotes]
    exact hscoped v use hv (hreshaped.below_iff.1 hbelow) use' hv' href u
  · obtain ⟨connection, hconnection, hbelow⟩ := hc
    rcases hslots c ty hty with hsame | hcovers
    · rw [slotType, hsame] at hty
      rw [hsame] at hconnection
      exact (h.covered (htyped ▸ ht) x (htop hx) id c
        ⟨connection, hconnection, hreshaped.below_iff.1 hbelow⟩ ty hty v hv).trans_le
        hreshaped.confined.carries.size_le
    · exact hcovers v hv

theorem Upheld.moveNumberedInput (hQ : Unordered Q) (h : Upheld Q False w)
    (hrun : w.moveNumberedInput b source target = .ok w') : Upheld Q False w' := by
  obtain ⟨block, inputs, hblock, hperm, hconnections, hmoved⟩ := h.standing.inOrder.moved hrun
  have hq := h.standing.block hblock
  have hplain := hQ.plain hq
  have hreshaped := hmoved (h.standing.owned.tidy hblock) hplain.holds
  exact hreshaped.upheld h (hQ.perm hperm hq) (hreshaped.offers_iff hplain hperm hconnections)
    fun _ _ _ => .inl (by rw [hconnections])

theorem Upheld.moveInput (hQ : Unordered Q) (h : Upheld Q False w) {before : Option String}
    (hrun : w.moveInput b name before = .ok w') : Upheld Q False w' := by
  rcases moveInput_cases hrun with rfl | ⟨source, target, hrun⟩
  · exact h
  · exact h.moveNumberedInput hQ hrun

end Workspace

end BlockGraph
