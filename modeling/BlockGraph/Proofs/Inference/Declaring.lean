import BlockGraph.Proofs.Inference.Typing
import BlockGraph.Proofs.Workspace.Ownership

/-!
# Declared types

Clearing a block gives every value connection of it, and the variable it declares, the scheme of the
kind over fresh variables.  This file follows the setters by which that is done.  What they change
is read off three views of a workspace: the type at a connection (`slotType`), the error there
(`slotError`) and the type of a variable (`boundType`).

What gets a type is a connection or a variable (`Block.holder?`), and it gets it by one assignment
(`grant_eq_ok`).  `Workspace.Assigns` says what a sequence of assignments does; a connection may be
set more than once, as long as it is to the same type.  `KeepsLayout.exists_declareTypes` is the
result: on a block that keeps its layout no setter faults, and all that its kind gives types to
(`Block.Grants`) has its scheme.
-/

namespace BlockGraph

variable {b : BlockId} {block : Block} {c : ConnectionId} {connection : Connection} {v : VariableId}
  {ty ty' : Ty} {seat : Seat} {a : Holder} {name : String}

namespace Block

/-- The socket of the input with a name. -/
def socket? (block : Block) (name : String) : Option ConnectionId :=
  (block.input? name).bind Input.connection

/-- The connection or the variable that a part of a block is. -/
def holder? (block : Block) : Seat → Option Holder
  | .own => block.own?.map .inr
  | .input name => (block.socket? name).map .inl
  | .output => block.output.map .inl

theorem holder?_eq_inr (h : block.holder? seat = some (.inr v)) :
    seat = .own ∧ block.own? = some v := by
  cases seat <;> simp_all [holder?]

theorem mem_grants : (seat, ty) ∈ block.grants ↔
    (seat = .own ∧ block.kind.signature.binder = some ty) ∨
      (∃ name, seat = .input name ∧
        ((name, ty) ∈ block.kind.signature.inputs ∨ block.kind.signature.items = some ty ∧
          name ∈ block.itemNames)) ∨
    (seat = .output ∧ block.kind.signature.output = some ty) := by
  cases seat <;> simp [grants]

theorem mem_connections_of_socket? (h : block.socket? name = some c) : c ∈ block.connections := by
  obtain ⟨input, hinput, hc⟩ := Option.bind_eq_some_iff.1 h
  have hmem : c ∈ block.sockets :=
    List.mem_filterMap.2 ⟨input, List.mem_of_find?_eq_some hinput, hc⟩
  simp [connections, hmem]

theorem mem_connections_of_output (h : block.output = some c) : c ∈ block.connections := by
  simp [connections, h]

theorem mem_connections_of_holder? (h : block.holder? seat = some (.inl c)) :
    c ∈ block.connections := by
  cases seat with
  | own => simp [holder?] at h
  | input name => exact mem_connections_of_socket? (by simpa [holder?] using h)
  | output => exact mem_connections_of_output (by simpa [holder?] using h)

/-- The kind of a block gives a scheme to a connection of the block or to its variable. -/
def Grants (block : Block) (a : Holder) (ty : Ty) : Prop :=
  ∃ seat, (seat, ty) ∈ block.grants ∧ block.holder? seat = some a

/-- What the kind of a block gives types to. -/
def Given (block : Block) (a : Holder) : Prop := ∃ ty, block.Grants a ty

theorem mentions_of_mem_grants (h : (seat, ty) ∈ block.grants) : block.kind.Mentions ty := by
  rcases mem_grants.1 h with ⟨-, hty⟩ | ⟨name, -, hty | ⟨hty, hname⟩⟩ | ⟨-, hty⟩
  · exact .inl hty
  · exact .inr (.inl ⟨name, .inl hty⟩)
  · exact .inr (.inl ⟨name, .inr ⟨(List.mem_filter.1 hname).2, hty⟩⟩)
  · exact .inr (.inr hty)

theorem Grants.mentions (h : block.Grants a ty) : block.kind.Mentions ty := by
  obtain ⟨seat, hmem, -⟩ := h
  exact mentions_of_mem_grants hmem

theorem grants_inr_iff : block.Grants (.inr v) ty ↔ block.kind.signature.binder = some ty ∧
    block.own? = some v := by
  constructor
  · rintro ⟨seat, hmem, hholder⟩
    obtain ⟨rfl, hown⟩ := holder?_eq_inr hholder
    exact ⟨((mem_grants.1 hmem).resolve_right (by simp)).2, hown⟩
  · rintro ⟨hty, hown⟩
    exact ⟨.own, mem_grants.2 (.inl ⟨rfl, hty⟩), by rw [holder?, hown]; rfl⟩

theorem given_inr_iff : block.Given (.inr v) ↔ block.kind.isBinder = true ∧
    block.own? = some v := by
  simp only [Given, grants_inr_iff, exists_and_right, ← Option.isSome_iff_exists,
    Kind.isSome_binder]

/-- A named input takes blocks. -/
def Takes (block : Block) (name : String) : Prop :=
  ∃ input, block.input? name = some input ∧ input.kind ≠ .dummy

/-- Everything that the types of its kind are given to is there. -/
structure Equipped (block : Block) : Prop where
  inputs : ∀ p ∈ block.kind.signature.inputs, block.Takes p.1
  items : block.kind.signature.items.isSome = true → ∀ name ∈ block.itemNames, block.Takes name
  output : block.kind.hasOutput = true → block.output.isSome = true

/-- A block that has the inputs of its kind is equipped. -/
theorem Laid.equipped (h : block.Laid) : block.Equipped := by
  have htakes : ∀ {input ty}, input ∈ block.inputs → block.kind.InputType input.name ty →
      block.Takes input.name := fun hinput hty =>
    ⟨_, h.input?_name hinput, by rw [(h.value_iff hinput).2 ⟨_, hty⟩]; decide⟩
  refine ⟨fun p hp => ?_, fun hitems name hname => ?_, fun houtput => h.output.trans houtput⟩
  · have hmem := h.inputs.mem_iff.2 (Kind.mem_plannedInputs_of_signature hp block.itemNames.length)
    obtain ⟨name, ty⟩ := p
    obtain ⟨input, hinput, heq⟩ := List.mem_map.1 hmem
    obtain ⟨rfl, -⟩ := Prod.mk.inj heq
    exact htakes hinput (.inl hp)
  · obtain ⟨hname, hmark⟩ := List.mem_filter.1 hname
    obtain ⟨input, hinput, rfl⟩ := List.mem_map.1 hname
    obtain ⟨ty, hty⟩ := Option.isSome_iff_exists.1 hitems
    exact htakes hinput (.inr ⟨hmark, hty⟩)

end Block

namespace Workspace

variable {w w' w'' : Workspace} {root : BlockId} {f : Ty → Ty}

/-- The type expression at a connection. -/
def slotType (w : Workspace) (c : ConnectionId) : Option Ty :=
  w.connections[c]?.bind Connection.type

/-- The error at a connection. -/
def slotError (w : Workspace) (c : ConnectionId) : Option TypeError :=
  w.connections[c]?.bind Connection.error

/-- The type of a declaration. -/
def boundType (w : Workspace) (v : VariableId) : Option Ty := w.vars[v]?.bind Variable.type?

/-- A scheme is over the table if there is room for its variables. -/
theorem covers_instantiate {t : Table} {k : Kind} (h : k.Mentions ty) {base : Nat}
    (hroom : base + k.signature.fresh ≤ t.size) : t.Covers (instantiate base ty) := by
  intro u hu
  obtain ⟨i, hi, hu⟩ := Ty.mem_occurrences_subst.1 hu
  have hlt := Kind.lt_fresh_of_mentions h i hi
  rw [Ty.mem_occurrences_var.1 hu]
  omega

/-! ## Assignments -/

/-- Gives a connection or a declaration a type. -/
def assign (w : Workspace) (ty : Ty) : Holder → Except Fault Workspace
  | .inl c => w.modifyConnection c ({ · with type := some ty })
  | .inr v => w.setVariableType v ty

/-- A connection is there, and so is a variable, which is a declaration. -/
def Assignable (w : Workspace) : Holder → Prop
  | .inl c => ∃ connection, w.connections[c]? = some connection
  | .inr v => ∃ found, w.vars[v]? = some found ∧ found.isReference = false

/-- The type at a connection or of a declaration. -/
def typeAt (w : Workspace) : Holder → Option Ty
  | .inl c => w.slotType c
  | .inr v => w.boundType v

theorem inputConnection?_eq (hblock : w.blocks[b]? = some block) (name : String) :
    w.inputConnection? b name = .ok (block.socket? name) := by
  simp [inputConnection?, getBlock_eq_ok.2 hblock, Block.socket?]

/-- A part of a block gets a type by way of what it is. -/
theorem grant_eq_ok (hblock : w.blocks[b]? = some block) {g : Seat × Ty} :
    w.grant b f g = .ok w' ↔ ∃ a, block.holder? g.1 = some a ∧ w.assign (f g.2) a = .ok w' := by
  obtain ⟨_ | name | _, ty⟩ := g
  · simp [grant, bind_eq_ok, ownVariable_eq_ok hblock, Block.holder?, assign]
  · cases hsocket : block.socket? name <;>
      simp [grant, setInputType, inputConnection?_eq hblock, Block.holder?, assign, hsocket]
  · cases hout : block.output <;>
      simp [grant, setOutputType, getBlock_eq_ok.2 hblock, Block.holder?, assign, hout]

theorem modifyConnection_ok (hc : w.connections[c]? = some connection)
    (f : Connection → Connection) :
    ∃ w', w.modifyConnection c f = .ok w' :=
  ⟨_, modifyConnection_eq_ok.2 ⟨connection, hc, rfl⟩⟩

theorem setVariableType_eq_ok : w.setVariableType v ty = .ok w' ↔ ∃ found, w.vars[v]? = some found ∧
    found.isReference = false ∧
    { w with vars := w.vars.insert v { found with role := .value (some ty) } } = w' := by
  simp only [setVariableType, bind_eq_ok, getVariable_eq_ok, require_eq_ok, modifyVariable_eq_ok]
  constructor
  · rintro ⟨found, hfound, -, hvalue, found', hfound', rfl⟩
    cases hfound.symm.trans hfound'
    exact ⟨found, hfound, by simpa using hvalue, rfl⟩
  · rintro ⟨found, hfound, hvalue, rfl⟩
    exact ⟨found, hfound, (), by simp [hvalue], found, hfound, rfl⟩

theorem exists_assign_iff (ty : Ty) : (∃ w', w.assign ty a = .ok w') ↔ w.Assignable a := by
  cases a with
  | inl c => simp [assign, modifyConnection_eq_ok, Assignable]
  | inr v => simp [assign, setVariableType_eq_ok, Assignable]

theorem retypes_assign (h : w.assign ty a = .ok w') : Retypes w w' := by
  cases a with
  | inl c => exact .of_modifyConnection h fun _ => rfl
  | inr v => exact retypes_setVariableType h

/-- What giving a type does. -/
theorem assign_lookups (h : w.assign ty a = .ok w') : w'.types = w.types ∧
    (∀ c, w'.slotError c = w.slotError c) ∧
    ∀ a', w'.typeAt a' = if a' = a then some ty else w.typeAt a' := by
  cases a with
  | inl c =>
    obtain ⟨connection, hc, rfl⟩ := modifyConnection_eq_ok.1 h
    refine ⟨rfl, congr_getElem?_insert (Option.bind · Connection.error) ?_, ?_⟩
    · rw [hc]
      rfl
    · rintro (d | v)
      · simp only [typeAt, slotType, getElem?_insert_eq, Sum.inl.injEq]
        split <;> rfl
      · rfl
  | inr v =>
    obtain ⟨found, hv, -, rfl⟩ := setVariableType_eq_ok.1 h
    refine ⟨rfl, fun _ => rfl, ?_⟩
    rintro (c | u)
    · rfl
    · simp only [typeAt, boundType, getElem?_insert_eq, Sum.inr.injEq]
      split <;> rfl

theorem Retypes.assignable (h : Retypes w w') (ha : w.Assignable a) : w'.Assignable a := by
  cases a with
  | inl c =>
    obtain ⟨old, hold⟩ := ha
    obtain ⟨new, hnew, -⟩ := h.sameGraph.connection hold
    exact ⟨new, hnew⟩
  | inr v =>
    obtain ⟨old, hold, hvalue⟩ := ha
    obtain ⟨new, hnew, heq⟩ := h.sameGraph.var hold
    exact ⟨new, hnew, (Variable.isReference_of_untyped heq).trans hvalue⟩

/-- Types are given as `given` says, and nothing else changes. -/
structure Assigns (w w' : Workspace) (given : Holder → Ty → Prop) : Prop where
  retypes : Retypes w w'
  types : w'.types = w.types
  error : ∀ c, w'.slotError c = w.slotError c
  kept : ∀ {a : Holder}, (∀ ty, ¬ given a ty) → w'.typeAt a = w.typeAt a
  set : ∀ {a : Holder} {ty : Ty}, given a ty → (∀ ty', given a ty' → ty' = ty) →
    w'.typeAt a = some ty

namespace Assigns

variable {given given' : Holder → Ty → Prop}

theorem none (w : Workspace) : Assigns w w fun _ _ => False :=
  ⟨.refl w, rfl, fun _ => rfl, fun _ => rfl, fun h => h.elim⟩

theorem congr (h : Assigns w w' given) (heq : ∀ a ty, given a ty ↔ given' a ty) :
    Assigns w w' given' := by
  have : given = given' := by
    funext a ty
    exact propext (heq a ty)
  exact this ▸ h

/-- One assignment after another. -/
theorem trans (h : Assigns w w' given) (h' : Assigns w' w'' given') :
    Assigns w w'' fun a ty => given a ty ∨ given' a ty where
  retypes := h.retypes.trans h'.retypes
  types := h'.types.trans h.types
  error c := (h'.error c).trans (h.error c)
  kept hnone := (h'.kept fun ty hty => hnone ty (Or.inr hty)).trans
    (h.kept fun ty hty => hnone ty (Or.inl hty))
  set {a ty} hty hunique := by
    by_cases hlater : ∃ ty', given' a ty'
    · obtain ⟨ty', hty'⟩ := hlater
      cases hunique ty' (Or.inr hty')
      exact h'.set hty' fun _ h => hunique _ (Or.inr h)
    · have hnone : ∀ ty', ¬ given' a ty' := fun ty' h => hlater ⟨ty', h⟩
      rw [h'.kept hnone]
      exact h.set (hty.resolve_right (hnone ty)) fun _ h => hunique _ (Or.inl h)

theorem of_assign (h : w.assign ty a = .ok w') : Assigns w w' fun a' ty' => a' = a ∧ ty' = ty := by
  obtain ⟨htypes, herror, hlookup⟩ := assign_lookups h
  refine ⟨retypes_assign h, htypes, herror, fun {a'} hnone => ?_, ?_⟩
  · rw [hlookup, if_neg]
    rintro rfl
    exact hnone ty ⟨rfl, rfl⟩
  · rintro a' ty' ⟨rfl, rfl⟩ -
    rw [hlookup, if_pos rfl]

end Assigns

/-- Parts of a block that are there get their types. -/
theorem exists_grants (l : List (Seat × Ty)) (f : Ty → Ty) :
    ∀ {w : Workspace}, w.blocks[b]? = some block →
      (∀ g ∈ l, ∃ a, block.holder? g.1 = some a ∧ w.Assignable a) →
      ∃ w', l.foldlM (grant b f) w = .ok w' ∧ Assigns w w' fun a ty =>
        ∃ g ∈ l, block.holder? g.1 = some a ∧ ty = f g.2 := by
  induction l with
  | nil => exact fun {w} _ _ => ⟨w, rfl, (Assigns.none w).congr fun a ty => by simp⟩
  | cons g l ih =>
    intro w hblock hl
    obtain ⟨a, ha, hassignable⟩ := hl g List.mem_cons_self
    obtain ⟨w1, h1⟩ := (exists_assign_iff (f g.2)).2 hassignable
    have hfirst := Assigns.of_assign h1
    obtain ⟨w2, h2, hrest⟩ := ih (by rw [hfirst.retypes.sameGraph.blocks, hblock]) fun g' hg' => by
      obtain ⟨a', ha', hassignable'⟩ := hl g' (List.mem_cons_of_mem _ hg')
      exact ⟨a', ha', hfirst.retypes.assignable hassignable'⟩
    refine ⟨w2, by rw [List.foldlM_cons, (grant_eq_ok hblock).2 ⟨a, ha, h1⟩, ok_bind, h2], ?_⟩
    refine (hfirst.trans hrest).congr fun a' ty => ?_
    simp only [List.mem_cons, exists_eq_or_imp, ha, Option.some.injEq, eq_comm (a := a)]

/-! ## All types of a block -/

namespace InOrder

variable (hw : w.InOrder)
include hw

theorem fitted (hblock : w.blocks[b]? = some block) :
    ∀ input ∈ block.inputs, input.slot.Fitted := fun _ hinput =>
  hw.formed.wired.fitted (frame_of_block hblock) _ (List.mem_map_of_mem hinput)

/-- An input that takes blocks has a socket. -/
theorem exists_socket? (hblock : w.blocks[b]? = some block) (h : block.Takes name) :
    ∃ c connection, block.socket? name = some c ∧ w.connections[c]? = some connection := by
  obtain ⟨input, hinput, hkind⟩ := h
  have hmem : input ∈ block.inputs := List.mem_of_find?_eq_some hinput
  obtain ⟨c, hc⟩ := Option.ne_none_iff_exists'.1 fun hnone =>
    hkind ((hw.fitted hblock input hmem).1 hnone)
  have hsocket : c ∈ block.sockets := List.mem_filterMap.2 ⟨input, hmem, hc⟩
  obtain ⟨connection, hconnection, -⟩ :=
    hw.structured.owned (c := c) hblock (by simp [Block.connections, hsocket])
  exact ⟨c, connection, by rw [Block.socket?, hinput]; exact hc, hconnection⟩

/-- What an equipped block is given types for is there, if its variable is. -/
theorem exists_holder (hblock : w.blocks[b]? = some block) (h : block.Equipped)
    (hown : block.kind.isBinder = true → ∃ v found, block.own? = some v ∧
      w.vars[v]? = some found ∧ (found.isReference = true ↔ block.kind = .variablesGet))
    (hg : (seat, ty) ∈ block.grants) : ∃ a, block.holder? seat = some a ∧ w.Assignable a := by
  rcases Block.mem_grants.1 hg with ⟨rfl, hty⟩ | ⟨name, rfl, hty⟩ | ⟨rfl, hty⟩
  · have hkind : block.kind.isBinder = true := by
      rw [← Kind.isSome_binder, hty]
      rfl
    obtain ⟨v, found, hv, hfound, hreference⟩ := hown hkind
    refine ⟨.inr v, by rw [Block.holder?, hv]; rfl, found, hfound, ?_⟩
    refine Bool.eq_false_iff.2 fun hreference' => ?_
    rw [hreference.1 hreference'] at hkind
    cases hkind
  · have htakes : block.Takes name := by
      rcases hty with hty | ⟨hitems, hname⟩
      · exact h.inputs _ hty
      · exact h.items (by rw [hitems]; rfl) name hname
    obtain ⟨c, connection, hsocket, hc⟩ := hw.exists_socket? hblock htakes
    exact ⟨.inl c, by rw [Block.holder?, hsocket]; rfl, connection, hc⟩
  · obtain ⟨c, hc⟩ := Option.isSome_iff_exists.1 (h.output (by rw [← Kind.isSome_output, hty]; rfl))
    obtain ⟨connection, hconnection, -⟩ :=
      hw.structured.owned hblock (Block.mem_connections_of_output hc)
    exact ⟨.inl c, by rw [Block.holder?, hc]; rfl, connection, hconnection⟩

end InOrder

namespace KeepsLayout

variable (h : w.KeepsLayout b block)
include h

/-- The setters follow names; that comes to what the kind declares. -/
theorem grants_iff : block.Grants (.inl c) ty ↔ block.Declares c ty := by
  constructor
  · rintro ⟨seat, hmem, hholder⟩
    rcases Block.mem_grants.1 hmem with ⟨rfl, -⟩ | ⟨name, rfl, hty⟩ | ⟨rfl, hty⟩
    · simp [Block.holder?] at hholder
    · obtain ⟨c', hsocket, heq⟩ := Option.map_eq_some_iff.1 hholder
      cases heq
      obtain ⟨input, hfound, hc⟩ := Option.bind_eq_some_iff.1 hsocket
      have hname : input.name = name := by simpa using List.find?_some hfound
      refine Or.inl ⟨input, List.mem_of_find?_eq_some hfound, hc, hname ▸ hty.imp_right ?_⟩
      rintro ⟨hty, hitem⟩
      exact ⟨(List.mem_filter.1 hitem).2, hty⟩
    · obtain ⟨c', hc, heq⟩ := Option.map_eq_some_iff.1 hholder
      cases heq
      exact Or.inr ⟨hc, hty⟩
  · rintro (⟨input, hinput, hc, hty⟩ | ⟨hc, hty⟩)
    · have hsocket : block.socket? input.name = some c := by
        rw [Block.socket?, h.laid.input?_name hinput]
        exact hc
      refine ⟨.input input.name, Block.mem_grants.2 (.inr (.inl ⟨_, rfl, hty.imp_right ?_⟩)),
        by rw [Block.holder?, hsocket]; rfl⟩
      rintro ⟨hmark, hty⟩
      exact ⟨hty, List.mem_filter.2 ⟨List.mem_map_of_mem hinput, hmark⟩⟩
    · exact ⟨.output, Block.mem_grants.2 (.inr (.inr ⟨rfl, hty⟩)), by rw [Block.holder?, hc]; rfl⟩

/-- Each connection, and the variable, is given at most one scheme. -/
theorem grants_unique (hw : w.InOrder) (hblock : w.blocks[b]? = some block)
    (hty : block.Grants a ty) (hty' : block.Grants a ty') : ty = ty' := by
  cases a with
  | inl c => exact hw.declares_unique hblock (h.grants_iff.1 hty) (h.grants_iff.1 hty')
  | inr v =>
    exact Option.some.inj
      ((Block.grants_inr_iff.1 hty).1.symm.trans (Block.grants_inr_iff.1 hty').1)

/-- A kind gives types to value connections and to the variable that the block declares. -/
theorem holderBelow (hw : w.InOrder) (hblock : w.blocks[b]? = some block) (hbelow : w.Below root b)
    (hty : block.Grants a ty) : w.HolderBelow root a := by
  cases a with
  | inl c =>
    rcases h.grants_iff.1 hty with ⟨input, hinput, hc, hty⟩ | ⟨hc, -⟩
    · obtain ⟨connection, hconnection, rfl, hkind⟩ :=
        hw.connection_of_input hblock hinput ((h.laid.value_iff hinput).2 ⟨ty, hty⟩) hc
      exact ⟨connection, hconnection, by rw [hkind]; rfl, hbelow⟩
    · obtain ⟨connection, hconnection, rfl, hkind⟩ := hw.connection_of_output hblock hc
      exact ⟨connection, hconnection, by rw [hkind]; rfl, hbelow⟩
  | inr v =>
    obtain ⟨hkind, hown⟩ := Block.given_inr_iff.1 ⟨ty, hty⟩
    exact ⟨b, block, hbelow, hblock, hkind, (ownVariable_eq_ok hblock).2 hown⟩

theorem fits_iff (hblock : w.blocks[b]? = some block) {τ : Typing} :
    τ.Fits w b block ↔ ∃ σ : Nat → Ty, ∀ a ty, block.Grants a ty → τ.typeAt a = ty.subst σ := by
  refine exists_congr fun σ => ⟨?_, fun hall => ⟨fun c ty hty => ?_, fun v ty hty hown => ?_⟩⟩
  · rintro ⟨hsocket, hbinder⟩ (c | v) ty hty
    · exact hsocket c ty (h.grants_iff.1 hty)
    · obtain ⟨hty, hown⟩ := Block.grants_inr_iff.1 hty
      exact hbinder v ty hty ((ownVariable_eq_ok hblock).2 hown)
  · exact hall (.inl c) ty (h.grants_iff.2 hty)
  · exact hall (.inr v) ty (Block.grants_inr_iff.2 ⟨hty, (ownVariable_eq_ok hblock).1 hown⟩)

theorem retypes (hr : Retypes w w') : w'.KeepsLayout b block where
  inputs := h.inputs
  output := h.output
  ownVariable hkind := by
    obtain ⟨v, own, hown, hv, hblock, hreference⟩ := h.ownVariable hkind
    obtain ⟨new, hnew, heq⟩ := hr.sameGraph.var hv
    refine ⟨v, new, (hr.sameGraph.ownVariable_eq b).trans hown, hnew,
      (Variable.block_of_untyped heq).trans hblock, ?_⟩
    rw [← hreference, Variable.isReference_of_untyped heq]

end KeepsLayout

/-- What has a type in a tree is given it by a block of the tree. -/
theorem InOrder.exists_grants (hw : w.InOrder)
    (hlayout : ∀ {b : BlockId} {block : Block}, w.Below root b → w.blocks[b]? = some block →
      w.KeepsLayout b block)
    (ha : w.HolderBelow root a) :
    ∃ b block ty, w.Below root b ∧ w.blocks[b]? = some block ∧ block.Grants a ty := by
  cases a with
  | inl c =>
    obtain ⟨connection, hc, hvalue, hbelow⟩ := ha
    obtain ⟨block, hblock⟩ := hw.block_of_connection hc
    have hkeeps := hlayout hbelow hblock
    obtain ⟨ty, hty⟩ := hw.exists_declares hc hvalue hblock hkeeps
    exact ⟨_, block, ty, hbelow, hblock, hkeeps.grants_iff.2 hty⟩
  | inr v =>
    obtain ⟨b, block, hbelow, hblock, hkind, hown⟩ := ha
    obtain ⟨ty, hty⟩ := Block.given_inr_iff.2 ⟨hkind, (ownVariable_eq_ok hblock).1 hown⟩
    exact ⟨b, block, ty, hbelow, hblock, hty⟩

/-- A block has been given the types of its kind over the variables that start at `base`. -/
structure Declared (w w' : Workspace) (block : Block) (base : Nat) : Prop where
  retypes : Retypes w w'
  types : w'.types = (w.types.freshMany block.kind.signature.fresh).2
  error : ∀ c, w'.slotError c = w.slotError c
  given : ∀ {a : Holder} {ty : Ty}, block.Grants a ty → w'.typeAt a = some (instantiate base ty)
  kept : ∀ {a : Holder}, ¬ block.Given a → w'.typeAt a = w.typeAt a

/-- A block that keeps its layout can be given the types of its kind. -/
theorem KeepsLayout.exists_declareTypes (h : w.KeepsLayout b block) (hw : w.InOrder)
    (hblock : w.blocks[b]? = some block) :
    ∃ w', w.declareTypes b = .ok w' ∧ Declared w w' block w.types.size := by
  let w0 : Workspace := { w with types := (w.types.freshMany block.kind.signature.fresh).2 }
  have hfresh : Retypes w w0 := .of_types fun ht => ht.freshMany _
  have hown : block.kind.isBinder = true → ∃ v found, block.own? = some v ∧
      w.vars[v]? = some found ∧ (found.isReference = true ↔ block.kind = .variablesGet) := by
    intro hkind
    obtain ⟨v, own, hown, hv, -, hreference⟩ := h.ownVariable (.inl hkind)
    exact ⟨v, own, (ownVariable_eq_ok hblock).1 hown, hv, hreference⟩
  obtain ⟨w', hrun, hassigns⟩ := exists_grants (w := w0) block.grants (instantiate w.types.size)
    hblock fun g hg => hw.exists_holder hblock h.laid.equipped hown hg
  refine ⟨w', (declareTypes_eq hblock).trans hrun, hfresh.trans hassigns.retypes, hassigns.types,
    hassigns.error, ?_, fun hnone => hassigns.kept ?_⟩
  · rintro a ty ⟨seat, hmem, hholder⟩
    refine hassigns.set ⟨(seat, ty), hmem, hholder, rfl⟩ ?_
    rintro _ ⟨⟨seat', ty'⟩, hmem', hholder', rfl⟩
    rw [h.grants_unique hw hblock ⟨seat', hmem', hholder'⟩ ⟨seat, hmem, hholder⟩]
  · rintro _ ⟨⟨seat, ty⟩, hmem, hholder, -⟩
    exact hnone ⟨ty, seat, hmem, hholder⟩

end Workspace

end BlockGraph
