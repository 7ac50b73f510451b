import BlockGraph.Proofs.Inference.Layout

/-!
# Typings of a tree

What inference is to find, said without it.  A typing gives a type to every connection and every
variable.  It solves a tree (`Typing.Solves`) if

* every block has an instance of its kind's signature over its sockets, its output and its variable;
* a value socket has the type of the output that is plugged into it;
* a use of a variable has the type of the declaration that it is bound to.

Only the sockets and variables of the tree matter: `Typing.Agrees` says that two typings are equal
there.  An instance of a typing replaces the variables of its types (`Typing.subst`).
-/

namespace BlockGraph

variable {b : BlockId} {c : ConnectionId} {u : VariableId} {τ : Typing}

/-- What can have a type: a connection or a variable. -/
abbrev Holder := ConnectionId ⊕ VariableId

/-- A type for every connection and every variable. -/
structure Typing where
  socket : ConnectionId → Ty
  binder : VariableId → Ty

def Typing.typeAt (τ : Typing) : Holder → Ty
  | .inl c => τ.socket c
  | .inr v => τ.binder v

namespace Workspace

/-- A value connection of a block of the tree. -/
def SocketBelow (w : Workspace) (root : BlockId) (c : ConnectionId) : Prop :=
  ∃ connection, w.connections[c]? = some connection ∧ connection.kind.isValue = true ∧
    w.Below root connection.block

/-- A variable that a block of the tree declares. -/
def BinderBelow (w : Workspace) (root : BlockId) (v : VariableId) : Prop :=
  ∃ b block, w.Below root b ∧ w.blocks[b]? = some block ∧ block.kind.isBinder = true ∧
    w.ownVariable b = .ok v

/-- What has a type in a tree: its value connections, and the variables that its blocks declare. -/
def HolderBelow (w : Workspace) (root : BlockId) : Holder → Prop
  | .inl c => w.SocketBelow root c
  | .inr v => w.BinderBelow root v

/-- A block is a use of a variable: its output, and the declaration that it is bound to. -/
def UseAt (w : Workspace) (b : BlockId) (c : ConnectionId) (u : VariableId) : Prop :=
  ∃ block v use, w.blocks[b]? = some block ∧ block.kind = .variablesGet ∧ block.output = some c ∧
    w.ownVariable b = .ok v ∧ w.vars[v]? = some use ∧ use.binding? = some u

/-- The blocks of a tree keep their layout, and uses in the tree are bound to declarations in it. -/
structure KeepsTree (w : Workspace) (root : BlockId) : Prop where
  layout : ∀ {b : BlockId} {block : Block}, w.Below root b → w.blocks[b]? = some block →
    w.KeepsLayout b block
  bound : ∀ {b : BlockId} {c : ConnectionId} {u : VariableId}, w.Below root b → w.UseAt b c u →
    w.BinderBelow root u

end Workspace

namespace Typing

/-- A block has an instance of its kind's signature. -/
def Fits (τ : Typing) (w : Workspace) (b : BlockId) (block : Block) : Prop :=
  ∃ σ : Nat → Ty, (∀ c ty, block.Declares c ty → τ.socket c = ty.subst σ) ∧
    ∀ v ty, block.kind.signature.binder = some ty → w.ownVariable b = .ok v →
    τ.binder v = ty.subst σ

/-- The value sockets of a block have the types of what is plugged into them. -/
def LinksAt (τ : Typing) (w : Workspace) (b : BlockId) : Prop :=
  ∀ {c t : ConnectionId} {connection : Connection}, w.connections[c]? = some connection →
    connection.kind = .inputValue → connection.block = b → connection.target = some t →
    τ.socket c = τ.socket t

/-- If a block is a use of a variable, it has the type of the declaration that it is bound to. -/
def UsesAt (τ : Typing) (w : Workspace) (b : BlockId) : Prop :=
  ∀ {c : ConnectionId} {u : VariableId}, w.UseAt b c u → τ.socket c = τ.binder u

/-- The equations between the blocks of a tree hold. -/
structure Links (τ : Typing) (w : Workspace) (root : BlockId) : Prop where
  link : ∀ {b : BlockId}, w.Below root b → τ.LinksAt w b
  use : ∀ {b : BlockId}, w.Below root b → τ.UsesAt w b

/-- All equations of a tree hold. -/
structure Solves (τ : Typing) (w : Workspace) (root : BlockId) : Prop extends τ.Links w root where
  shape : ∀ {b : BlockId} {block : Block}, w.Below root b → w.blocks[b]? = some block →
    τ.Fits w b block

/-- Two typings are equal on a tree. -/
structure Agrees (τ τ' : Typing) (w : Workspace) (root : BlockId) : Prop where
  socket : ∀ {c : ConnectionId}, w.SocketBelow root c → τ.socket c = τ'.socket c
  binder : ∀ {v : VariableId}, w.BinderBelow root v → τ.binder v = τ'.binder v

theorem agrees_iff {τ' : Typing} {w : Workspace} {root : BlockId} :
    τ.Agrees τ' w root ↔ ∀ a, w.HolderBelow root a → τ.typeAt a = τ'.typeAt a := by
  constructor
  · rintro h (c | v) ha
    · exact h.socket ha
    · exact h.binder ha
  · exact fun h => ⟨fun {c} => h (.inl c), fun {v} => h (.inr v)⟩

/-- Replaces the variables of a typing's types. -/
def subst (τ : Typing) (σ : Nat → Ty) : Typing where
  socket c := (τ.socket c).subst σ
  binder v := (τ.binder v).subst σ

theorem typeAt_subst (τ : Typing) (σ : Nat → Ty) (a : Holder) :
    (τ.subst σ).typeAt a = (τ.typeAt a).subst σ := by
  cases a <;> rfl

end Typing

namespace Workspace

variable {w : Workspace} {root : BlockId} {block : Block}

/-! ## Which connections belong to a tree -/

/-- A value input has a socket for values. -/
theorem InOrder.connection_of_input (hw : w.InOrder) (hblock : w.blocks[b]? = some block)
    {input : Input} (hinput : input ∈ block.inputs) (hvalue : input.kind = .value)
    (hc : input.connection = some c) :
    ∃ connection, w.connections[c]? = some connection ∧ connection.block = b ∧
      connection.kind = .inputValue := by
  have hplace : input.slot.place? = some (c, .inputValue) := by
    simp [Slot.place?, Input.slot, hvalue, hc]
  obtain ⟨j, hj, hb, hkind⟩ := hw.formed.wired.joint_of_frame (frame_of_block hblock)
    (Frame.mem_places.2 (Or.inr (Or.inr (Or.inl ⟨_, List.mem_map_of_mem hinput, hplace⟩))))
  obtain ⟨connection, hconnection, rfl⟩ := joint_eq_some_iff.1 hj
  exact ⟨connection, hconnection, hb, hkind⟩

theorem InOrder.connection_of_output (hw : w.InOrder) (hblock : w.blocks[b]? = some block)
    (hc : block.output = some c) : ∃ connection, w.connections[c]? = some connection ∧
      connection.block = b ∧ connection.kind = .output := by
  obtain ⟨j, hj, hb, hkind⟩ := hw.formed.wired.joint_of_frame (frame_of_block hblock)
    (Frame.mem_places.2 (Or.inl ⟨hc, rfl⟩))
  obtain ⟨connection, hconnection, rfl⟩ := joint_eq_some_iff.1 hj
  exact ⟨connection, hconnection, hb, hkind⟩

/-- What is plugged into a socket of a tree belongs to the tree. -/
theorem InOrder.socketBelow_of_target (hw : w.InOrder) {t : ConnectionId} {connection : Connection}
    (hc : w.connections[c]? = some connection) (hkind : connection.kind = .inputValue)
    (hbelow : w.Below root connection.block) (ht : connection.target = some t) :
    w.SocketBelow root t := by
  obtain ⟨other, hother, hback, hopposite, -⟩ := hw.structured.target hc ht
  have hout : other.kind = .output := by rw [hopposite, hkind]; rfl
  have hsup : other.kind.isSuperior = true := by rw [hout]; rfl
  have hparent := hw.parentOf_of_joined (joint_of_connection hother) hsup hback
    (joint_of_connection hc)
  exact ⟨other, hother, by rw [hout]; rfl, hbelow.tail (parentOf_skeleton.1 hparent)⟩

theorem UseAt.socketBelow (hw : w.InOrder) (hbelow : w.Below root b)
    (h : w.UseAt b c u) : w.SocketBelow root c := by
  obtain ⟨block, v, use, hblock, -, hc, -⟩ := h
  obtain ⟨connection, hconnection, rfl, hkind⟩ := hw.connection_of_output hblock hc
  exact ⟨connection, hconnection, by rw [hkind]; rfl, hbelow⟩

end Workspace

/-! ## The equations are about the graph -/

namespace Workspace.SameGraph

variable {w w' : Workspace} {root : BlockId}

variable (h : SameGraph w w')
include h

theorem below_eq : w'.Below = w.Below := by
  have hparent : w'.ParentOf = w.ParentOf := by
    funext p b
    rw [ParentOf, h.blocks]
    rfl
  unfold Below
  rw [hparent]

theorem socketBelow (hc : w.SocketBelow root c) : w'.SocketBelow root c := by
  obtain ⟨old, hold, hvalue, hbelow⟩ := hc
  obtain ⟨new, hnew, hblock, hkind, -⟩ := h.connection hold
  refine ⟨new, hnew, ?_, ?_⟩
  · rw [hkind]
    exact hvalue
  · rw [h.below_eq, hblock]
    exact hbelow

theorem binderBelow (hu : w.BinderBelow root u) : w'.BinderBelow root u := by
  obtain ⟨b, block, hbelow, hblock, hkind, hown⟩ := hu
  exact ⟨b, block, by rwa [h.below_eq], by rw [h.blocks, hblock], hkind,
    (h.ownVariable_eq b).trans hown⟩

theorem holderBelow {a : Holder} (ha : w.HolderBelow root a) : w'.HolderBelow root a := by
  cases a with
  | inl c => exact h.socketBelow ha
  | inr v => exact h.binderBelow ha

theorem useAt (huse : w.UseAt b c u) : w'.UseAt b c u := by
  obtain ⟨block, v, use, hblock, hkind, hc, hown, hv, hbinding⟩ := huse
  obtain ⟨new, hnew, heq⟩ := h.var hv
  exact ⟨block, v, new, by rw [h.blocks, hblock], hkind, hc, (h.ownVariable_eq b).trans hown, hnew,
    (Variable.binding?_of_untyped heq).trans hbinding⟩

theorem linksAt (hlinks : τ.LinksAt w b) : τ.LinksAt w' b := by
  intro c t connection hc hkind hb ht
  obtain ⟨old, hold, hblock, hkind', htarget⟩ := h.symm.connection hc
  exact hlinks hold (hkind'.trans hkind) (hblock.trans hb) (htarget.trans ht)

theorem links (hlinks : τ.Links w root) : τ.Links w' root where
  link hbelow := h.linksAt (hlinks.link (h.below_eq ▸ hbelow))
  use hbelow _ _ huse := hlinks.use (h.below_eq ▸ hbelow) (h.symm.useAt huse)

end Workspace.SameGraph

namespace Typing.Agrees

variable {τ' : Typing} {w : Workspace} {root : BlockId}

theorem linksAt (h : τ.Agrees τ' w root) (hw : w.InOrder) (hbelow : w.Below root b)
    (hlinks : τ.LinksAt w b) : τ'.LinksAt w b := by
  rintro c t connection hc hkind rfl ht
  rw [← h.socket ⟨connection, hc, by rw [hkind]; rfl, hbelow⟩,
    ← h.socket (hw.socketBelow_of_target hc hkind hbelow ht)]
  exact hlinks hc hkind rfl ht

/-- Only the tree matters. -/
theorem links (h : τ.Agrees τ' w root) (hw : w.InOrder) (hkeeps : w.KeepsTree root)
    (hlinks : τ.Links w root) :
    τ'.Links w root where
  link hbelow := h.linksAt hw hbelow (hlinks.link hbelow)
  use {b} hbelow c u huse := by
    rw [← h.socket (huse.socketBelow hw hbelow), ← h.binder (hkeeps.bound hbelow huse)]
    exact hlinks.use hbelow huse

end Typing.Agrees

end BlockGraph
