import BlockGraph.Proofs.Inference.Variants
import BlockGraph.Proofs.Totality.Sturdy
import BlockGraph.Proofs.Upkeep.Undoing

/-!
# The order of inputs

Moving inputs changes the order in which a tree is walked: which equations inference meets first,
which numbers new type variables get, and in which order uses are bound.  None of it changes the
outcome.

* `Shuffled`: two workspaces that differ in types and in the order of inputs only.  They have the
  same equations (`Shuffled.solves`), because these are about sockets and not about places.
* `Kept.moveNumberedInput`: after a move only the tree of the block is behind, so a refresh brings
  all types up to date again.
* `reordering_keeps_types`: the types of a tree without an error are the same as before, up to a
  renaming.  Both are principal solutions of the same equations, and these differ by a renaming.
-/

namespace BlockGraph

/-! ## Blocks -/

namespace Block

variable {block block' : Block}

/-- The block, and its inputs in no order. -/
def bag (block : Block) : Block × Multiset Input := ({ block with inputs := [] }, block.inputs)

theorem bag_of_perm {inputs : List Input} (h : inputs.Perm block.inputs) :
    bag { block with inputs } = block.bag :=
  Prod.ext rfl (Multiset.coe_eq_coe.2 h)

variable (h : block'.bag = block.bag)
include h

theorem perm_of_bag : block'.inputs.Perm block.inputs := Multiset.coe_eq_coe.1 (congrArg Prod.snd h)

theorem kind_of_bag : block'.kind = block.kind := congrArg (fun p => p.1.kind) h

theorem output_of_bag : block'.output = block.output := congrArg (fun p => p.1.output) h

theorem parent_of_bag : block'.parent = block.parent := congrArg (fun p => p.1.parent) h

theorem declares_of_bag {c : ConnectionId} {ty : Ty} (hc : block'.Declares c ty) :
    block.Declares c ty := by
  rw [Declares, kind_of_bag h, output_of_bag h] at hc
  refine hc.imp_left ?_
  rintro ⟨input, hinput, hrest⟩
  exact ⟨input, (perm_of_bag h).mem_iff.1 hinput, hrest⟩

end Block

namespace Workspace

variable {w w1 w2 w' w'' : Workspace} {Q : Block → Prop} {tracked : Prop} {stale N : BlockId → Prop}
  {r a b : BlockId} {c : ConnectionId} {u : VariableId} {block : Block} {τ : Typing}
  {source target : Nat} {bs : List BlockId}

/-! ## Workspaces that differ in types and in the order of inputs -/

structure Shuffled (w w' : Workspace) : Prop where
  options : w'.options = w.options
  top : w'.top = w.top
  /-- Kinds, parents, children, and inputs in any order. -/
  block : ∀ b : BlockId, w'.blocks[b]?.map Block.bag = w.blocks[b]?.map Block.bag
  /-- Owners, kinds, checks and targets. -/
  joint : ∀ c : ConnectionId, w'.connections[c]?.map Connection.joint =
    w.connections[c]?.map Connection.joint
  /-- Names, owners and bindings. -/
  var : ∀ v : VariableId, w'.vars[v]?.map Variable.untyped = w.vars[v]?.map Variable.untyped

namespace Shuffled

theorem refl (w : Workspace) : Shuffled w w := ⟨rfl, rfl, fun _ => rfl, fun _ => rfl, fun _ => rfl⟩

theorem symm (h : Shuffled w w') : Shuffled w' w :=
  ⟨h.options.symm, h.top.symm, fun b => (h.block b).symm, fun c => (h.joint c).symm,
    fun v => (h.var v).symm⟩

theorem trans (h : Shuffled w w') (h' : Shuffled w' w'') : Shuffled w w'' where
  options := h'.options.trans h.options
  top := h'.top.trans h.top
  block b := (h'.block b).trans (h.block b)
  joint c := (h'.joint c).trans (h.joint c)
  var v := (h'.var v).trans (h.var v)

/-- The inputs of one block change places. -/
theorem of_perm {inputs : List Input} (hblock : w.blocks[b]? = some block)
    (hperm : inputs.Perm block.inputs) :
    Shuffled w { w with blocks := w.blocks.insert b { block with inputs } } := by
  refine ⟨rfl, rfl, fun x => ?_, fun _ => rfl, fun _ => rfl⟩
  rw [getElem?_insert_eq]
  split
  · next hx => rw [hx, hblock, Option.map_some, Option.map_some, Block.bag_of_perm hperm]
  · rfl

section Transfer

variable (h : Shuffled w w')
include h

theorem exists_block (hb : w'.blocks[b]? = some block) : ∃ old, w.blocks[b]? = some old ∧
    block.bag = old.bag := by
  obtain ⟨old, hold, heq⟩ := exists_of_map_eq (h.block b).symm hb
  exact ⟨old, hold, heq.symm⟩

theorem exists_connection {connection : Connection} (hc : w'.connections[c]? = some connection) :
    ∃ old, w.connections[c]? = some old ∧ connection.joint = old.joint := by
  obtain ⟨old, hold, heq⟩ := exists_of_map_eq (h.joint c).symm hc
  exact ⟨old, hold, heq.symm⟩

theorem parentOf (hp : w'.ParentOf a b) : w.ParentOf a b := by
  obtain ⟨block, hblock, hparent⟩ := hp
  obtain ⟨old, hold, heq⟩ := h.exists_block hblock
  exact ⟨old, hold, (Block.parent_of_bag heq).symm.trans hparent⟩

theorem below (hb : w'.Below a b) : w.Below a b :=
  Relation.ReflTransGen.mono (fun _ _ => h.parentOf) _ _ hb

theorem socketBelow (hc : w'.SocketBelow r c) : w.SocketBelow r c := by
  obtain ⟨connection, hconnection, hvalue, hbelow⟩ := hc
  obtain ⟨old, hold, heq⟩ := h.exists_connection hconnection
  have hkind : connection.kind = old.kind := congrArg Joint.kind heq
  have hblock : connection.block = old.block := congrArg Joint.block heq
  exact ⟨old, hold, hkind ▸ hvalue, hblock ▸ h.below hbelow⟩

variable (hs : Standing Q w) (hplain : ∀ {block : Block}, Q block → block.Plain)
include hs hplain

theorem ownVariable (hown : w'.ownVariable b = .ok u) (hb : w'.blocks[b]? = some block) :
    w.ownVariable b = .ok u := by
  obtain ⟨old, hold, heq⟩ := h.exists_block hb
  rw [ownVariable_eq_ok hold,
    ← Block.own?_of_perm (Block.perm_of_bag heq) (hplain (hs.block hold)).holds
    (hs.owned.tidy hold)]
  exact (ownVariable_eq_ok hb).1 hown

theorem binderBelow (hu : w'.BinderBelow r u) : w.BinderBelow r u := by
  obtain ⟨b, block, hbelow, hblock, hkind, hown⟩ := hu
  obtain ⟨old, hold, heq⟩ := h.exists_block hblock
  exact ⟨b, old, h.below hbelow, hold, Block.kind_of_bag heq ▸ hkind,
    h.ownVariable hs hplain hown hblock⟩

theorem useAt (huse : w'.UseAt b c u) : w.UseAt b c u := by
  obtain ⟨block, v, use, hblock, hkind, hout, hown, hv, hbinding⟩ := huse
  obtain ⟨old, hold, heq⟩ := h.exists_block hblock
  obtain ⟨use0, hv0, hsame⟩ := exists_of_map_eq (h.var v).symm hv
  exact ⟨old, v, use0, hold, (Block.kind_of_bag heq).symm.trans hkind,
    (Block.output_of_bag heq).symm.trans hout, h.ownVariable hs hplain hown hblock, hv0,
    (Variable.binding?_of_untyped hsame).trans hbinding⟩

end Transfer

/-- The equations of a tree do not depend on the order of inputs. -/
theorem solves (h : Shuffled w w') (hs : Standing Q w)
    (hplain : ∀ {block : Block}, Q block → block.Plain) (hsolves : τ.Solves w r) :
    τ.Solves w' r where
  link {b} hbelow c t connection hc hkind hb ht := by
    obtain ⟨old, hold, heq⟩ := h.exists_connection hc
    exact hsolves.link (h.below hbelow) hold ((congrArg Joint.kind heq).symm.trans hkind)
      ((congrArg Joint.block heq).symm.trans hb) ((congrArg Joint.target heq).symm.trans ht)
  use hbelow _ _ huse := hsolves.use (h.below hbelow) (h.useAt hs hplain huse)
  shape {b block} hbelow hblock := by
    obtain ⟨old, hold, heq⟩ := h.exists_block hblock
    obtain ⟨σ, hsocket, hbinder⟩ := hsolves.shape (h.below hbelow) hold
    refine ⟨σ, fun c ty hc => hsocket c ty (Block.declares_of_bag heq hc), fun v ty hty hv => ?_⟩
    exact hbinder v ty (Block.kind_of_bag heq ▸ hty) (h.ownVariable hs hplain hv hblock)

end Shuffled

/-! ## Moving inputs -/

/-- A move leaves the tree of the block behind, and no other. -/
theorem Kept.moveNumberedInput {w0 : Workspace} (hQ : Unordered Q) (h : Kept Q tracked N w0 stale w)
    (hb : N b) (hrun : w.moveNumberedInput b source target = .ok w') :
    Kept Q tracked N w0 (fun x => stale x ∨ w'.Below x b) w' := by
  obtain ⟨block, inputs, hblock, hperm, -, hmoved⟩ := h.inOrder.moved hrun
  have hq := h.standing.block hblock
  exact h.reshape hb (hmoved (h.owned.tidy hblock) (hQ.plain hq).holds) (hQ.perm hperm hq)

/-- Calls that move an input of one of some blocks. -/
def Call.MovesInputOf (S : BlockId → Prop) : Call → Prop
  | moveInput b _ _ | moveNumberedInput b _ _ => S b
  | _ => False

/-- Inputs in the tree of `r` were moved, and nothing else has happened. -/
structure Reordered (Q : Block → Prop) (r : BlockId) (w w' : Workspace) : Prop where
  shuffled : Shuffled w w'
  rest : w' = { w with blocks := w'.blocks }
  kept : Kept Q True (fun _ => True) w (· = r) w'
  bound : Upheld Q False w'

namespace Reordered

theorem refl (h : Upheld Q True w) (h' : Upheld Q False w) : Reordered Q r w w :=
  ⟨.refl w, rfl, h.kept.relax (fun _ _ => False.elim) fun _ _ => trivial, h'⟩

variable (hQ : Unordered Q) (hr : r ∈ w.top) (hb : w.Below r b) (h : Reordered Q r w w1)
include hQ hr hb h

theorem moveNumberedInput (hrun : w1.moveNumberedInput b source target = .ok w') :
    Reordered Q r w w' := by
  have hkept := h.kept.moveNumberedInput hQ trivial hrun
  have hbound := h.bound.moveNumberedInput hQ hrun
  obtain ⟨block, inputs, hblock, hperm, rfl⟩ := moveNumberedInput_cases hrun
  have hshuffled := h.shuffled.trans (.of_perm hblock hperm)
  refine ⟨hshuffled, by rw [h.rest], hkept.relax (fun x hx hstale => ?_) fun _ _ => trivial, hbound⟩
  rcases hstale with rfl | hbelow
  · rfl
  · exact hkept.inOrder.root_unique hx (hshuffled.top ▸ hr) hbelow (hshuffled.symm.below hb)

theorem moveInput {name : String} {before : Option String}
    (hrun : w1.moveInput b name before = .ok w') :
    Reordered Q r w w' := by
  rcases moveInput_cases hrun with rfl | ⟨source, target, hrun⟩
  · exact h
  · exact h.moveNumberedInput hQ hr hb hrun

end Reordered

/-- Any number of moves in one tree. -/
theorem Reordered.run (hQ : Unordered Q) (hr : r ∈ w.top) (h : Upheld Q True w)
    (h' : Upheld Q False w) {calls : List Call}
    (hcalls : ∀ call ∈ calls, call.MovesInputOf (w.Below r))
    (hrun : calls.foldlM Call.run w = .ok w1) : Reordered Q r w w1 := by
  refine foldlM_induction (fun call hcall v v' hv hstep => ?_) (Reordered.refl h h') hrun
  have hmoves := hcalls call hcall
  cases call with
  | moveInput b name before => exact hv.moveInput hQ hr hmoves hstep
  | moveNumberedInput b source target => exact hv.moveNumberedInput hQ hr hmoves hstep
  | _ => cases hmoves

/-! ## Refreshing -/

/-- A refresh finds the bindings that are there, if they are up to date. -/
theorem shuffled_refresh {Q' : Block → Prop} {tracked' : Prop} (h : Upheld Q tracked w)
    (h' : Upheld Q' tracked' w') (htyped : w.isTyped = true) (hrun : w.refresh bs = .ok w') :
    Shuffled w w' := by
  obtain ⟨hoptions, hblocks⟩ := rest_refresh hrun
  refine ⟨hoptions, (keeps_refresh hrun).top_eq, fun b => by rw [hblocks],
    (retouches_refresh hrun).joint, ?_⟩
  exact h.untyped_eq h' htyped hoptions hblocks
    (congrArg Skeleton.joint (keeps_refresh hrun).skeleton_eq) (keepsBare_refresh hrun)

/-! ## Types -/

/-- The same connections have types. -/
theorem Reordered.isSome_slotType_eq (hlaid : ∀ {block : Block}, Q block → block.Laid)
    (h : Upheld Q True w) (h2 : Upheld Q True w2) (htyped : w.isTyped = true)
    (hmoved : Reordered Q r w w1) (hshuffled : Shuffled w w2) (hrun : w1.refresh bs = .ok w2)
    (c : ConnectionId) :
    (w2.slotType c).isSome = (w.slotType c).isSome := by
  have hsame : w1.connections = w.connections := by rw [hmoved.rest]
  refine h.isSome_slotType_eq hlaid h2 htyped hshuffled.options (funext hshuffled.joint)
    fun old hold hvalue => ?_
  have hjoint : w1.skeleton.joint c = some old.joint := joint_of_connection (hsame ▸ hold)
  rw [(KeepsPlain.refresh hlaid hmoved.kept.standing hrun).plain hjoint hvalue, slotType,
    hsame, slotType]

section Types

variable (hlaid : ∀ {block : Block}, Q block → block.Laid)
  (hplain : ∀ {block : Block}, Q block → block.Plain) (h : Upheld Q True w) (h' : Upheld Q True w')
  (hshuffled : Shuffled w w') (htyped : w.isTyped = true) (hr : r ∈ w.top) (hfree : w.ErrorFree r)
include hlaid hplain h h' hshuffled htyped hr hfree

theorem Shuffled.errorFree : w'.ErrorFree r := by
  have htyped' : w'.isTyped = true := (isTyped_congr hshuffled.options).trans htyped
  have hr' : r ∈ w'.top := hshuffled.top ▸ hr
  have hw' := h'.standing.inOrder
  obtain ⟨τ, hsolves, -⟩ := h.exists_shown hlaid htyped hr hfree
  obtain ⟨ty, v, π, hreinfer, hagree⟩ := h'.exists_reinfer htyped' hr'
  have hfree' := errorFree_of_solves hw' htyped' (hw'.live_of_top hr')
    (h'.standing.keepsTree hlaid (h'.here htyped' r hr' id)) hreinfer
    (hshuffled.solves h.standing hplain hsolves)
  exact (hagree.errorFree_iff (retypes_reinfer hreinfer).sameGraph).1 hfree'

/-- Both workspaces show principal solutions of the same equations. -/
theorem Shuffled.exists_renaming :
    ∃ (τ : Typing) (π : Equiv.Perm Nat), w.Shows r τ ∧ w'.Shows r (τ.rename π) := by
  have htyped' : w'.isTyped = true := (isTyped_congr hshuffled.options).trans htyped
  have hfree' := hshuffled.errorFree hlaid hplain h h' htyped hr hfree
  obtain ⟨τ, hsolves, hshows, hprincipal⟩ := h.exists_principal hlaid htyped hr hfree
  obtain ⟨τ', hsolves', hshows', hprincipal'⟩ :=
    h'.exists_principal hlaid htyped' (hshuffled.top ▸ hr) hfree'
  obtain ⟨σ, hσ⟩ := hprincipal τ' (hshuffled.symm.solves h'.standing hplain hsolves')
  obtain ⟨ρ, hρ⟩ := hprincipal' τ (hshuffled.solves h.standing hplain hsolves)
  have hsocket : ∀ {c}, w.SocketBelow r c → w'.SocketBelow r c := hshuffled.symm.socketBelow
  have hbinder : ∀ {u}, w.BinderBelow r u → w'.BinderBelow r u :=
    hshuffled.symm.binderBelow h'.standing hplain
  obtain ⟨π, hπ⟩ := Typing.exists_renaming (fun v hv => hshows.lt_size h.standing.inOrder.sound hv)
    hσ ⟨fun hc => hρ.socket (hsocket hc), fun hu => hρ.binder (hbinder hu)⟩
  refine ⟨τ, π, hshows, fun {c} hc => ?_, fun {u} hu => ?_⟩
  · rw [hshows'.socket hc, hπ.socket (hshuffled.socketBelow hc)]
  · rw [← hπ.binder (hshuffled.binderBelow h.standing hplain hu)]
    exact hshows'.binder hu

end Types

/-- **The order of inputs does not matter to a tree without errors.**  Let a typed workspace come
about by edits, and move inputs of blocks of one tree without an error in any way.  That leaves all
targets, children and bindings as they are.  The tree can be refreshed then, and still has no error:
every use is bound to what it was bound to, the same connections have types, and the resolved types
of sockets and declarations are those from before under one renaming of type variables. -/
theorem reordering_keeps_types (hw : w.ReachableBy Call.IsEdit) (htyped : w.isTyped = true)
    (hr : r ∈ w.top) (hfree : w.ErrorFree r) {calls : List Call}
    (hcalls : ∀ call ∈ calls, call.MovesInputOf (w.Below r))
    (hrun : calls.foldlM Call.run w = .ok w1) (hb : w.Below r b) :
    w1 = { w with blocks := w1.blocks } ∧ Shuffled w w1 ∧
      ∃ w2, w1.refresh [b] = .ok w2 ∧ Shuffled w w2 ∧ w2.ErrorFree r ∧
        (∀ c, (w2.slotType c).isSome = (w.slotType c).isSome) ∧
        ∃ (τ : Typing) (π : Equiv.Perm Nat), w.Shows r τ ∧ w2.Shows r (τ.rename π) := by
  have hlaid : ∀ {block : Block}, block.Regular → block.Laid := fun hblock => hblock.laid
  have hplain : ∀ {block : Block}, block.Regular → block.Plain := fun hblock => hblock.plain
  have h : Upheld Block.Regular True w := hw.upheld Block.steady_regular
  have hmoved := Reordered.run Block.unordered_regular hr h (hw.upheld Block.steady_regular)
    hcalls hrun
  have htyped1 : w1.isTyped = true := (isTyped_congr hmoved.shuffled.options).trans htyped
  -- only the tree of `r` is behind, and the refresh mends it
  obtain ⟨w2, hrefresh⟩ := hmoved.kept.tended.exists_refresh serviceable_regular.equipped [b]
    fun _ _ => False.elim
  have h2 : Upheld Block.Regular True w2 := by
    refine (hmoved.kept.tended.refresh (fun _ _ => False.elim) hrefresh).relax (fun _ _ => id) ?_
    rintro x - ⟨rfl, hnot⟩
    exact hnot b List.mem_cons_self
      ((keeps_refresh hrefresh).below_iff.2 (hmoved.shuffled.symm.below hb))
  have hshuffled := hmoved.shuffled.trans (shuffled_refresh hmoved.bound h2 htyped1 hrefresh)
  refine ⟨hmoved.rest, hmoved.shuffled, w2, hrefresh, hshuffled,
    hshuffled.errorFree hlaid hplain h h2 htyped hr hfree, fun c => ?_,
    hshuffled.exists_renaming hlaid hplain h h2 htyped hr hfree⟩
  exact hmoved.isSome_slotType_eq hlaid h h2 htyped hshuffled hrefresh c

/-- A pair of a list and nothing, in which the list is a variable. -/
def listInPair : Except Fault Workspace :=
  [Call.newBlock .letIn, .newBlock .listEmpty, .newBlock .pairCreate, .newBlock .variablesGet,
    .connect ⟨1⟩ ⟨3⟩, .connect ⟨2⟩ ⟨4⟩, .connect ⟨5⟩ ⟨7⟩].foldlM Call.run (Workspace.new {})

/-- The inputs of both blocks change places, so that the use is met before the list; the numbers of
the two type variables are the other way round then. -/
theorem reordering_keeps_types_listInPair : ∃ w w1 w2, listInPair = .ok w ∧
    [Call.moveInput ⟨1⟩ "EXP2" (some "EXP1"), .moveInput ⟨3⟩ "FIRST" none].foldlM Call.run w =
      .ok w1 ∧
    w1.refresh [⟨3⟩] = .ok w2 ∧ w2.ErrorFree ⟨1⟩ ∧
    ((w.typeOf? ⟨0⟩).toOption.bind id).map Ty.text = some "Pair<List<?40>, ?45>" ∧
    ((w2.typeOf? ⟨0⟩).toOption.bind id).map Ty.text = some "Pair<List<?61>, ?57>" ∧
    ∃ (τ : Typing) (π : Equiv.Perm Nat), w.Shows ⟨1⟩ τ ∧ w2.Shows ⟨1⟩ (τ.rename π) := by
  obtain ⟨w, hrun, htyped, htop, herrors, hparent, htext, hmoves⟩ : ∃ w, listInPair = .ok w ∧
      w.isTyped = true ∧ (⟨1⟩ : BlockId) ∈ w.top ∧ w.typeErrors = [] ∧
      (∃ block ∈ w.blocks[(⟨3⟩ : BlockId)]?, block.parent = some ⟨1⟩) ∧
      ((w.typeOf? ⟨0⟩).toOption.bind id).map Ty.text = some "Pair<List<?40>, ?45>" ∧
      ([Call.moveInput ⟨1⟩ "EXP2" (some "EXP1"), .moveInput ⟨3⟩ "FIRST" none].foldlM Call.run
        w).toOption.any (fun w1 => decide ((w1.refresh [⟨3⟩]).toOption.any (fun w2 => decide (
          ((w2.typeOf? ⟨0⟩).toOption.bind id).map Ty.text = some "Pair<List<?61>, ?57>")) = true)) =
          true :=
    exists_ok_of_any (by decide +kernel)
  obtain ⟨w1, hmoved, hrefresh⟩ := exists_ok_of_any hmoves
  have hroot : w.Below ⟨1⟩ ⟨1⟩ := .refl
  have hbelow : w.Below ⟨1⟩ ⟨3⟩ := .single hparent
  obtain ⟨-, -, w2, hrun2, -, hfree, -, htypes⟩ := reordering_keeps_types
    ((ReachableBy.new {}).foldlM (by simp [Call.IsEdit]) hrun) htyped htop
    (errorFree_of_typeErrors herrors ⟨1⟩) (by simp [Call.MovesInputOf, hroot, hbelow]) hmoved hbelow
  rw [hrun2, Except.toOption, Option.any_some, decide_eq_true_eq] at hrefresh
  exact ⟨w, w1, w2, hrun, hmoved, hrun2, hfree, htext, hrefresh, htypes⟩

end Workspace

end BlockGraph
