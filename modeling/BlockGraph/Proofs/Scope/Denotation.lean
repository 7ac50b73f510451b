import BlockGraph.Proofs.Inference.Twins
import BlockGraph.Proofs.Workspace.Plugs

/-!
# What a name denotes

A function declares its parameter into its body and a `let` its name into the part after `in`
(`Workspace.Encloses`).  A name denotes at a block what the first such parent on the way up declares
under it (`Workspace.Denotes`), and nothing if there is none.

* `denotes_iff`: this is the declaration of the nearest block around that captures the name.
* `Denotes.congr`: what a name denotes in a tree depends on the tree alone.
* `Workspace.DenotesFrom`: the same for a tree that is thought of as standing elsewhere.
* `Workspace.Scoped`: every use in a tree is bound to what its name denotes.  Such a tree is
  `Local`.
-/

namespace BlockGraph.Workspace

open Relation

variable {a b p r b' : BlockId} {u v : VariableId} {w w' : Workspace} {name : String}
  {block : Block}

/-- A block is plugged into the input of its parent in which the parent's variable can be used. -/
def Encloses (w : Workspace) (p b : BlockId) : Prop := ∃ block, w.blocks[p]? = some block ∧
    (block.kind = .lambda ∧ w.inputTarget? p "RETURN" = .ok (some b) ∨
      block.kind = .letIn ∧ w.inputTarget? p "EXP2" = .ok (some b))

/-- The variable of a block and its name. -/
def Introduces (w : Workspace) (p : BlockId) (name : String) (v : VariableId) : Prop :=
  ∃ found, w.ownVariable p = .ok v ∧ w.vars[v]? = some found ∧ found.name = name

/-- A block stands in the scope of the variable that its parent declares under a name. -/
def Offers (w : Workspace) (name : String) (p b : BlockId) (v : VariableId) : Prop :=
  w.Encloses p b ∧ w.Introduces p name v

/-- A name denotes a declaration at a block. -/
inductive Denotes (w : Workspace) (name : String) : BlockId → VariableId → Prop where
  | here {p b : BlockId} {v : VariableId} (hp : w.ParentOf p b) (h : w.Offers name p b v) :
    Denotes w name b v
  | above {p b : BlockId} {v : VariableId} (hp : w.ParentOf p b) (h : ∀ u, ¬ w.Offers name p b u)
      (hd : Denotes w name p v) : Denotes w name b v

/-- A block stands, at any depth, in the scope of the variable that `a` declares under a name. -/
def Captures (w : Workspace) (name : String) (a b : BlockId) (v : VariableId) : Prop :=
  ∃ child, w.ParentOf a child ∧ w.Below child b ∧ w.Offers name a child v

theorem Offers.unique (h : w.Offers name p b u) (h' : w.Offers name p b' v) : u = v := by
  obtain ⟨-, _, hu, -⟩ := h
  obtain ⟨-, _, hv, -⟩ := h'
  rw [hu] at hv
  cases hv
  rfl

/-! ## The nearest declaration -/

/-- A block that is above another, and not it, is above its parent. -/
theorem Below.of_parentOf (h : w.Below a b) (hp : w.ParentOf p b) : a = b ∨ w.Below a p := by
  rcases h.cases_tail with rfl | ⟨c, hac, hcb⟩
  · exact .inl rfl
  · cases hcb.unique hp
    exact .inr hac

theorem Captures.of_parentOf (h : w.Captures name a b v)
    (hp : w.ParentOf p b) : a = p ∧ w.Offers name p b v ∨ w.Captures name a p v := by
  obtain ⟨child, ha, hb, hoffers⟩ := h
  rcases hb.of_parentOf hp with rfl | hb
  · cases ha.unique hp
    exact .inl ⟨rfl, hoffers⟩
  · exact .inr ⟨child, ha, hb, hoffers⟩

theorem Denotes.exists_nearest (h : w.Denotes name b v) :
    ∃ a, w.Captures name a b v ∧ ∀ a' u, w.Captures name a' b u → w.Below a' a := by
  induction h with
  | @here p b v hp hoffers =>
    refine ⟨p, ⟨b, hp, ReflTransGen.refl, hoffers⟩, ?_⟩
    rintro a' u ⟨child, ha, hb, -⟩
    rcases hb.of_parentOf hp with rfl | hb
    · cases ha.unique hp
      exact ReflTransGen.refl
    · exact hb.head ha
  | @above p b v hp hnone _ ih =>
    obtain ⟨a, ⟨child, ha, hbelow, hoffers⟩, hnearest⟩ := ih
    refine ⟨a, ⟨child, ha, hbelow.tail hp, hoffers⟩, ?_⟩
    intro a' u hcapture
    rcases hcapture.of_parentOf hp with ⟨-, hoffers'⟩ | hcapture
    · exact absurd hoffers' (hnone u)
    · exact hnearest a' u hcapture

theorem Captures.denotes (hw : w.InOrder) (h : w.Captures name a b v)
    (hnearest : ∀ a' u, w.Captures name a' b u → w.Below a' a) : w.Denotes name b v := by
  obtain ⟨child, ha, hb, hoffers⟩ := h
  induction hb with
  | refl => exact .here ha hoffers
  | @tail c d hbelow hp ih =>
    refine .above hp (fun u hu => ?_) (ih fun a' u hcapture => ?_)
    · -- a nearer one would stand both above and below
      have hback : w.Below c a := hnearest c u ⟨d, hp, ReflTransGen.refl, hu⟩
      exact hw.acyclic a ((TransGen.head' ha hbelow).trans_left hback)
    · obtain ⟨child', ha', hb', hoffers'⟩ := hcapture
      exact hnearest a' u ⟨child', ha', hb'.tail hp, hoffers'⟩

/-- A name denotes the declaration of the nearest block that captures it. -/
theorem denotes_iff (hw : w.InOrder) : w.Denotes name b v ↔
    ∃ a, w.Captures name a b v ∧ ∀ a' u, w.Captures name a' b u → w.Below a' a := by
  constructor
  · exact Denotes.exists_nearest
  · rintro ⟨a, hcapture, hnearest⟩
    exact hcapture.denotes hw hnearest

theorem Captures.exists_denotes (h : w.Captures name a b v) : ∃ u, w.Denotes name b u := by
  obtain ⟨child, ha, hb, hoffers⟩ := h
  induction hb with
  | refl => exact ⟨v, .here ha hoffers⟩
  | @tail c d _ hp ih =>
    by_cases hu : ∃ u, w.Offers name c d u
    · obtain ⟨u, hu⟩ := hu
      exact ⟨u, .here hp hu⟩
    · obtain ⟨u, hd⟩ := ih
      exact ⟨u, .above hp (fun u' h' => hu ⟨u', h'⟩) hd⟩

theorem Denotes.unique (h : w.Denotes name b u) (h' : w.Denotes name b v) : u = v := by
  induction h with
  | @here p b u hp hoffers =>
    cases h' with
    | here hp' hoffers' =>
      cases hp.unique hp'
      exact hoffers.unique hoffers'
    | above hp' hnone _ =>
      cases hp.unique hp'
      exact absurd hoffers (hnone u)
  | @above p b u hp hnone _ ih =>
    cases h' with
    | here hp' hoffers' =>
      cases hp.unique hp'
      exact absurd hoffers' (hnone v)
    | above hp' _ hd' =>
      cases hp.unique hp'
      exact ih hd'

/-- A name denotes at a child what its parent offers it under the name, and else what it denotes at
the parent. -/
theorem ParentOf.denotes_iff (hp : w.ParentOf p b) :
    w.Denotes name b v ↔ w.Offers name p b v ∨ (∀ u, ¬ w.Offers name p b u) ∧
    w.Denotes name p v := by
  constructor
  · intro hd
    cases hd with
    | here hp' hoffers =>
      cases hp.unique hp'
      exact .inl hoffers
    | above hp' hnone hd =>
      cases hp.unique hp'
      exact .inr ⟨hnone, hd⟩
  · rintro (hoffers | ⟨hnone, hd⟩)
    · exact .here hp hoffers
    · exact .above hp hnone hd

/-! ## In another place -/

/-- A name denotes a declaration at a block below `r`, if `r` stood where names mean what `outer`
says. -/
inductive DenotesFrom (w : Workspace) (r : BlockId) (outer : String → VariableId → Prop)
    (name : String) :
    BlockId → VariableId → Prop where
  | root {v : VariableId} (h : outer name v) : DenotesFrom w r outer name r v
  | here {p b : BlockId} {v : VariableId} (hr : w.Below r p) (hp : w.ParentOf p b)
      (h : w.Offers name p b v) : DenotesFrom w r outer name b v
  | above {p b : BlockId} {v : VariableId} (hr : w.Below r p) (hp : w.ParentOf p b)
      (h : ∀ u, ¬ w.Offers name p b u) (hd : DenotesFrom w r outer name p v) :
      DenotesFrom w r outer name b v

section From

variable {outer : String → VariableId → Prop}

theorem InOrder.denotesFrom_root (hw : w.InOrder) : w.DenotesFrom r outer name r v ↔
    outer name v := by
  constructor
  · intro hd
    cases hd with
    | root h => exact h
    | here hr hp _ | above hr hp _ _ => exact absurd (TransGen.tail' hr hp) (hw.acyclic r)
  · exact .root

theorem InOrder.denotesFrom_child (hw : w.InOrder) (hr : w.Below r p) (hp : w.ParentOf p b) :
    w.DenotesFrom r outer name b v ↔
      w.Offers name p b v ∨ (∀ u, ¬ w.Offers name p b u) ∧ w.DenotesFrom r outer name p v := by
  constructor
  · intro hd
    cases hd with
    | root _ => exact absurd (TransGen.tail' hr hp) (hw.acyclic _)
    | here _ hp' hoffers =>
      cases hp.unique hp'
      exact .inl hoffers
    | above _ hp' hnone hd =>
      cases hp.unique hp'
      exact .inr ⟨hnone, hd⟩
  · rintro (hoffers | ⟨hnone, hd⟩)
    · exact .here hr hp hoffers
    · exact .above hr hp hnone hd

/-- Where it stands, a tree sees what names denote there. -/
theorem InOrder.denotesFrom_iff_denotes (hw : w.InOrder)
    (houter : ∀ name v, outer name v ↔ w.Denotes name r v) (hb : w.Below r b) :
    w.DenotesFrom r outer name b v ↔ w.Denotes name b v := by
  induction hb generalizing v with
  | refl => rw [hw.denotesFrom_root, houter]
  | tail hr hp ih => rw [hw.denotesFrom_child hr hp, hp.denotes_iff, ih]

/-- A name denotes something in a tree if it does so in the tree or outside. -/
theorem InOrder.exists_denotesFrom_iff (hw : w.InOrder) (hroot : ∀ p, ¬ w.ParentOf p r)
    (hb : w.Below r b) :
    (∃ v, w.DenotesFrom r outer name b v) ↔ (∃ v, w.Denotes name b v) ∨ ∃ v, outer name v := by
  induction hb with
  | refl =>
    have hnone : ∀ v, ¬ w.Denotes name r v := by
      intro v hd
      cases hd with
      | here hp _ | above hp _ _ => exact hroot _ hp
    simp [hw.denotesFrom_root, hnone]
  | @tail p b hr hp ih =>
    simp only [hw.denotesFrom_child hr hp, hp.denotes_iff]
    by_cases hoffers : ∃ u, w.Offers name p b u
    · obtain ⟨u, hu⟩ := hoffers
      exact iff_of_true ⟨u, .inl hu⟩ (.inl ⟨u, .inl hu⟩)
    · have hnone : ∀ u, ¬ w.Offers name p b u := fun u hu => hoffers ⟨u, hu⟩
      simpa [hnone] using ih

end From

/-! ## Only the tree counts -/

/-- What a name denotes depends on the parents above a block and what they offer. -/
theorem Denotes.congr {T : BlockId → Prop} (hup : ∀ {p b}, T b → w.ParentOf p b → T p)
    (h : ∀ {p b}, T b → w.ParentOf p b →
      w'.ParentOf p b ∧ ∀ name v, w'.Offers name p b v ↔ w.Offers name p b v)
    (hd : w.Denotes name b v) (hb : T b) : w'.Denotes name b v := by
  induction hd with
  | here hp hoffers =>
    obtain ⟨hp', hsame⟩ := h hb hp
    exact .here hp' ((hsame name _).2 hoffers)
  | above hp hnone _ ih =>
    obtain ⟨hp', hsame⟩ := h hb hp
    exact .above hp' (fun u hu => hnone u ((hsame name u).1 hu)) (ih (hup hb hp))

theorem scope?_eq_some_iff {k : Kind} {input : String} : k.scope? = some input ↔
    k = .lambda ∧ input = "RETURN" ∨ k = .letIn ∧ input = "EXP2" := by
  cases k <;> simp [Kind.scope?, eq_comm]

theorem targetBlock?_eq_some_iff {c : ConnectionId} : w.targetBlock? c = .ok (some b) ↔
    ∃ j t j', w.skeleton.joint c = some j ∧ j.target = some t ∧ w.skeleton.joint t = some j' ∧
      j'.block = b := by
  simp only [targetBlock?, bind_eq_ok, getConnection_eq_ok]
  constructor
  · rintro ⟨connection, hc, h⟩
    split at h
    case h_1 t ht =>
      obtain ⟨other, ho, h⟩ := bind_eq_ok.1 h
      cases h
      exact ⟨_, t, _, joint_of_connection hc, ht, joint_of_connection (getConnection_eq_ok.1 ho),
        rfl⟩
    case h_2 => cases h
  · rintro ⟨j, t, j', hj, ht, hj', rfl⟩
    obtain ⟨connection, hc, rfl⟩ := joint_eq_some_iff.1 hj
    obtain ⟨other, ho, rfl⟩ := joint_eq_some_iff.1 hj'
    have ht' : connection.target = some t := ht
    refine ⟨connection, hc, ?_⟩
    simp [ht', getConnection_eq_ok.2 ho, Connection.joint]

theorem encloses_iff (hblock : w.blocks[p]? = some block) :
    w.Encloses p b ↔ ∃ input c, block.kind.scope? = some input ∧ block.socket? input = some c ∧
      w.targetBlock? c = .ok (some b) := by
  have htarget : ∀ name, w.inputTarget? p name = .ok (some b) ↔
      ∃ c, block.socket? name = some c ∧ w.targetBlock? c = .ok (some b) := by
    intro name
    simp only [inputTarget?, inputConnection?_eq hblock, ok_bind]
    cases block.socket? name <;> simp [occupant?]
  constructor
  · rintro ⟨block', hblock', hkind⟩
    cases hblock.symm.trans hblock'
    rcases hkind with ⟨hkind, hinput⟩ | ⟨hkind, hinput⟩
    · obtain ⟨c, hc, ht⟩ := (htarget _).1 hinput
      exact ⟨"RETURN", c, by rw [hkind]; rfl, hc, ht⟩
    · obtain ⟨c, hc, ht⟩ := (htarget _).1 hinput
      exact ⟨"EXP2", c, by rw [hkind]; rfl, hc, ht⟩
  · rintro ⟨input, c, hscope, hc, ht⟩
    refine ⟨block, hblock, ?_⟩
    rcases scope?_eq_some_iff.1 hscope with ⟨hkind, rfl⟩ | ⟨hkind, rfl⟩
    · exact .inl ⟨hkind, (htarget _).2 ⟨c, hc, ht⟩⟩
    · exact .inr ⟨hkind, (htarget _).2 ⟨c, hc, ht⟩⟩

theorem introduces_iff (hblock : w.blocks[p]? = some block) : w.Introduces p name v ↔
      ∃ found, block.own? = some v ∧ w.vars[v]? = some found ∧ found.name = name := by
  simp only [Introduces, ownVariable_eq_ok hblock]

/-- What a block offers depends on what it is made of, on what is plugged into it and on the name of
its variable. -/
theorem offers_congr {block' : Block} (hblock : w.blocks[p]? = some block)
    (hblock' : w'.blocks[p]? = some block') (hinnards : block'.innards = block.innards)
    (htarget : ∀ c ∈ block.inferiors,
      (w'.targetBlock? c = .ok (some b') ↔ w.targetBlock? c = .ok (some b)))
    (hname : ∀ v, block.own? = some v →
      w'.vars[v]?.map Variable.name = w.vars[v]?.map Variable.name) :
    w'.Offers name p b' v ↔ w.Offers name p b v := by
  have hfound : ∀ x : Workspace,
      (∃ found, block.own? = some v ∧ x.vars[v]? = some found ∧ found.name = name) ↔
        block.own? = some v ∧ x.vars[v]?.map Variable.name = some name := fun x => by
    simp only [Option.map_eq_some_iff, exists_and_left]
  rw [Offers, Offers, encloses_iff hblock, encloses_iff hblock', introduces_iff hblock,
    introduces_iff hblock', Block.kind_of_innards hinnards, Block.own?_of_innards hinnards,
    hfound, hfound]
  simp only [Block.socket?_of_innards hinnards]
  refine and_congr (exists_congr fun input => exists_congr fun c => and_congr_right fun _ =>
    and_congr_right fun hc => htarget c (Block.mem_inferiors_of_socket? hc)) ?_
  exact and_congr_right fun hown => by rw [hname v hown]

/-- Where nothing but joints differs, a block is offered what was offered in the place where it is
now. -/
theorem Rewires.offers_iff {A : BlockId → Prop} (h : Rewires A w w') (hw : w.InOrder)
    (hw' : w'.InOrder) (hplugs : ∀ c, w'.Plugs b' c ↔ w.Plugs b c) :
    w'.Offers name p b' v ↔ w.Offers name p b v := by
  cases hblock : w.blocks[p]? with
  | none =>
    have hnone : w'.blocks[p]? = none := by simpa [hblock] using h.innards.block p
    simp [Offers, Encloses, hblock, hnone]
  | some block =>
    obtain ⟨block', hblock', heq⟩ := h.innards.exists_block_after hblock
    refine offers_congr hblock hblock' heq (fun c hc => ?_) fun u _ => by rw [h.vars]
    rw [hw'.targetBlock?_eq_some_iff hblock' (Block.inferiors_of_innards heq ▸ hc),
      hw.targetBlock?_eq_some_iff hblock hc, hplugs]

/-- In a tree that is the same graph, blocks offer the same. -/
theorem Twins.offers_iff (h : Twins r w w') (hp : w.Below r p)
    (hblock : w.blocks[p]? = some block) : w'.Offers name p b v ↔ w.Offers name p b v := by
  obtain ⟨block', hblock', hinnards⟩ := h.exists_block hp hblock
  refine offers_congr hblock hblock' hinnards (fun c hc => ?_) fun v hown => ?_
  · rw [h.targetBlock?_eq hp hblock hc]
  · obtain ⟨old, hold, rfl, -⟩ := h.owned.var hblock hown
    obtain ⟨new, hnew, huntyped⟩ := h.exists_var hold hp
    rw [hold, hnew, Option.map_some, Option.map_some, Variable.name_of_untyped huntyped]

/-- No block stands above the root of a tree. -/
theorem not_parentOf_of_mem_top (hw : w.InOrder) (hr : r ∈ w.top) (p : BlockId) :
    ¬ w.ParentOf p r := by
  obtain ⟨block, hblock, hparent⟩ := (hw.structured.top.2 r).1 hr
  rintro ⟨block', hblock', hp⟩
  cases hblock.symm.trans hblock'
  rw [hparent] at hp
  cases hp

theorem Twins.denotes (h : Twins r w w') (hroot : ∀ p, ¬ w.ParentOf p r) (hb : w.Below r b)
    (hd : w.Denotes name b v) : w'.Denotes name b v := by
  have hup : ∀ {p b}, w.Below r b → w.ParentOf p b → w.Below r p := by
    intro p b hb hp
    rcases hb.of_parentOf hp with rfl | hb
    · exact absurd hp (hroot p)
    · exact hb
  refine Denotes.congr (T := w.Below r) hup (fun {p b} hb hp => ⟨?_, fun name v => ?_⟩) hd hb
  · obtain ⟨block, hblock, hparent⟩ := hp
    obtain ⟨block', hblock', heq⟩ := h.same.exists_block hb hblock
    have := congrArg Block.parent heq
    exact ⟨block', hblock', this.trans hparent⟩
  · obtain ⟨block, hblock⟩ := h.left.formed.related.live (parentOf_skeleton.2 hp)
    obtain ⟨above, habove, -⟩ := frame_eq_some_iff.1 hblock
    exact h.offers_iff (hup hb hp) habove

/-! ## Scoped trees -/

/-- A use is bound to what its name denotes where it stands. -/
def Resolved (w : Workspace) (v : VariableId) : Prop :=
  ∀ use, w.vars[v]? = some use → use.isReference = true →
    ∀ u, use.binding? = some u ↔ w.Denotes use.name use.block u

/-- Every use in a tree is bound to what its name denotes. -/
def Scoped (w : Workspace) (r : BlockId) : Prop :=
  ∀ v use, w.vars[v]? = some use → w.Below r use.block → w.Resolved v

/-- What a name denotes is declared by a block above. -/
theorem Denotes.exists_value (hw : w.Housed) (h : w.Denotes name b v) :
    ∃ value, w.vars[v]? = some value ∧ value.isReference = false ∧ value.name = name ∧
      TransGen w.ParentOf value.block b := by
  induction h with
  | @here p b v hp hoffers =>
    obtain ⟨⟨block, hblock, hkind⟩, hintroduces⟩ := hoffers
    obtain ⟨value, hown, hvalue, hname⟩ := (introduces_iff hblock).1 hintroduces
    obtain ⟨found, hfound, hholder, hreference⟩ := hw.var hblock hown
    cases hvalue.symm.trans hfound
    refine ⟨value, hvalue, ?_, hname, by rw [hholder]; exact TransGen.single hp⟩
    rw [← Bool.not_eq_true, hreference]
    rcases hkind with ⟨hkind, -⟩ | ⟨hkind, -⟩
    · rw [hkind]
      decide
    · rw [hkind]
      decide
  | above hp _ _ ih =>
    obtain ⟨value, hvalue, hdeclared, hname, habove⟩ := ih
    exact ⟨value, hvalue, hdeclared, hname, habove.tail hp⟩

theorem Below.of_transGen (hroot : ∀ p, ¬ w.ParentOf p r) (h : TransGen w.ParentOf a b)
    (hb : w.Below r b) : w.Below r a := by
  rcases hb.total h.to_reflTransGen with hra | har
  · exact hra
  · rcases har.cases_tail with rfl | ⟨p, -, hp⟩
    · exact ReflTransGen.refl
    · exact absurd hp (hroot p)

theorem Scoped.isLocal (h : w.Scoped r) (hw : w.Owned) (hroot : ∀ p, ¬ w.ParentOf p r) :
    w.Local r := by
  intro v u use huse hb hbinding
  have hreference : use.isReference = true := by
    unfold Variable.binding? at hbinding
    unfold Variable.isReference
    split at hbinding <;> simp_all
  have hd := (h v use huse hb use huse hreference u).1 hbinding
  obtain ⟨value, hvalue, hdeclared, -, habove⟩ := hd.exists_value hw.toHoused
  exact ⟨value, hvalue, hdeclared, .of_transGen hroot habove hb⟩

theorem Scoped.same (h : w.Scoped r) (htwins : Twins r w w') (hroot : ∀ p, ¬ w.ParentOf p r) :
    w'.Scoped r := by
  have hroot' : ∀ p, ¬ w'.ParentOf p r := by
    rintro p ⟨block', hblock', hp⟩
    obtain ⟨block, hblock, heq⟩ := htwins.symm.same.exists_block ReflTransGen.refl hblock'
    have := congrArg Block.parent heq
    exact hroot p ⟨block, hblock, this.trans hp⟩
  intro v use' huse' hb use hv hreference u
  cases huse'.symm.trans hv
  obtain ⟨old, hold, huntyped⟩ := htwins.symm.exists_var huse' hb
  have hblock : old.block = use'.block := Variable.block_of_untyped huntyped
  have hreference' : old.isReference = true :=
    (Variable.isReference_of_untyped huntyped).trans hreference
  have hb' : w.Below r old.block := by rw [hblock]; exact htwins.same.below.1 hb
  have hold' := h v old hold hb' old hold hreference' u
  rw [Variable.binding?_of_untyped huntyped, Variable.name_of_untyped huntyped, hblock] at hold'
  rw [hold']
  exact ⟨htwins.denotes hroot (hblock ▸ hb'), htwins.symm.denotes hroot' hb⟩

end BlockGraph.Workspace
