import BlockGraph.Proofs.Scope.Denotation

/-!
# Binding the uses of a tree

`Workspace.resolveReferences` walks down a tree, level by level, with the environment that each
block sees.  Main statement (`resolveReferences_spec`): from the root of a tree it binds every use
in the tree to what its name denotes, and changes nothing but bindings of the tree.

What names stand for at the blocks of a tree depends on where the tree is thought to stand, so the
walk is described for any relation `D` between names, blocks and declarations that passes from
parents to children as scopes do (`Workspace.Passes`).  `Workspace.Denotes` is such a relation, and
`Workspace.DenotesFrom`.

A field can be given a variable that another field holds already, so a use may stand in several
blocks.  The walk then binds it more than once, and the block that is visited last decides.
`Workspace.ReboundBy D S w w'` says what holds in any case: a use is bound as before, or to what its
name stands for at one of the blocks where `S` has it bound, and if there are such blocks, one of
them has decided.

The invariant of the walk is `Env.Gives`: the environment that goes with a block looks names up to
what they stand for there.  It passes from a block to its children because what a block offers a
child is what the walk adds to the environment (`InOrder.offers_iff`, `declaredAt_cases`).
-/

namespace BlockGraph

variable {b p : BlockId} {c : ConnectionId} {v : VariableId} {connection : Connection} {env : Env}
  {declared : List (String × VariableId)} {found : Variable}

open Relation

namespace Env

@[simp] theorem lookup?_empty (name : String) : empty.lookup? name = none := rfl

@[simp] theorem extend_nil (env : Env) : env.extend [] = env := rfl

theorem lookup?_extend_singleton (env : Env) (name : String) (v : VariableId) (x : String) :
    (env.extend [(name, v)]).lookup? x = if x = name then some v else env.lookup? x := by
  simp only [extend, Dict.ofList, List.foldl_cons, List.foldl_nil, Dict.put, lookup?,
    List.findSome?_cons, Dict.get?]
  split
  · next h =>
    split at h
    · next hx => rw [if_pos hx]; exact h.symm
    · cases h
  · next h =>
    split at h
    · cases h
    · next hx => rw [if_neg hx]

/-- Of declarations `D`, at most one, the environment comes to know, before all it knew. -/
theorem lookup?_extend_iff (env : Env) {D : String → VariableId → Prop}
    (h : (declared = [] ∧ ∀ name v, ¬ D name v) ∨
      ∃ name v, declared = [(name, v)] ∧ ∀ name' u, D name' u ↔ name' = name ∧ u = v)
    (name : String) (v : VariableId) :
    (env.extend declared).lookup? name = some v ↔
      D name v ∨ (∀ u, ¬ D name u) ∧ env.lookup? name = some v := by
  rcases h with ⟨rfl, hnone⟩ | ⟨name', v', rfl, hiff⟩
  · simp [hnone]
  · rw [lookup?_extend_singleton]
    simp only [hiff]
    split
    · next hname =>
      subst hname
      constructor
      · intro hv
        cases hv
        exact .inl ⟨rfl, rfl⟩
      · rintro (⟨-, rfl⟩ | ⟨hnone, -⟩)
        · rfl
        · exact absurd ⟨rfl, rfl⟩ (hnone v')
    · next hname => simp [hname]

/-- An environment looks names up to what they stand for at a block. -/
def Gives (env : Env) (D : String → BlockId → VariableId → Prop) (b : BlockId) : Prop :=
  ∀ name v, env.lookup? name = some v ↔ D name b v

end Env

namespace Variable

@[simp] theorem name_bindTo (v : Variable) (a : Option VariableId) :
    (v.bindTo a).name = v.name := by
  unfold bindTo
  split <;> rfl

@[simp] theorem block_bindTo (v : Variable) (a : Option VariableId) :
    (v.bindTo a).block = v.block := by
  unfold bindTo
  split <;> rfl

@[simp] theorem isReference_bindTo (v : Variable) (a : Option VariableId) :
    (v.bindTo a).isReference = v.isReference := by
  obtain ⟨name, block, role⟩ := v
  cases role <;> rfl

theorem binding?_bindTo {v : Variable} (h : v.isReference = true) (a : Option VariableId) :
    (v.bindTo a).binding? = a := by
  unfold isReference at h
  unfold bindTo binding?
  split at h
  · simp
  · cases h

theorem eq_of_bindTo {v v' : Variable} (h : v'.bindTo none = v.bindTo none)
    (hbinding : v'.binding? = v.binding?) : v' = v := by
  obtain ⟨name, block, role⟩ := v
  obtain ⟨name', block', role'⟩ := v'
  cases role <;> cases role' <;> simp_all [bindTo, binding?]

/-- A variable without its type and its binding. -/
def bare (v : Variable) : String × BlockId × Bool := (v.name, v.block, v.isReference)

theorem bare_bindTo (v : Variable) (target : Option VariableId) :
    (v.bindTo target).bare = v.bare := by
  simp [bare]

end Variable

namespace Workspace

variable {w w' w'' : Workspace} {r a : BlockId} {u : VariableId} {name : String}
  {A : BlockId → Prop} {S S' : VariableId → BlockId → Prop}
  {D : String → BlockId → VariableId → Prop} {block : Block} {all : Bool}
  {references : List (VariableId × String)} {depth : Nat} {below level : List (BlockId × Env)}

/-! ## What names denote -/

/-- A field of `b` holds `u`. -/
def HeldBy (w : Workspace) (u : VariableId) (b : BlockId) : Prop :=
  ∃ block, w.blocks[b]? = some block ∧ u ∈ block.vars

theorem Housed.exists_var (ho : w.Housed) (h : w.HeldBy v b) : ∃ found, w.vars[v]? = some found ∧
    found.block = b := by
  obtain ⟨block, hblock, hv⟩ := h
  rw [(ho.tidy hblock).vars, Option.mem_toList] at hv
  obtain ⟨found, hfound, hb, -⟩ := ho.var hblock hv
  exact ⟨found, hfound, hb⟩

theorem Housed.heldBy_iff (ho : w.Housed) (hv : w.vars[v]? = some found) :
    w.HeldBy v b ↔ found.block = b := by
  constructor
  · intro h
    obtain ⟨found', hfound, hb⟩ := ho.exists_var h
    cases hv.symm.trans hfound
    exact hb
  · rintro rfl
    obtain ⟨block, hblock, hown⟩ := ho.holder hv
    exact ⟨block, hblock, by simp [(ho.tidy hblock).vars, hown]⟩

/-- What a use is bound to. -/
def boundTo? (w : Workspace) (u : VariableId) : Option VariableId :=
  w.vars[u]?.bind Variable.binding?

/-- A use is bound to what its name stands for at `b`. -/
def BoundBy (w : Workspace) (D : String → BlockId → VariableId → Prop) (u : VariableId)
    (b : BlockId) : Prop :=
  ∀ use, w.vars[u]? = some use → use.isReference = true → ∀ v, use.binding? = some v ↔
    D use.name b v

/-- The name of every use in a block stands for something. -/
def Met (w : Workspace) (D : String → BlockId → VariableId → Prop) (b : BlockId) : Prop :=
  ∀ u use, w.HeldBy u b → w.vars[u]? = some use → use.isReference = true → ∃ v, D use.name b v

/-- A use is bound to what its name denotes at `b`. -/
def BoundAt (w : Workspace) (u : VariableId) (b : BlockId) : Prop := w.BoundBy w.Denotes u b

/-- Variables are what they were, but for types and bindings. -/
def KeepsBare (w w' : Workspace) : Prop :=
  ∀ v : VariableId, w'.vars[v]?.map Variable.bare = w.vars[v]?.map Variable.bare

theorem KeepsBare.exists_var (h : KeepsBare w w') {new : Variable} (hu : w'.vars[u]? = some new) :
    ∃ old, w.vars[u]? = some old ∧ new.name = old.name ∧ new.block = old.block ∧
      new.isReference = old.isReference := by
  obtain ⟨old, hold, hbare⟩ := exists_of_map_eq (h u).symm hu
  exact ⟨old, hold, (congrArg Prod.fst hbare).symm, (congrArg (·.2.1) hbare).symm,
    (congrArg (·.2.2) hbare).symm⟩

/-- Housing does not depend on types and bindings. -/
theorem Housed.of_bare (hw : w.Housed) (hblocks : w'.blocks = w.blocks)
    (hcount : w'.variableCount = w.variableCount) (hbare : KeepsBare w w') : w'.Housed where
  tidy hb := hw.tidy (hblocks ▸ hb)
  var hb hown := by
    obtain ⟨old, hold, hholder, hiff⟩ := hw.var (hblocks ▸ hb) hown
    obtain ⟨new, hnew, heq⟩ := exists_of_map_eq (hbare _) hold
    have hblock : new.block = old.block := congrArg (·.2.1) heq
    have hreference : new.isReference = old.isReference := congrArg (·.2.2) heq
    exact ⟨new, hnew, hblock.trans hholder, by rw [hreference, hiff]⟩
  holder hv := by
    obtain ⟨old, hold, -, hblock, -⟩ := hbare.exists_var hv
    rw [hblocks, hblock]
    exact hw.holder hold
  index hv := by
    obtain ⟨old, hold, -⟩ := hbare.exists_var hv
    rw [hcount]
    exact hw.index hold

theorem KeepsBare.symm (h : KeepsBare w w') : KeepsBare w' w := fun v => (h v).symm

section Congr

variable (hbare : KeepsBare w w') (hblocks : w'.blocks = w.blocks)
  (hjoint : w'.skeleton.joint = w.skeleton.joint)
include hbare hblocks hjoint

theorem offers_iff_of_bare : w'.Offers name p b v ↔ w.Offers name p b v := by
  cases hblock : w.blocks[p]? with
  | none => simp [Offers, Encloses, hblocks, hblock]
  | some block =>
    refine offers_congr hblock (by rw [hblocks, hblock]) rfl (fun c _ => ?_) fun u _ => ?_
    · simp only [targetBlock?_eq_some_iff, hjoint]
    · exact map_eq_of_map_eq (congrArg Prod.fst) (hbare u)

/-- Types and bindings apart, nothing that names depend on differs. -/
theorem denotes_iff_of_bare : w'.Denotes name b v ↔ w.Denotes name b v := by
  have hparent : ∀ {p b}, w'.ParentOf p b ↔ w.ParentOf p b := by
    intro p b
    rw [ParentOf, hblocks, ParentOf]
  constructor
  · exact fun h => h.congr (T := fun _ => True) (fun _ _ => trivial)
      (fun _ hp => ⟨hparent.1 hp, fun _ _ => (offers_iff_of_bare hbare hblocks hjoint).symm⟩)
      trivial
  · exact fun h => h.congr (T := fun _ => True) (fun _ _ => trivial)
      (fun _ hp => ⟨hparent.2 hp, fun _ _ => offers_iff_of_bare hbare hblocks hjoint⟩) trivial

end Congr

/-! ## Changes of bindings -/

namespace Binds

variable (h : Binds w w')
include h

theorem bare : KeepsBare w w' := fun v =>
  map_eq_of_map_eq (fun heq => by rw [← Variable.bare_bindTo, heq, Variable.bare_bindTo]) (h.var v)

theorem inOrder (hw : w.InOrder) : w'.InOrder := hw.keeps h.retouches.keeps

theorem housed (hw : w.Housed) : w'.Housed :=
  hw.of_bare (by rw [h.rest]) (by rw [h.rest]) h.bare

theorem owned (hw : w.Owned) (htyped : w.isTyped = true) : w'.Owned :=
  ⟨h.housed hw.toHoused, fun huntyped => by
    rw [h.rest] at huntyped
    cases huntyped.symm.trans htyped⟩

theorem denotes_iff : w'.Denotes name b v ↔ w.Denotes name b v :=
  denotes_iff_of_bare h.bare (by rw [h.rest]) (by rw [h.rest]; rfl)

theorem below_iff : w'.Below a b ↔ w.Below a b := by
  rw [h.rest]
  rfl

/-- A variable whose binding is the same is the same. -/
theorem var_eq (hv : w.vars[v]? = some found) (hsame : w'.boundTo? v = w.boundTo? v) :
    w'.vars[v]? = some found := by
  obtain ⟨new, hnew, heq⟩ := exists_of_map_eq (h.var v) hv
  rw [boundTo?, boundTo?, hnew, hv] at hsame
  rw [hnew, Variable.eq_of_bindTo heq hsame]

end Binds

/-- Nothing but the bindings of uses in blocks of `A` differs. -/
structure Rebinds (A : BlockId → Prop) (w w' : Workspace) : Prop extends Binds w w' where
  kept : ∀ {v : VariableId} {found : Variable}, w.vars[v]? = some found → ¬ A found.block →
    w'.vars[v]? = some found

theorem Rebinds.agreeOff (h : Rebinds A w w') : AgreeOff .all A w w' where
  options := by rw [h.rest]
  block _ := by rw [h.rest]
  connection hc _ := by rw [h.rest, hc]; rfl
  var hv hA := by rw [h.kept hv hA]; rfl
  top _ _ := by rw [h.rest]

/-! ## Environments -/

theorem gives_root (hroot : ∀ p, ¬ w.ParentOf p r) : Env.empty.Gives w.Denotes r := by
  intro name v
  constructor
  · intro h
    cases h
  · intro h
    cases h with
    | here hp _ | above hp _ _ => exact absurd hp (hroot _)

/-- Two sockets of one block hold different blocks. -/
theorem InOrder.targetBlock?_inj (hw : w.InOrder) {child : BlockId}
    (hblock : w.blocks[b]? = some block) {d : ConnectionId} (hc : c ∈ block.inferiors)
    (hd : d ∈ block.inferiors) (htc : w.targetBlock? c = .ok (some child))
    (htd : w.targetBlock? d = .ok (some child)) : c = d :=
  ((hw.targetBlock?_eq_some_iff hblock hc).1 htc).unique hw.formed
    ((hw.targetBlock?_eq_some_iff hblock hd).1 htd)

/-- The owner of a connection declares its variable into the connection, under a name. -/
def DeclaresInto (w : Workspace) (c : ConnectionId) (name : String) (v : VariableId) : Prop :=
  ∃ connection block input, w.connections[c]? = some connection ∧
    w.blocks[connection.block]? = some block ∧ block.kind.scope? = some input ∧
    block.socket? input = some c ∧ w.Introduces connection.block name v

theorem declaresInto_iff (hc : w.connections[c]? = some connection)
    (hblock : w.blocks[connection.block]? = some block) :
    w.DeclaresInto c name v ↔
      (∃ input, block.kind.scope? = some input ∧ block.socket? input = some c) ∧
      w.Introduces connection.block name v := by
  constructor
  · rintro ⟨connection', block', input, hc', hblock', hscope, hsocket, hname⟩
    cases hc.symm.trans hc'
    cases hblock.symm.trans hblock'
    exact ⟨⟨input, hscope, hsocket⟩, hname⟩
  · rintro ⟨⟨input, hscope, hsocket⟩, hname⟩
    exact ⟨connection, block, input, hc, hblock, hscope, hsocket, hname⟩

/-- What a block offers a child is what it declares into the socket of the child. -/
theorem InOrder.offers_iff (hw : w.InOrder) {child : BlockId} (hblock : w.blocks[b]? = some block)
    (hc : c ∈ block.inferiors)
    (ht : w.targetBlock? c = .ok (some child)) : w.Offers name b child v ↔
    w.DeclaresInto c name v := by
  obtain ⟨j, hj, hb, -⟩ := (hw.mem_inferiors hblock).1 hc
  obtain ⟨connection, hconnection, rfl⟩ := joint_eq_some_iff.1 hj
  have hb : connection.block = b := hb
  subst hb
  rw [declaresInto_iff hconnection hblock, Offers, encloses_iff hblock]
  refine and_congr_left fun _ => ?_
  constructor
  · rintro ⟨input, d, hscope, hd, htd⟩
    rw [hw.targetBlock?_inj hblock (Block.mem_inferiors_of_socket? hd) hc htd ht] at hd
    exact ⟨input, hscope, hd⟩
  · rintro ⟨input, hscope, hsocket⟩
    exact ⟨input, c, hscope, hsocket, ht⟩

/-- What a walk adds to the environment at a connection is what the owner declares into it. -/
theorem declaredAt_cases (hc : w.connections[c]? = some connection)
    (hblock : w.blocks[connection.block]? = some block) (h : w.declaredAt c = .ok declared) :
    (declared = [] ∧ ∀ name v, ¬ w.DeclaresInto c name v) ∨ ∃ name v, declared = [(name, v)] ∧
        ∀ name' u, w.DeclaresInto c name' u ↔ name' = name ∧ u = v := by
  simp only [declaredAt, getConnection_eq_ok.2 hc, ok_bind, getBlock_eq_ok.2 hblock] at h
  simp only [declaresInto_iff hc hblock]
  split at h
  · rename_i input hscope
    simp only [inputConnection?_eq hblock, ok_bind] at h
    split at h
    · next hsocket =>
      simp only [bind_eq_ok, getVariable_eq_ok] at h
      obtain ⟨v, hv, found, hfound, h⟩ := h
      cases h
      refine .inr ⟨found.name, v, rfl, fun name' u => ?_⟩
      constructor
      · rintro ⟨-, other, hu, hother, rfl⟩
        cases hv.symm.trans hu
        cases hfound.symm.trans hother
        exact ⟨rfl, rfl⟩
      · rintro ⟨rfl, rfl⟩
        exact ⟨⟨input, hscope, hsocket⟩, found, hv, hfound, rfl⟩
    · next hsocket =>
      cases h
      refine .inl ⟨rfl, ?_⟩
      rintro name v ⟨⟨input', hscope', hsocket'⟩, -⟩
      cases hscope.symm.trans hscope'
      exact hsocket hsocket'
  · rename_i hscope
    cases h
    refine .inl ⟨rfl, ?_⟩
    rintro name v ⟨⟨input, hscope', -⟩, -⟩
    rw [hscope] at hscope'
    cases hscope'

/-- A name stands at a child for what its parent offers it under the name, and else for what it
stands for at the parent. -/
def Passes (w : Workspace) (D : String → BlockId → VariableId → Prop) (p b : BlockId) : Prop :=
  ∀ name v, D name b v ↔ w.Offers name p b v ∨ (∀ u, ¬ w.Offers name p b u) ∧ D name p v

theorem InOrder.gives_child (hw : w.InOrder) {child : BlockId} (h : env.Gives D b)
    (hblock : w.blocks[b]? = some block) (hc : c ∈ block.inferiors)
    (ht : w.targetBlock? c = .ok (some child)) (hD : w.Passes D b child)
    (hd : w.declaredAt c = .ok declared) : (env.extend declared).Gives D child := by
  obtain ⟨j, hj, hb, -⟩ := (hw.mem_inferiors hblock).1 hc
  obtain ⟨connection, hconnection, rfl⟩ := joint_eq_some_iff.1 hj
  have hb : connection.block = b := hb
  intro name v
  rw [Env.lookup?_extend_iff env (declaredAt_cases hconnection (by rw [hb]; exact hblock) hd),
    h name v, hD name v]
  simp only [← hw.offers_iff hblock hc ht]

/-! ## One block -/

/-- The uses among some variables, with their names. -/
theorem mem_referencesAmong {vs : List VariableId} :
    ∀ {references : List (VariableId × String)}, w.referencesAmong vs = .ok references → ∀ {u name},
      (u, name) ∈ references ↔
        u ∈ vs ∧ ∃ use, w.vars[u]? = some use ∧ use.isReference = true ∧ use.name = name := by
  induction vs with
  | nil =>
    intro references h
    cases h
    simp
  | cons v vs ih =>
    intro references h u name
    simp only [referencesAmong, bind_eq_ok, getVariable_eq_ok] at h
    obtain ⟨found, hfound, rest, hrest, h⟩ := h
    cases h
    have hrest := @ih rest hrest u name
    split <;> grind

/-! ## Levels -/

/-- Names stand, in and below a block, for what their parents pass on. -/
def PassesBelow (w : Workspace) (D : String → BlockId → VariableId → Prop) (r : BlockId) : Prop :=
  ∀ b child, w.Below r b → w.ParentOf b child → w.Passes D b child

theorem PassesBelow.child (h : w.PassesBelow D r) (hp : w.ParentOf r b) : w.PassesBelow D b :=
  fun a child ha hchild => h a child (ha.head hp) hchild

theorem passesBelow_denotes (w : Workspace) (r : BlockId) : w.PassesBelow w.Denotes r :=
  fun _ _ _ hchild _ _ => hchild.denotes_iff

theorem InOrder.passesBelow_denotesFrom (hw : w.InOrder) (outer : String → VariableId → Prop) :
    w.PassesBelow (w.DenotesFrom r outer) r :=
  fun _ _ hr hp _ _ => hw.denotesFrom_child hr hp

/-- A block of a level comes with the environment that it sees, and names pass down from it. -/
structure Seen (D : String → BlockId → VariableId → Prop) (w : Workspace) (p : BlockId × Env) :
    Prop where
  live : ∃ block, w.blocks[p.1]? = some block
  passes : w.PassesBelow D p.1
  gives : p.2.Gives D p.1

/-- What a walk hands on from a level: the children of its blocks, each with the environment that it
sees. -/
structure HandsOn (D : String → BlockId → VariableId → Prop) (w : Workspace)
    (level below : List (BlockId × Env)) :
    Prop where
  gives : ∀ q ∈ below, q.2.Gives D q.1
  parent : ∀ q ∈ below, ∃ p ∈ level, w.ParentOf p.1 q.1
  child : ∀ p ∈ level, ∀ b, w.ParentOf p.1 b → ∃ q ∈ below, q.1 = b

namespace HandsOn

variable {level level' below below' : List (BlockId × Env)}

theorem append (h : HandsOn D w level below) (h' : HandsOn D w level' below') :
    HandsOn D w (level ++ level') (below ++ below') where
  gives q hq := (List.mem_append.1 hq).elim (h.gives q) (h'.gives q)
  parent q hq := by
    rcases List.mem_append.1 hq with hq | hq
    · obtain ⟨p, hp, hparent⟩ := h.parent q hq
      exact ⟨p, List.mem_append_left _ hp, hparent⟩
    · obtain ⟨p, hp, hparent⟩ := h'.parent q hq
      exact ⟨p, List.mem_append_right _ hp, hparent⟩
  child p hp b hb := by
    rcases List.mem_append.1 hp with hp | hp
    · obtain ⟨q, hq, heq⟩ := h.child p hp b hb
      exact ⟨q, List.mem_append_left _ hq, heq⟩
    · obtain ⟨q, hq, heq⟩ := h'.child p hp b hb
      exact ⟨q, List.mem_append_right _ hq, heq⟩

variable (h : HandsOn D w level below)
include h

theorem seen (hlevel : ∀ p ∈ level, Seen D w p) : ∀ q ∈ below, Seen D w q := by
  intro q hq
  obtain ⟨p, hp, hparent⟩ := h.parent q hq
  obtain ⟨block, hblock, -⟩ := id hparent
  exact ⟨⟨block, hblock⟩, (hlevel p hp).passes.child hparent, h.gives q hq⟩

/-- Every level has fewer levels below it than the one above. -/
theorem shallow (hw : w.InOrder)
    (hdepth : ∀ p ∈ level, reachCount w.ParentOf w.liveBlocks p.1 < depth + 1) :
    ∀ q ∈ below, reachCount w.ParentOf w.liveBlocks q.1 < depth := by
  intro q hq
  obtain ⟨p, hp, hparent⟩ := h.parent q hq
  have hfewer := hw.reachCount_lt_of_parentOf hparent
  have := hdepth p hp
  omega

/-- What is below a level is in it, or below what is handed on. -/
theorem exists_below_iff : (∃ p ∈ level, w.Below p.1 b) ↔ (∃ p ∈ level, p.1 = b) ∨
    ∃ q ∈ below, w.Below q.1 b := by
  constructor
  · rintro ⟨p, hp, hb⟩
    rcases hb.cases_head with heq | ⟨child, hchild, hb⟩
    · exact .inl ⟨p, hp, heq⟩
    · obtain ⟨q, hq, rfl⟩ := h.child p hp child hchild
      exact .inr ⟨q, hq, hb⟩
  · rintro (⟨p, hp, rfl⟩ | ⟨q, hq, hb⟩)
    · exact ⟨p, hp, .refl⟩
    · obtain ⟨p, hp, hparent⟩ := h.parent q hq
      exact ⟨p, hp, hb.head hparent⟩

end HandsOn

/-- The children of a block come with the environments they see. -/
theorem Seen.handsOn (hw : w.InOrder) (hseen : Seen D w (b, env))
    (h : w.childEnvs b env = .ok below) : HandsOn D w [(b, env)] below := by
  obtain ⟨block, hblock⟩ := hseen.live
  obtain ⟨ids, hids, -, hmem⟩ := hw.exists_children hblock
  simp only [childEnvs, children, getBlock_eq_ok.2 hblock, ok_bind] at h hids
  have hwalk : ∀ cs : List ConnectionId, (∀ c ∈ cs, c ∈ block.inferiors) →
      ∀ {ids : List BlockId} {below : List (BlockId × Env)}, w.targetBlocks cs = .ok ids →
        (∀ x ∈ ids, w.ParentOf b x) → w.envsBelow env cs = .ok below →
        (∀ q ∈ below, q.2.Gives D q.1) ∧ below.map Prod.fst = ids := by
    intro cs
    induction cs with
    | nil =>
      intro _ ids below hids _ h
      cases hids
      cases h
      simp
    | cons c cs ih =>
      intro hcs ids below hids hchildren h
      simp only [targetBlocks, bind_eq_ok] at hids
      obtain ⟨child, hchild, rest, hrest, hids⟩ := hids
      cases hids
      simp only [envsBelow, hchild, ok_bind] at h
      cases child with
      | none => exact ih (fun d hd => hcs d (List.mem_cons_of_mem c hd)) hrest hchildren h
      | some child =>
        simp only [bind_eq_ok] at h
        obtain ⟨declared, hdeclared, more, hmore, h⟩ := h
        cases h
        obtain ⟨hgives', hmap⟩ := ih (fun d hd => hcs d (List.mem_cons_of_mem c hd)) hrest
          (fun x hx => hchildren x (List.mem_append_right _ hx)) hmore
        have hp : w.ParentOf b child := hchildren child (by simp)
        refine ⟨fun q hq => ?_, by simp [hmap]⟩
        rcases List.mem_cons.1 hq with rfl | hq
        · exact hw.gives_child hseen.gives hblock (hcs c List.mem_cons_self) hchild
            (hseen.passes b child .refl hp) hdeclared
        · exact hgives' q hq
  obtain ⟨hgives', hmap⟩ := hwalk block.inferiors (fun _ => id) hids (fun x hx => (hmem x).1 hx) h
  refine ⟨hgives', fun q hq => ⟨(b, env), List.mem_singleton_self _, (hmem q.1).1 ?_⟩,
    fun p hp child hchild => ?_⟩
  · rw [← hmap]
    exact List.mem_map_of_mem hq
  · obtain rfl := List.mem_singleton.1 hp
    have := (hmem child).2 hchild
    rw [← hmap] at this
    exact List.mem_map.1 this

/-! ## Bindings that are decided anew -/

/-- Nothing but types and bindings differs.  A binding differs only if it was decided at a block
where `S` has the use, and if there is such a block it was decided at one. -/
structure ReboundBy (D : String → BlockId → VariableId → Prop) (S : VariableId → BlockId → Prop)
    (w w' : Workspace) : Prop where
  blocks : w'.blocks = w.blocks
  skeleton : w'.skeleton = w.skeleton
  bare : KeepsBare w w'
  kept : ∀ u, w'.boundTo? u = w.boundTo? u ∨ ∃ b, S u b ∧ w'.BoundBy D u b
  decided : ∀ {u b}, S u b → ∃ b', S u b' ∧ w'.BoundBy D u b'

namespace ReboundBy

section

variable (h : ReboundBy D S w w')
include h

theorem denotes_iff : w'.Denotes name b v ↔ w.Denotes name b v :=
  denotes_iff_of_bare h.bare h.blocks (congrArg Skeleton.joint h.skeleton)

theorem passes_iff {E : String → BlockId → VariableId → Prop} :
    w'.Passes E p b ↔ w.Passes E p b := by
  simp only [Passes, offers_iff_of_bare h.bare h.blocks (congrArg Skeleton.joint h.skeleton)]

theorem heldBy_iff : w'.HeldBy u b ↔ w.HeldBy u b := by
  rw [HeldBy, h.blocks, HeldBy]

theorem parentOf_iff : w'.ParentOf p b ↔ w.ParentOf p b := by
  rw [ParentOf, h.blocks, ParentOf]

theorem parentOf_eq : w'.ParentOf = w.ParentOf :=
  funext fun _ => funext fun _ => propext h.parentOf_iff

theorem below_iff : w'.Below a b ↔ w.Below a b := by
  rw [Below, Below, h.parentOf_eq]

theorem reachCount_eq :
    reachCount w'.ParentOf w'.liveBlocks b = reachCount w.ParentOf w.liveBlocks b := by
  rw [h.parentOf_eq, liveBlocks, blockIds, h.blocks, liveBlocks, blockIds]

theorem seen {p : BlockId × Env} (hp : Seen D w p) : Seen D w' p where
  live := by rw [h.blocks]; exact hp.live
  passes b child hb hchild :=
    h.passes_iff.2 (hp.passes b child (h.below_iff.1 hb) (h.parentOf_iff.1 hchild))
  gives := hp.gives

theorem handsOn (hbelow : HandsOn D w' level below) : HandsOn D w level below :=
  ⟨hbelow.gives, h.parentOf_eq ▸ hbelow.parent, h.parentOf_eq ▸ hbelow.child⟩

theorem met_iff : w'.Met D b ↔ w.Met D b := by
  constructor
  · intro hmet u use hu huse href
    obtain ⟨new, hnew, hname, -, href'⟩ := h.bare.symm.exists_var huse
    rw [hname]
    exact hmet u new (h.heldBy_iff.2 hu) hnew (href'.symm.trans href)
  · intro hmet u use hu huse href
    obtain ⟨old, hold, hname, -, href'⟩ := h.bare.exists_var huse
    rw [hname]
    exact hmet u old (h.heldBy_iff.1 hu) hold (href'.symm.trans href)

/-- A use that is bound as before is still bound to what its name stands for. -/
theorem boundBy (hsame : w'.boundTo? u = w.boundTo? u) (hu : w.BoundBy D u b) :
    w'.BoundBy D u b := by
  intro use huse href v
  obtain ⟨old, hold, hname, -, href'⟩ := h.bare.exists_var huse
  have hbinding : use.binding? = old.binding? := by
    simpa only [boundTo?, huse, hold, Option.bind_some] using hsame
  rw [hbinding, hname]
  exact hu old hold (href'.symm.trans href) v

theorem trans (h' : ReboundBy D S' w' w'') : ReboundBy D (fun u b => S u b ∨ S' u b) w w'' where
  blocks := h'.blocks.trans h.blocks
  skeleton := h'.skeleton.trans h.skeleton
  bare v := (h'.bare v).trans (h.bare v)
  kept u := by
    rcases h'.kept u with hsame' | ⟨b, hb, hbound⟩
    · rcases h.kept u with hsame | ⟨b, hb, hbound⟩
      · exact .inl (hsame'.trans hsame)
      · exact .inr ⟨b, .inl hb, h'.boundBy hsame' hbound⟩
    · exact .inr ⟨b, .inr hb, hbound⟩
  decided {u b} hb := by
    rcases h'.kept u with hsame' | ⟨b', hb', hbound⟩
    · rcases hb with hb | hb
      · obtain ⟨b', hb', hbound⟩ := h.decided hb
        exact ⟨b', .inl hb', h'.boundBy hsame' hbound⟩
      · obtain ⟨b', hb', hbound⟩ := h'.decided hb
        exact ⟨b', .inr hb', hbound⟩
    · exact ⟨b', .inr hb', hbound⟩

/-- Declarations may be added, as they are never bound. -/
theorem widen (hS : ∀ {u b}, S u b → S' u b)
    (hnew : ∀ {u b}, S' u b → ¬ S u b → ∀ use, w.vars[u]? = some use → use.isReference = false) :
    ReboundBy D S' w w' where
  blocks := h.blocks
  skeleton := h.skeleton
  bare := h.bare
  kept u := (h.kept u).imp_right fun ⟨b, hb, hbound⟩ => ⟨b, hS hb, hbound⟩
  decided {u b} hb := by
    by_cases hold : S u b
    · obtain ⟨b', hb', hbound⟩ := h.decided hold
      exact ⟨b', hS hb', hbound⟩
    · refine ⟨b, hb, fun use huse href => ?_⟩
      obtain ⟨old, hu, -, -, href'⟩ := h.bare.exists_var huse
      rw [href', hnew hb hold old hu] at href
      cases href

theorem congr (hS : ∀ u b, S u b ↔ S' u b) : ReboundBy D S' w w' := by
  have heq : S = S' := funext fun u => funext fun b => propext (hS u b)
  exact heq ▸ h

end

theorem refl (D : String → BlockId → VariableId → Prop) (w : Workspace) :
    ReboundBy D (fun _ _ => False) w w :=
  ⟨rfl, rfl, fun _ => rfl, fun _ => .inl rfl, False.elim⟩

/-- If no two fields share a variable, then a use is bound to what its name stands for in its own
block. -/
theorem spec (h : ReboundBy D (fun u b => w.HeldBy u b ∧ w.Below r b) w w') (ho : w.Housed)
    (hbinds : Binds w w') :
    Rebinds (w.Below r) w w' ∧ ∀ v use, w'.vars[v]? = some use → w.Below r use.block →
      w'.BoundBy D v use.block := by
  refine ⟨⟨hbinds, fun {v found} hv hA => ?_⟩, fun v use huse hb => ?_⟩
  · rcases h.kept v with hsame | ⟨b, ⟨hheld, hb⟩, -⟩
    · exact hbinds.var_eq hv hsame
    · exact absurd ((ho.heldBy_iff hv).1 hheld ▸ hb) hA
  · obtain ⟨old, hold, -, hblock, -⟩ := h.bare.exists_var huse
    obtain ⟨b, ⟨hheld, -⟩, hbound⟩ := h.decided ⟨(ho.heldBy_iff hold).2 rfl, hblock ▸ hb⟩
    rw [hblock, (ho.heldBy_iff hold).1 hheld]
    exact hbound

end ReboundBy

/-- Bindings are decided anew by what names denote. -/
abbrev Rebound (S : VariableId → BlockId → Prop) (w w' : Workspace) : Prop :=
  ReboundBy w.Denotes S w w'

namespace Rebound

theorem denotes_eq (h : Rebound S w w') : w'.Denotes = w.Denotes :=
  funext fun _ => funext fun _ => funext fun _ => propext h.denotes_iff

theorem kept (h : Rebound S w w') (u : VariableId) : w'.boundTo? u = w.boundTo? u ∨ ∃ b, S u b ∧
    w'.BoundAt u b := by
  refine (ReboundBy.kept h u).imp_right fun hdecided => ?_
  obtain ⟨b, hb, hbound⟩ := hdecided
  exact ⟨b, hb, by rwa [BoundAt, h.denotes_eq]⟩

theorem decided (h : Rebound S w w') (hb : S u b) : ∃ b', S u b' ∧ w'.BoundAt u b' := by
  obtain ⟨b', hb', hbound⟩ := ReboundBy.decided h hb
  exact ⟨b', hb', by rwa [BoundAt, h.denotes_eq]⟩

theorem trans (h : Rebound S w w') (h' : Rebound S' w' w'') :
    Rebound (fun u b => S u b ∨ S' u b) w w'' :=
  ReboundBy.trans h (h.denotes_eq ▸ h')

theorem refl (w : Workspace) : Rebound (fun _ _ => False) w w := ReboundBy.refl w.Denotes w

end Rebound

/-- One use is bound to what the environment of a block says of its name. -/
theorem rebound_bindVariable (hgives : env.Gives D b) (hu : w.vars[u]? = some found)
    (h : w.modifyVariable u (·.bindTo (env.lookup? found.name)) = .ok w') :
    ReboundBy D (fun x y => x = u ∧ y = b) w w' := by
  obtain ⟨found', hu', rfl⟩ := modifyVariable_eq_ok.1 h
  cases hu.symm.trans hu'
  have hbound : BoundBy { w with vars := w.vars.insert u (found.bindTo (env.lookup? found.name)) }
      D u b := by
    intro use huse href v
    simp only [getElem?_insert_eq, if_true, Option.some.injEq] at huse
    subst huse
    rw [Variable.isReference_bindTo] at href
    rw [Variable.binding?_bindTo href, Variable.name_bindTo]
    exact hgives found.name v
  refine ⟨rfl, rfl, congr_getElem?_insert (Option.map Variable.bare) ?_, fun x => ?_, ?_⟩
  · rw [hu, Option.map_some, Option.map_some, Variable.bare_bindTo]
  · by_cases hx : x = u
    · exact .inr ⟨b, ⟨hx, rfl⟩, hx ▸ hbound⟩
    · refine .inl ?_
      simp only [boundTo?, getElem?_insert_eq, if_neg hx]
  · rintro x y ⟨rfl, rfl⟩
    exact ⟨y, ⟨rfl, rfl⟩, hbound⟩

theorem rebound_bindReferences (hgives : env.Gives D b) :
    ∀ {w w' : Workspace} {all : Bool},
      (∀ p ∈ references, ∃ found, w.vars[p.1]? = some found ∧ found.name = p.2) →
      w.bindReferences env references = .ok (all, w') →
      ReboundBy D (fun x y => y = b ∧ ∃ p ∈ references, p.1 = x) w w' := by
  induction references with
  | nil =>
    intro w w' all _ h
    cases h
    exact (ReboundBy.refl D w).congr (by simp)
  | cons p rest ih =>
    intro w w' all hnames h
    obtain ⟨found, hfound, hname⟩ := hnames p List.mem_cons_self
    simp only [bindReferences, bind_eq_ok] at h
    obtain ⟨w1, hw1, ⟨all', w2⟩, hw2, h⟩ := h
    cases h
    rw [← hname] at hw1
    have hone := rebound_bindVariable hgives hfound hw1
    have hmore := ih (fun q hq => by
      obtain ⟨other, hother, hname'⟩ := hnames q (List.mem_cons_of_mem p hq)
      obtain ⟨new, hnew, heq, -⟩ := hone.bare.symm.exists_var hother
      exact ⟨new, hnew, heq.symm.trans hname'⟩) hw2
    refine (hone.trans hmore).congr fun x y => ?_
    simp only [List.mem_cons, exists_eq_or_imp, eq_comm (a := p.1)]
    tauto

/-- Uses are all bound exactly if none of them names nothing. -/
theorem all_of_bindReferences :
    ∀ {w w' : Workspace} {all : Bool}, w.bindReferences env references = .ok (all, w') →
      all = !references.any fun reference => (env.lookup? reference.2).isNone := by
  induction references with
  | nil =>
    intro w w' all h
    cases h
    rfl
  | cons p rest ih =>
    intro w w' all h
    simp only [bindReferences, bind_eq_ok] at h
    obtain ⟨w1, -, ⟨all', w2⟩, hrest, h⟩ := h
    cases h
    rw [ih hrest, List.any_cons, Bool.not_or]
    cases env.lookup? p.2 <;> rfl

/-- Binding the uses of one block decides them, and tells whether all of them name something. -/
theorem rebound_block (hgives : env.Gives D b) (hblock : w.blocks[b]? = some block)
    (hreferences : w.referencesAmong block.vars = .ok references)
    (h : w.bindReferences env references = .ok (all, w')) :
    ReboundBy D (fun u x => w.HeldBy u x ∧ x = b) w w' ∧ (all = true ↔ w.Met D b) := by
  have hmem : ∀ {u name}, (u, name) ∈ references ↔
      w.HeldBy u b ∧ ∃ use, w.vars[u]? = some use ∧ use.isReference = true ∧ use.name = name := by
    intro u name
    rw [mem_referencesAmong hreferences]
    simp [HeldBy, hblock]
  constructor
  · refine (rebound_bindReferences hgives (fun p hp => ?_) h).widen ?_ ?_
    · obtain ⟨-, use, huse, -, hname⟩ := hmem.1 hp
      exact ⟨use, huse, hname⟩
    · rintro u x ⟨rfl, p, hp, rfl⟩
      exact ⟨(hmem.1 hp).1, rfl⟩
    · -- what the block holds and does not bind is a declaration
      rintro u x ⟨hu, rfl⟩ hnot use huse
      exact Bool.eq_false_iff.2 fun href => hnot ⟨rfl, _, hmem.2 ⟨hu, use, huse, href, rfl⟩, rfl⟩
  · rw [all_of_bindReferences h, Bool.not_eq_true', List.any_eq_false]
    simp only [Option.isNone_iff_eq_none, ← Option.isSome_iff_ne_none, Option.isSome_iff_exists,
      hgives _ _]
    constructor
    · exact fun hall u use hu huse href => hall (u, use.name) (hmem.2 ⟨hu, use, huse, href, rfl⟩)
    · rintro hmet ⟨u, name⟩ hp
      obtain ⟨hu, use, huse, href, rfl⟩ := hmem.1 hp
      exact hmet u use hu huse href

/-- Binding one level decides the uses in its blocks, and hands on the blocks below with what they
see. -/
theorem rebound_bindLevel :
    ∀ {w w' : Workspace} {all : Bool} {below : List (BlockId × Env)}, w.InOrder →
      (∀ p ∈ level, Seen D w p) → w.bindLevel level = .ok (all, below, w') →
      ReboundBy D (fun u b => w.HeldBy u b ∧ ∃ p ∈ level, p.1 = b) w w' ∧ HandsOn D w level below ∧
        (all = true ↔ ∀ p ∈ level, w.Met D p.1) := by
  induction level with
  | nil =>
    intro w w' all below hw _ h
    cases h
    exact ⟨(ReboundBy.refl D w).congr (by simp), ⟨by simp, by simp, by simp⟩, by simp⟩
  | cons p rest ih =>
    intro w w' all below hw hlevel h
    obtain ⟨b, env⟩ := p
    obtain ⟨hseen, hrest⟩ := List.forall_mem_cons.1 hlevel
    simp only [bindLevel, referencesOf, bind_eq_ok, getBlock_eq_ok] at h
    obtain ⟨references, ⟨block, hblock, hreferences⟩, ⟨here, w1⟩, hw1, children, hchildren,
      ⟨others, more, w2⟩, hw2, h⟩ := h
    cases h
    obtain ⟨hone, hhere⟩ := rebound_block hseen.gives hblock hreferences hw1
    have hw1order := (binds_bindReferences hw1).inOrder hw
    obtain ⟨hmore, hbelow, hothers⟩ := ih hw1order (fun q hq => hone.seen (hrest q hq)) hw2
    refine ⟨(hone.trans hmore).congr fun u x => ?_,
      hone.handsOn (((hone.seen hseen).handsOn hw1order hchildren).append hbelow), ?_⟩
    · simp only [hone.heldBy_iff, List.mem_cons, exists_eq_or_imp, eq_comm (a := b)]
      tauto
    · rw [Bool.and_eq_true, hhere, hothers, List.forall_mem_cons]
      simp only [hone.met_iff]

/-- Binding level by level decides every use in and below the first level. -/
theorem rebound_bindLevels :
    ∀ {w w' : Workspace} {level : List (BlockId × Env)} {all : Bool}, w.InOrder →
      (∀ p ∈ level, Seen D w p) → (∀ p ∈ level, reachCount w.ParentOf w.liveBlocks p.1 < depth) →
      w.bindLevels depth level = .ok (all, w') →
        ReboundBy D (fun u b => w.HeldBy u b ∧ ∃ p ∈ level, w.Below p.1 b) w w' ∧
        (all = true ↔ ∀ b, (∃ p ∈ level, w.Below p.1 b) → w.Met D b) := by
  induction depth with
  | zero =>
    intro w w' level all _ _ hdepth h
    cases h
    have hempty : level = [] := List.eq_nil_iff_forall_not_mem.2 fun p hp =>
      Nat.not_lt_zero _ (hdepth p hp)
    exact ⟨(ReboundBy.refl D w).congr (by simp [hempty]), by simp [hempty]⟩
  | succ depth ih =>
    intro w w' level all hw hlevel hdepth h
    unfold bindLevels at h
    split at h
    · next hempty =>
      cases h
      exact ⟨(ReboundBy.refl D w).congr (by simp [List.isEmpty_iff.1 hempty]),
        by simp [List.isEmpty_iff.1 hempty]⟩
    · simp only [bind_eq_ok] at h
      obtain ⟨⟨here, below, w1⟩, hw1, ⟨others, w2⟩, hw2, h⟩ := h
      cases h
      obtain ⟨hone, hbelow, hhere⟩ := rebound_bindLevel hw hlevel hw1
      obtain ⟨hmore, hothers⟩ := ih ((binds_bindLevel hw1).inOrder hw)
        (fun q hq => hone.seen (hbelow.seen hlevel q hq))
        (fun q hq => by rw [hone.reachCount_eq]; exact hbelow.shallow hw hdepth q hq) hw2
      refine ⟨(hone.trans hmore).congr fun u b => ?_, ?_⟩
      · simp only [hone.heldBy_iff, hone.below_iff, ← and_or_left, hbelow.exists_below_iff]
      · rw [Bool.and_eq_true, hhere, hothers]
        simp only [hone.met_iff, hone.below_iff, hbelow.exists_below_iff, or_imp, forall_and,
          forall_exists_index, and_imp]
        refine and_congr_left fun _ => ⟨?_, fun hall p hp => hall p.1 p hp rfl⟩
        rintro hall _ p hp rfl
        exact hall p hp

/-- From a block on, every use is bound to what its name stands for. -/
theorem InOrder.rebound_bindLevels (hw : w.InOrder) (hseen : Seen D w (b, env))
    (h : w.bindLevels w.depthBound [(b, env)] = .ok (all, w')) :
    ReboundBy D (fun u x => w.HeldBy u x ∧ w.Below b x) w w' ∧
    (all = true ↔ ∀ x, w.Below b x → w.Met D x) := by
  obtain ⟨block, hblock⟩ := hseen.live
  simpa using Workspace.rebound_bindLevels hw (by simpa using hseen)
    (by simpa using hw.reachCount_lt_depthBound hblock) h

/-- From the root of a tree, every use in the tree is bound to what its name denotes. -/
theorem InOrder.rebound_resolveReferences (hw : w.InOrder) (hr : r ∈ w.top)
    (h : w.resolveReferences r none = .ok (all, w')) :
    Rebound (fun u b => w.HeldBy u b ∧ w.Below r b) w w' := by
  obtain ⟨block, hblock, -⟩ := (hw.structured.top.2 r).1 hr
  exact (hw.rebound_bindLevels ⟨⟨block, hblock⟩, passesBelow_denotes w r,
    gives_root (not_parentOf_of_mem_top hw hr)⟩ h).1

theorem resolveReferences_spec (hw : w.InOrder) (ho : w.Owned) (hr : r ∈ w.top)
    (h : w.resolveReferences r none = .ok (all, w')) : Rebinds (w.Below r) w w' ∧ w'.Scoped r := by
  have hrebound := hw.rebound_resolveReferences hr h
  obtain ⟨hrebinds, hbound⟩ := hrebound.spec ho.toHoused (binds_resolveReferences h)
  refine ⟨hrebinds, fun v use huse hb use' huse' href u => ?_⟩
  cases huse.symm.trans huse'
  rw [hrebound.denotes_iff]
  exact hbound v use huse (hrebound.below_iff.1 hb) use huse href u

end Workspace

end BlockGraph
