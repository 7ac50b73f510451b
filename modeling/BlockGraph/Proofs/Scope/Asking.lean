import BlockGraph.Proofs.Scope.Binding

/-!
# Scope is found without a fault

In a workspace in order every walk through scopes comes to an end: sockets, parents and the
variables of binders are where the walk looks for them.

* `exists_envAt`: the environment at a connection looks names up to what they denote at the
  connection (`Workspace.DenotesAt`).
* `exists_bindTree`: the uses in a tree can be bound, wherever it is thought to stand, and all of
  them are bound exactly if every use denotes something inside the tree or at the connection
  (`Workspace.Met`).
-/

namespace BlockGraph.Workspace

open Relation

variable {w w' : Workspace} {r b : BlockId} {name : String} {v : VariableId} {c : ConnectionId}
  {connection : Connection} {D : String → BlockId → VariableId → Prop} {at? : Option ConnectionId}
  {block : Block}

/-! ## Single steps -/

/-- A block that declares into an input has a variable. -/
theorem Housed.exists_own (ho : w.Housed) (hblock : w.blocks[b]? = some block)
    (hkind : block.kind.isBinder = true ∨ block.kind = .variablesGet) :
    ∃ v found, w.ownVariable b = .ok v ∧ w.vars[v]? = some found := by
  obtain ⟨v, hv⟩ := Option.isSome_iff_exists.1 ((ho.tidy hblock).own.2 hkind)
  obtain ⟨found, hfound, -⟩ := ho.var hblock hv
  exact ⟨v, found, (ownVariable_eq_ok hblock).2 hv, hfound⟩

theorem isBinder_of_scope? {k : Kind} {input : String} (h : k.scope? = some input) :
    k.isBinder = true := by
  rcases scope?_eq_some_iff.1 h with ⟨rfl, -⟩ | ⟨rfl, -⟩ <;> rfl

theorem exists_declaredAt (hw : w.InOrder) (ho : w.Housed)
    (hc : w.connections[c]? = some connection) :
    ∃ declared, w.declaredAt c = .ok declared := by
  obtain ⟨block, hblock⟩ := hw.block_of_connection hc
  simp only [declaredAt, getConnection_eq_ok.2 hc, ok_bind, getBlock_eq_ok.2 hblock]
  cases hscope : block.kind.scope? with
  | none => exact ⟨[], rfl⟩
  | some input =>
    obtain ⟨v, found, hv, hfound⟩ := ho.exists_own hblock (.inl (isBinder_of_scope? hscope))
    simp only [inputConnection?_eq hblock, ok_bind, hv, getVariable_eq_ok.2 hfound]
    split
    · exact ⟨_, rfl⟩
    · exact ⟨_, rfl⟩

theorem exists_referencesAmong {vs : List VariableId}
    (h : ∀ v ∈ vs, ∃ found, w.vars[v]? = some found) :
    ∃ references, w.referencesAmong vs = .ok references := by
  induction vs with
  | nil => exact ⟨[], rfl⟩
  | cons u vs ih =>
    obtain ⟨found, hfound⟩ := h u List.mem_cons_self
    obtain ⟨rest, hrest⟩ := ih fun v hv => h v (List.mem_cons_of_mem u hv)
    exact ⟨_, by rw [referencesAmong, getVariable_eq_ok.2 hfound, ok_bind, hrest, ok_bind]; rfl⟩

/-- The uses in a block are the variables that belong to it and are uses. -/
theorem exists_referencesOf (ho : w.Housed) (hblock : w.blocks[b]? = some block) :
    ∃ references, w.referencesOf b = .ok references ∧ ∀ v name, (v, name) ∈ references ↔
      ∃ use, w.vars[v]? = some use ∧ use.block = b ∧ use.isReference = true ∧ use.name = name := by
  obtain ⟨references, hreferences⟩ := exists_referencesAmong fun v hv =>
    (ho.exists_var ⟨block, hblock, hv⟩).imp fun _ => And.left
  refine ⟨references, by rw [referencesOf, getBlock_eq_ok.2 hblock, ok_bind, hreferences],
    fun v name => ?_⟩
  rw [mem_referencesAmong hreferences]
  have hheld : w.HeldBy v b ↔ v ∈ block.vars := by simp [HeldBy, hblock]
  rw [← hheld]
  constructor
  · rintro ⟨hv, use, huse, hrest⟩
    exact ⟨use, huse, (ho.heldBy_iff huse).1 hv, hrest⟩
  · rintro ⟨use, huse, hb, hrest⟩
    exact ⟨(ho.heldBy_iff huse).2 hb, use, huse, hrest⟩

theorem exists_envsBelow (hw : w.InOrder) (ho : w.Housed) (env : Env) {cs : List ConnectionId}
    (h : ∀ c ∈ cs, ∃ connection, w.connections[c]? = some connection) :
    ∃ below, w.envsBelow env cs = .ok below := by
  induction cs with
  | nil => exact ⟨[], rfl⟩
  | cons c cs ih =>
    obtain ⟨connection, hc⟩ := h c List.mem_cons_self
    obtain ⟨below, hbelow⟩ := ih fun d hd => h d (List.mem_cons_of_mem c hd)
    obtain ⟨x, hx⟩ := hw.exists_targetBlock? hc
    obtain ⟨declared, hdeclared⟩ := exists_declaredAt hw ho hc
    cases x with
    | none => exact ⟨below, by simp only [envsBelow, hx, ok_bind, hbelow]⟩
    | some child =>
      exact ⟨(child, env.extend declared) :: below, by
        simp only [envsBelow, hx, ok_bind, hbelow, hdeclared, pure_eq_ok]⟩

theorem exists_childEnvs (hw : w.InOrder) (ho : w.Housed) (hblock : w.blocks[b]? = some block)
    (env : Env) : ∃ below, w.childEnvs b env = .ok below := by
  rw [childEnvs, getBlock_eq_ok.2 hblock, ok_bind]
  refine exists_envsBelow hw ho env fun c hc => ?_
  obtain ⟨j, hj, -⟩ := (hw.mem_inferiors hblock).1 hc
  obtain ⟨connection, hconnection, -⟩ := joint_eq_some_iff.1 hj
  exact ⟨connection, hconnection⟩

/-! ## Binding -/

theorem exists_bindReferences (env : Env) {references : List (VariableId × String)} :
    ∀ {w : Workspace}, (∀ p ∈ references, ∃ found, w.vars[p.1]? = some found) →
      ∃ all w', w.bindReferences env references = .ok (all, w') := by
  induction references with
  | nil => exact fun _ => ⟨true, _, rfl⟩
  | cons p rest ih =>
    intro w h
    obtain ⟨found, hfound⟩ := h p List.mem_cons_self
    obtain ⟨w1, hw1⟩ : ∃ w1, w.modifyVariable p.1 (·.bindTo (env.lookup? p.2)) = .ok w1 :=
      ⟨_, modifyVariable_eq_ok.2 ⟨found, hfound, rfl⟩⟩
    obtain ⟨all, w', hrest⟩ := ih (w := w1) fun q hq => by
      obtain ⟨other, hother⟩ := h q (List.mem_cons_of_mem p hq)
      obtain ⟨-, -, rfl⟩ := modifyVariable_eq_ok.1 hw1
      simp only [getElem?_insert_eq]
      split
      · exact ⟨_, rfl⟩
      · exact ⟨other, hother⟩
    exact ⟨(env.lookup? p.2).isSome && all, w', by
      simp only [bindReferences, hw1, ok_bind, hrest, pure_eq_ok]⟩

/-- The uses of one level can be bound. -/
theorem exists_bindLevel {level : List (BlockId × Env)} :
    ∀ {w : Workspace}, w.InOrder → w.Housed → (∀ p ∈ level, ∃ block, w.blocks[p.1]? = some block) →
      ∃ all below w', w.bindLevel level = .ok (all, below, w') := by
  induction level with
  | nil => exact fun _ _ _ => ⟨true, [], _, rfl⟩
  | cons p rest ih =>
    intro w hw ho hlive
    obtain ⟨b, env⟩ := p
    obtain ⟨block, hblock⟩ := hlive (b, env) List.mem_cons_self
    obtain ⟨references, hreferences, hmem⟩ := exists_referencesOf ho hblock
    have huses : ∀ q ∈ references, ∃ found, w.vars[q.1]? = some found ∧ found.name = q.2 ∧
        found.block = b := fun q hq => by
      obtain ⟨use, huse, hb, -, hname⟩ := (hmem q.1 q.2).1 hq
      exact ⟨use, huse, hname, hb⟩
    obtain ⟨here, w1, hw1⟩ := exists_bindReferences env fun q hq =>
      (huses q hq).imp fun _ h => h.1
    have hone := binds_bindReferences hw1
    have hblocks : w1.blocks = w.blocks := by rw [hone.rest]
    obtain ⟨below, hbelow⟩ := exists_childEnvs (hone.inOrder hw) (hone.housed ho)
      (show w1.blocks[b]? = some block by rw [hblocks]; exact hblock) env
    obtain ⟨others, more, w2, hw2⟩ := ih (hone.inOrder hw) (hone.housed ho)
      (fun q hq => by rw [hblocks]; exact hlive q (List.mem_cons_of_mem _ hq))
    exact ⟨here && others, below ++ more, w2, by
      simp only [bindLevel, hreferences, ok_bind, hw1, hbelow, hw2, pure_eq_ok]⟩

theorem exists_bindLevels {depth : Nat} :
    ∀ {w : Workspace} {level : List (BlockId × Env)}, w.InOrder → w.Housed →
      (∀ p ∈ level, Seen D w p) → ∃ all w', w.bindLevels depth level = .ok (all, w') := by
  induction depth with
  | zero => exact fun _ _ _ => ⟨true, _, rfl⟩
  | succ depth ih =>
    intro w level hw ho hlevel
    unfold bindLevels
    split
    · exact ⟨true, w, rfl⟩
    · obtain ⟨here, below, w1, hw1⟩ := exists_bindLevel hw ho fun p hp => (hlevel p hp).live
      have hbinds := binds_bindLevel hw1
      obtain ⟨hone, hbelow, -⟩ := rebound_bindLevel hw hlevel hw1
      obtain ⟨others, w2, hw2⟩ := ih (hbinds.inOrder hw) (hbinds.housed ho)
        fun q hq => hone.seen (hbelow.seen hlevel q hq)
      exact ⟨here && others, w2, by simp only [hw1, ok_bind, hw2, pure_eq_ok]⟩

/-! ## The environment at a connection -/

/-- A name denotes a declaration at a connection: what the owner declares into the connection under
the name, and else what the name denotes at the owner. -/
def DenotesAt (w : Workspace) (name : String) (c : ConnectionId) (v : VariableId) : Prop :=
  ∃ connection, w.connections[c]? = some connection ∧ (w.DeclaresInto c name v ∨
    (∀ u, ¬ w.DeclaresInto c name u) ∧ w.Denotes name connection.block v)

/-- A name denotes at a block what it denotes at the connection that the block is plugged into. -/
theorem InOrder.denotes_iff_denotesAt (hw : w.InOrder) {above : ConnectionId}
    (habove : w.parentConnection? b = .ok (some above)) : w.Denotes name b v ↔
    w.DenotesAt name above v := by
  obtain ⟨t, j, hj, rfl, hsup, htarget⟩ := hw.parentConnection habove
  obtain ⟨socket, hsocket, hback, hkind, -⟩ := hw.formed.wired.target hj htarget
  obtain ⟨connection, hconnection, rfl⟩ := joint_eq_some_iff.1 hsocket
  obtain ⟨plug, hplug, rfl⟩ := joint_eq_some_iff.1 hj
  have hp : w.ParentOf connection.block plug.block :=
    parentOf_skeleton.1 (hw.parentOf_of_joined hj hsup htarget hsocket)
  obtain ⟨block, hblock⟩ := hw.block_of_connection hconnection
  have hinferior : above ∈ block.inferiors := (hw.mem_inferiors hblock).2 ⟨_, hsocket, rfl, by
    rw [hkind, ConnectionKind.isSuperior_opposite, hsup]; rfl⟩
  have htargetBlock : w.targetBlock? above = .ok (some plug.block) := by
    have hback : connection.target = some t := hback
    simp [targetBlock?, getConnection_eq_ok.2 hconnection, hback, getConnection_eq_ok.2 hplug]
  change w.Denotes name plug.block v ↔ _
  rw [hp.denotes_iff]
  simp only [hw.offers_iff hblock hinferior htargetBlock]
  constructor
  · exact fun h => ⟨connection, hconnection, h⟩
  · rintro ⟨connection', hconnection', h⟩
    cases hconnection.symm.trans hconnection'
    exact h

/-- The connection that a block is plugged into is above it; so the walk upwards has an end. -/
theorem exists_envWithin (hw : w.InOrder) (ho : w.Housed) (height : Nat) :
    ∀ {c : ConnectionId} {connection : Connection}, w.connections[c]? = some connection →
      connection.kind.isSuperior = false →
      reachCount (Function.swap w.skeleton.ParentOf) w.liveBlocks connection.block < height →
      ∃ env, w.envWithin height c = .ok env ∧ ∀ name v, env.lookup? name = some v ↔
      w.DenotesAt name c v := by
  induction height with
  | zero => exact fun _ _ h => absurd h (Nat.not_lt_zero _)
  | succ height ih =>
    intro c connection hc hinferior hheight
    obtain ⟨block, hblock⟩ := hw.block_of_connection hc
    obtain ⟨declared, hdeclared⟩ := exists_declaredAt hw ho hc
    have hcases := declaredAt_cases hc hblock hdeclared
    have hat : ∀ {name : String} {v : VariableId}, w.DenotesAt name c v ↔ w.DeclaresInto c name v ∨
        (∀ u, ¬ w.DeclaresInto c name u) ∧ w.Denotes name connection.block v := by
      intro name v
      constructor
      · rintro ⟨connection', hc', h⟩
        cases hc.symm.trans hc'
        exact h
      · exact fun h => ⟨connection, hc, h⟩
    obtain ⟨above, habove⟩ := hw.exists_parentConnection? hblock
    simp only [envWithin, getConnection_eq_ok.2 hc, ok_bind, hinferior, habove, hdeclared]
    cases above with
    | none =>
      refine ⟨_, rfl, fun name v => ?_⟩
      rw [Env.lookup?_extend_iff _ hcases, hat]
      have hnone : ¬ w.Denotes name connection.block v := by
        intro hd
        cases hd with
        | here hp _ | above hp _ _ => exact hw.not_parentOf_of_parentConnection habove _ hp
      simp [hnone]
    | some above =>
      obtain ⟨t, j, hj, hb, hsup, htarget⟩ := hw.parentConnection habove
      obtain ⟨socket, hsocket, -, hkind, -⟩ := hw.formed.wired.target hj htarget
      obtain ⟨upper, hupper, rfl⟩ := joint_eq_some_iff.1 hsocket
      have hparent := hw.parentOf_of_joined hj hsup htarget hsocket
      rw [hb] at hparent
      obtain ⟨upperBlock, hupperBlock⟩ := hw.block_of_connection hupper
      have hfewer := reachCount_lt hw.formed.acyclic.swap
        (x := connection.block) (y := upper.block) hparent (mem_liveBlocks.2 ⟨_, hupperBlock⟩)
      obtain ⟨env, henv, hlookup⟩ := ih hupper (by
        change (Connection.joint upper).kind.isSuperior = false
        rw [hkind, ConnectionKind.isSuperior_opposite, hsup]; rfl) (by omega)
      refine ⟨_, by simp only [henv, ok_bind, pure_eq_ok]; rfl, fun name v => ?_⟩
      rw [Env.lookup?_extend_iff _ hcases, hlookup, hat, hw.denotes_iff_denotesAt habove]

/-- A block declares nothing into the connection by which it is plugged in. -/
theorem InOrder.not_declaresInto (hw : w.InOrder) (hc : w.connections[c]? = some connection)
    (hsuperior : connection.kind.isSuperior = true) : ¬ w.DeclaresInto c name v := by
  rintro ⟨connection', block, input, hc', hblock, -, hsocket, -⟩
  cases hc.symm.trans hc'
  obtain ⟨j, hj, -, hinferior⟩ :=
    (hw.mem_inferiors hblock).1 (Block.mem_inferiors_of_socket? hsocket)
  cases (joint_of_connection hc).symm.trans hj
  cases hsuperior.symm.trans hinferior

/-- The environment at a connection says what names denote there. -/
theorem exists_envAt (hw : w.InOrder) (ho : w.Housed) (hc : w.connections[c]? = some connection) :
    ∃ env, w.envAt c = .ok env ∧ ∀ name v, env.lookup? name = some v ↔ w.DenotesAt name c v := by
  have hheight : ∀ {d : ConnectionId} {other : Connection}, w.connections[d]? = some other →
      reachCount (Function.swap w.skeleton.ParentOf) w.liveBlocks other.block <
      w.depthBound + 1 := by
    intro d other hd
    obtain ⟨block, hblock⟩ := hw.block_of_connection hd
    have hbound := reachCount_lt_card hw.formed.acyclic.swap (mem_liveBlocks.2 ⟨block, hblock⟩)
    rw [card_liveBlocks] at hbound
    unfold depthBound
    omega
  cases hsuperior : connection.kind.isSuperior with
  | false => exact exists_envWithin hw ho _ hc hsuperior ((hheight hc).trans (Nat.lt_succ_self _))
  | true =>
    -- the owner of the connection sees what it sees where it is plugged in
    have hat : ∀ {name v}, w.DenotesAt name c v ↔ w.Denotes name connection.block v := by
      intro name v
      constructor
      · rintro ⟨connection', hc', hdeclares | ⟨-, hd⟩⟩
        · exact absurd hdeclares (hw.not_declaresInto hc hsuperior)
        · cases hc.symm.trans hc'
          exact hd
      · exact fun hd => ⟨connection, hc, .inr ⟨fun u => hw.not_declaresInto hc hsuperior, hd⟩⟩
    simp only [envAt, envWithin, getConnection_eq_ok.2 hc, ok_bind, hsuperior, if_true]
    cases htarget : connection.target with
    | none =>
      refine ⟨.empty, rfl, fun name v => ?_⟩
      rw [hat]
      exact gives_root (not_parentOf_of_mem_top hw (hw.mem_top_of_free hc hsuperior htarget)) name v
    | some t =>
      have hplugs : w.Plugs connection.block t :=
        ⟨c, connection.joint, joint_of_connection hc, rfl, hsuperior, htarget⟩
      obtain ⟨socket, hsocket, hinferior⟩ := hw.connection_of_plugs hplugs
      obtain ⟨env, henv, hlookup⟩ := exists_envWithin hw ho _ hsocket hinferior (hheight hsocket)
      exact ⟨env, henv, fun name v => by rw [hlookup, hat,
        hw.denotes_iff_denotesAt (hw.plugs_iff.1 hplugs)]⟩

/-- What names denote where a tree is thought to stand: at a connection, or nowhere. -/
def DenotesAt? (w : Workspace) (at? : Option ConnectionId) (name : String)
    (v : VariableId) : Prop :=
  ∃ c, at? = some c ∧ w.DenotesAt name c v

variable (hw : w.InOrder) (ho : w.Housed)
include hw ho

theorem exists_envAt? (hat : ∀ c, at? = some c → ∃ connection, w.connections[c]? = some connection)
    (r : BlockId) :
    ∃ env, w.envAt? at? = .ok env ∧ env.Gives (w.DenotesFrom r (w.DenotesAt? at?)) r := by
  cases at? with
  | none => exact ⟨.empty, rfl, fun name v => by simp [hw.denotesFrom_root, DenotesAt?]⟩
  | some c =>
    obtain ⟨connection, hc⟩ := hat c rfl
    obtain ⟨env, henv, hlookup⟩ := exists_envAt hw ho hc
    exact ⟨env, henv, fun name v => by simp [hw.denotesFrom_root, DenotesAt?, hlookup]⟩

/-- The uses in a tree can be bound, and all of them are exactly if their names stand for
something. -/
theorem exists_bindTree (hblock : w.blocks[b]? = some block)
    (hat : ∀ c, at? = some c → ∃ connection, w.connections[c]? = some connection) :
    ∃ all w', w.resolveReferences b at? = .ok (all, w') ∧
      ReboundBy (w.DenotesFrom b (w.DenotesAt? at?)) (fun u x => w.HeldBy u x ∧ w.Below b x) w w' ∧
      (all = true ↔ ∀ x, w.Below b x → w.Met (w.DenotesFrom b (w.DenotesAt? at?)) x) := by
  obtain ⟨env, henv, hgives⟩ := exists_envAt? hw ho hat b
  have hseen : Seen (w.DenotesFrom b (w.DenotesAt? at?)) w (b, env) :=
    ⟨⟨block, hblock⟩, hw.passesBelow_denotesFrom (w.DenotesAt? at?), hgives⟩
  obtain ⟨all, w', hrun⟩ : ∃ all w', w.bindLevels w.depthBound [(b, env)] = .ok (all, w') :=
    exists_bindLevels hw ho (by simpa using hseen)
  exact ⟨all, w', by rw [resolveReferences, henv, ok_bind, hrun], hw.rebound_bindLevels hseen hrun⟩

/-- **The uses in a tree can be bound**, wherever it is thought to stand. -/
theorem exists_resolveReferences (hblock : w.blocks[b]? = some block)
    (hat : ∀ c, at? = some c → ∃ connection, w.connections[c]? = some connection) :
    ∃ all w', w.resolveReferences b at? = .ok (all, w') ∧
      ReboundBy (w.DenotesFrom b (w.DenotesAt? at?)) (fun u x => w.HeldBy u x ∧ w.Below b x)
        w w' := by
  obtain ⟨all, w', hrun, hrebound, -⟩ := exists_bindTree hw ho hblock hat
  exact ⟨all, w', hrun, hrebound⟩

end BlockGraph.Workspace
