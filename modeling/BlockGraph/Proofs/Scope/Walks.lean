import BlockGraph.Proofs.Scope.Feasibility
import BlockGraph.Proofs.Scope.Healing
import BlockGraph.Proofs.Upkeep.Bindings

/-!
# The walk up and the walk down

What names denote at a block is found in two ways.  `Workspace.envAt` collects the connections on
the way up to the root.  Binding starts at the root and hands environments on from level to level
(`Workspace.levelAfter`).  Both give what names denote at the block (`gives_of_levelAfter`,
`InOrder.exists_envAbove`), so they give the same.

Along every run of edits and moves of inputs uses are bound to what their names denote.  So binding
the names below any block once more, from the environment that the walk up finds there, leaves the
workspace as it is (`walks_agree`).
-/

namespace BlockGraph.Workspace

open Relation

variable {w w' : Workspace} {b r x : BlockId} {block : Block} {env : Env}
  {D : String → BlockId → VariableId → Prop} {n : Nat}

/-! ## Down -/

/-- The blocks that binding meets after so many levels, with the environments that it brings to
them. -/
def levelAfter (w : Workspace) : Nat → List (BlockId × Env) → Except Fault (List (BlockId × Env))
  | 0, level => .ok level
  | n + 1, level => do
    let next ← w.bindLevel level
    next.2.2.levelAfter n next.2.1

/-- Binding the names of a whole tree brings an environment to a block. -/
def Carries (w : Workspace) (r x : BlockId) (env : Env) : Prop :=
  ∃ n < w.depthBound, ∃ level, w.levelAfter n [(r, .empty)] = .ok level ∧ (x, env) ∈ level

theorem levelAfter_succ {level level' : List (BlockId × Env)} :
    w.levelAfter (n + 1) level = .ok level' ↔
      ∃ all below w1, w.bindLevel level = .ok (all, below, w1) ∧
      w1.levelAfter n below = .ok level' := by
  simp only [levelAfter, bind_eq_ok, Prod.exists]

/-- What is brought to a block is what names stand for there. -/
theorem gives_of_levelAfter :
    ∀ {w : Workspace} {level level' : List (BlockId × Env)}, w.InOrder → (∀ p ∈ level, Seen D w p) →
      w.levelAfter n level = .ok level' → ∀ q ∈ level', q.2.Gives D q.1 := by
  induction n with
  | zero =>
    intro w level level' _ hlevel h q hq
    cases h
    exact (hlevel q hq).gives
  | succ n ih =>
    intro w level level' hw hlevel h
    obtain ⟨all, below, w1, hw1, h⟩ := levelAfter_succ.1 h
    obtain ⟨hone, hbelow, -⟩ := rebound_bindLevel hw hlevel hw1
    exact ih ((binds_bindLevel hw1).inOrder hw) (fun q hq => hone.seen (hbelow.seen hlevel q hq)) h

/-- Every block below a level is met before the levels run out. -/
theorem exists_levelAfter {depth : Nat} :
    ∀ {w : Workspace} {level : List (BlockId × Env)} {p : BlockId × Env}, w.InOrder → w.Housed →
      (∀ p ∈ level, Seen D w p) → (∀ p ∈ level, reachCount w.ParentOf w.liveBlocks p.1 < depth) →
      p ∈ level → w.Below p.1 x → ∃ n < depth, ∃ level', w.levelAfter n level = .ok level' ∧
      ∃ env, (x, env) ∈ level' := by
  induction depth with
  | zero =>
    intro w level p _ _ _ hdepth hp _
    exact absurd (hdepth p hp) (Nat.not_lt_zero _)
  | succ depth ih =>
    intro w level p hw ho hlevel hdepth hp hx
    rcases hx.cases_head with rfl | ⟨child, hchild, hx⟩
    · exact ⟨0, Nat.succ_pos _, level, rfl, p.2, hp⟩
    obtain ⟨all, below, w1, hw1⟩ := exists_bindLevel hw ho fun p hp => (hlevel p hp).live
    have hbinds := binds_bindLevel hw1
    obtain ⟨hone, hbelow, -⟩ := rebound_bindLevel hw hlevel hw1
    obtain ⟨q, hq, rfl⟩ := hbelow.child p hp child hchild
    obtain ⟨n, hn, level', hlevel', hmem⟩ := ih (hbinds.inOrder hw) (hbinds.housed ho)
      (fun q hq => hone.seen (hbelow.seen hlevel q hq))
      (fun q hq => by rw [hone.reachCount_eq]; exact hbelow.shallow hw hdepth q hq) hq
      (hone.below_iff.2 hx)
    exact ⟨n + 1, Nat.succ_lt_succ hn, level', levelAfter_succ.2 ⟨all, below, w1, hw1, hlevel'⟩,
      hmem⟩

namespace InOrder

variable (hw : w.InOrder)
include hw

/-- The root of a tree sees nothing. -/
theorem seen_root (hr : r ∈ w.top) : Seen w.Denotes w (r, .empty) :=
  ⟨hw.live_of_top hr, passesBelow_denotes w r, gives_root (not_parentOf_of_mem_top hw hr)⟩

theorem gives_of_carries (hr : r ∈ w.top) (h : w.Carries r x env) : env.Gives w.Denotes x := by
  obtain ⟨n, -, level, hlevel, hx⟩ := h
  exact gives_of_levelAfter hw (by simpa using hw.seen_root hr) hlevel _ hx

theorem exists_carries (ho : w.Housed) (hr : r ∈ w.top) (hx : w.Below r x) :
    ∃ env, w.Carries r x env := by
  obtain ⟨block, hblock⟩ := hw.live_of_top hr
  obtain ⟨n, hn, level, hlevel, env, hmem⟩ :=
    exists_levelAfter hw ho (by simpa using hw.seen_root hr)
      (by simpa using hw.reachCount_lt_depthBound hblock) (List.mem_singleton_self (r, Env.empty))
      hx
  exact ⟨env, n, hn, level, hlevel, hmem⟩

/-! ## Up -/

/-- What names denote at the connection above a block is what they denote at the block. -/
theorem denotesAt?_iff {above : Option ConnectionId} (h : w.parentConnection? b = .ok above)
    {name : String} {v : VariableId} : w.DenotesAt? above name v ↔ w.Denotes name b v := by
  cases above with
  | none =>
    rw [← gives_root (fun p => hw.not_parentOf_of_parentConnection h p) name v]
    simp [DenotesAt?]
  | some c => simp [DenotesAt?, hw.denotes_iff_denotesAt h]

/-- The walk up from a block gives what names denote at it. -/
theorem exists_envAbove (ho : w.Housed) (hblock : w.blocks[b]? = some block) :
    ∃ above up, w.parentConnection? b = .ok above ∧
      (∀ c, above = some c → ∃ connection, w.connections[c]? = some connection) ∧
      w.envAt? above = .ok up ∧ up.Gives w.Denotes b := by
  obtain ⟨above, habove⟩ := hw.exists_parentConnection? hblock
  have hat : ∀ c, above = some c → ∃ connection, w.connections[c]? = some connection := by
    rintro c rfl
    obtain ⟨connection, hc, -⟩ := hw.connection_of_plugs (hw.plugs_iff.2 habove)
    exact ⟨connection, hc⟩
  obtain ⟨up, hup, hgives⟩ := exists_envAt? hw ho hat b
  exact ⟨above, up, habove, hat, hup, fun name v => by
    rw [hgives, hw.denotesFrom_root, hw.denotesAt?_iff habove]⟩

end InOrder

/-! ## Binding once more -/

/-- Where uses are bound to what their names denote, binding them where they stand changes
nothing. -/
theorem Upheld.exists_rebind {Q : Block → Prop} {tracked : Prop} (h : Upheld Q tracked w)
    (htyped : w.isTyped = true) (hblock : w.blocks[b]? = some block) :
    ∃ verdict found, w.rebind b = .ok (verdict, w) ∧ w.unresolved b = .ok found ∧
      (verdict = true ↔ found = []) := by
  have hw := h.standing.inOrder
  have ho := h.standing.owned.toHoused
  obtain ⟨above, -, habove, hat, -⟩ := hw.exists_envAbove ho hblock
  obtain ⟨verdict, w', hrun, hrebound⟩ := exists_resolveReferences hw ho hblock hat
  have hdenotes : ∀ {name x v}, w.Below b x →
      (w.DenotesFrom b (w.DenotesAt? above) name x v ↔ w.Denotes name x v) :=
    hw.denotesFrom_iff_denotes fun _ _ => hw.denotesAt?_iff habove
  have hbinds := binds_resolveReferences hrun
  obtain ⟨hrebinds, hbound⟩ := hrebound.spec ho hbinds
  -- a use below the block is bound to what its name denotes, and so it was before
  have hvar : ∀ {v : VariableId} {found : Variable}, w.vars[v]? = some found →
      w'.vars[v]? = some found := by
    intro v found hv
    by_cases hb : w.Below b found.block
    · refine hbinds.var_eq hv ?_
      obtain ⟨new, hnew, hname, hsame, href⟩ := hbinds.bare.symm.exists_var hv
      rw [boundTo?, boundTo?, hnew, hv, Option.bind_some, Option.bind_some]
      by_cases hreference : found.isReference = true
      · refine Option.ext fun u => ?_
        rw [hbound v new hnew (hsame ▸ hb) new hnew (href ▸ hreference), ← hsame,
          hdenotes hb, ← hname]
        exact (h.resolved htyped v found hv hreference u).symm
      · rw [Bool.not_eq_true] at hreference
        rw [Variable.binding?_eq_none hreference,
          Variable.binding?_eq_none (href.symm.trans hreference)]
    · exact hrebinds.2 hv hb
  have hsame : w' = w := by
    rw [hbinds.rest]
    congr 1
    refine Std.ExtTreeMap.ext_getElem? fun v => ?_
    cases hv : w.vars[v]? with
    | none =>
      have := hbinds.bare v
      rw [hv] at this
      exact Option.map_eq_none_iff.1 this
    | some found => exact hvar hv
  subst hsame
  obtain ⟨found, hfound, hmem⟩ := exists_unresolved hw ho hblock
  obtain ⟨verdict', hverdict, hiff⟩ := exists_resolvable hw ho hblock hat
  cases (resolvable_of_resolveReferences hrun).symm.trans hverdict
  refine ⟨verdict, found, by rw [rebind, habove, ok_bind, hrun], hfound, hiff.trans ?_⟩
  rw [List.eq_nil_iff_forall_not_mem]
  constructor
  · intro hall v hv
    obtain ⟨use, huse, href, hb, hnone⟩ := (hmem v).1 hv
    obtain ⟨u, hu⟩ := hall v use huse href hb
    cases hnone.symm.trans ((h.resolved htyped v use huse href u).2 ((hdenotes hb).1 hu))
  · intro hempty v use huse href hb
    cases hbinding : use.binding? with
    | none => exact absurd ((hmem v).2 ⟨use, huse, href, hb, hbinding⟩) (hempty v)
    | some u => exact ⟨u, (hdenotes hb).2 ((h.resolved htyped v use huse href u).1 hbinding)⟩

/-- **The walk up and the walk down agree.**  After any edits and moves of inputs in a typed
workspace, binding the names of a block's tree from its root brings an environment to the block, and
each name stands in it for what it stands for in the environment at the connection above the block.
Binding the names below the block once more leaves the whole workspace as it is, and tells that all
are bound exactly if no use is listed as unresolved. -/
theorem walks_agree (hw : w.ReachableBy Call.IsReordering) (htyped : w.isTyped = true)
    (hx : w.blocks[x]? = some block) :
    ∃ r above up, w.root x = .ok r ∧ w.parentConnection? x = .ok above ∧ w.envAt? above = .ok up ∧
      (∃ env, w.Carries r x env) ∧
      (∀ env, w.Carries r x env → ∀ name, env.lookup? name = up.lookup? name) ∧
      ∃ verdict found, w.rebind x = .ok (verdict, w) ∧ w.unresolved x = .ok found ∧
        (verdict = true ↔ found = []) := by
  have h := hw.upheld_reordering Block.steady_regular Block.unordered_regular
  have hin := h.standing.inOrder
  have ho := h.standing.owned.toHoused
  obtain ⟨r, hroot, hr, hbelow⟩ := hin.exists_root hx
  obtain ⟨above, up, habove, -, hup, hgives⟩ := hin.exists_envAbove ho hx
  refine ⟨r, above, up, hroot, habove, hup, hin.exists_carries ho hr hbelow,
    fun env henv name => ?_, h.exists_rebind htyped hx⟩
  refine Option.ext fun v => ?_
  rw [hin.gives_of_carries hr henv name v, hgives name v]

/-- The use in the last part of a `let` in a function of the same name. -/
theorem walks_agree_shadowed : ∃ w block, shadowed = .ok w ∧ w.isTyped = true ∧
    w.blocks[(⟨4⟩ : BlockId)]? = some block ∧ w.boundTo? ⟨3⟩ = some ⟨1⟩ ∧
    ∃ r above up, w.root ⟨4⟩ = .ok r ∧ w.parentConnection? ⟨4⟩ = .ok above ∧
      w.envAt? above = .ok up ∧ (∃ env, w.Carries r ⟨4⟩ env) ∧
      (∀ env, w.Carries r ⟨4⟩ env → ∀ name, env.lookup? name = up.lookup? name) ∧
      ∃ verdict found, w.rebind ⟨4⟩ = .ok (verdict, w) ∧ w.unresolved ⟨4⟩ = .ok found ∧
        (verdict = true ↔ found = []) := by
  obtain ⟨w, hrun, htyped, hlive, hbound⟩ : ∃ w, shadowed = .ok w ∧ w.isTyped = true ∧
      w.blocks[(⟨4⟩ : BlockId)]?.isSome = true ∧ w.boundTo? ⟨3⟩ = some ⟨1⟩ :=
    exists_ok_of_any (by decide +kernel)
  have hw := (ReachableBy.new {}).foldlM (P := Call.IsReordering)
    (by simp [Call.IsReordering, Call.IsEdit]) hrun
  obtain ⟨block, hblock⟩ := Option.isSome_iff_exists.1 hlive
  exact ⟨w, block, hrun, htyped, hblock, hbound, walks_agree hw htyped hblock⟩

end BlockGraph.Workspace
