import BlockGraph.Proofs.Scope.Asking

/-!
# Asking whether names will be found

`Workspace.resolvable` looks at the uses of a tree level by level and stops at the first that finds
no declaration.  `Workspace.resolveReferences` binds them all, and looks at each level in the
workspace that binding the ones before has left.  In any workspace the first answers what the second
does (`resolvable_of_resolveReferences`): bindings are not looked at on the way, so every level is
the same to both walks up to the one where the first stops, and there the second has found a name
without a declaration too.  So what is asked is always answered (`exists_resolvable`).
-/

namespace BlockGraph.Workspace

variable {w w' : Workspace} {b : BlockId} {env : Env} {at? : Option ConnectionId}

/-! ## What binding does not change -/

theorem KeepsBare.getVariable_bind (h : KeepsBare w w') (v : VariableId) {α : Type}
    {f : Variable → Except Fault α} (hf : ∀ {x y : Variable}, x.bare = y.bare → f x = f y) :
    w'.getVariable v >>= f = w.getVariable v >>= f := by
  have hv := h v
  cases hold : w.vars[v]? with
  | none =>
    rw [hold, Option.map_none, Option.map_eq_none_iff] at hv
    simp only [getVariable, hold, hv]
  | some old =>
    rw [hold, Option.map_some] at hv
    obtain ⟨new, hnew, hbare⟩ := Option.map_eq_some_iff.1 hv
    rw [getVariable_eq_ok.2 hold, getVariable_eq_ok.2 hnew, ok_bind, ok_bind, hf hbare]

namespace Binds

variable (h : Binds w w')
include h

theorem getBlock (b : BlockId) : w'.getBlock b = w.getBlock b := by
  rw [h.rest]
  rfl

theorem getConnection (c : ConnectionId) : w'.getConnection c = w.getConnection c := by
  rw [h.rest]
  rfl

theorem referencesAmong (vs : List VariableId) : w'.referencesAmong vs = w.referencesAmong vs := by
  induction vs with
  | nil => rfl
  | cons v vs ih =>
    rw [Workspace.referencesAmong, Workspace.referencesAmong, ih]
    refine h.bare.getVariable_bind v fun {x y} hbare => ?_
    rw [show x.name = y.name from congrArg Prod.fst hbare,
      show x.isReference = y.isReference from congrArg (·.2.2) hbare]

theorem referencesOf (b : BlockId) : w'.referencesOf b = w.referencesOf b := by
  simp only [Workspace.referencesOf, h.getBlock, h.referencesAmong]

theorem declaredAt (c : ConnectionId) : w'.declaredAt c = w.declaredAt c := by
  have hname : ∀ v, (do return [((← w'.getVariable v).name, v)]) =
      (do return [((← w.getVariable v).name, v)] : Except Fault (List (String × VariableId))) :=
      fun v =>
    h.bare.getVariable_bind v fun {x y} hbare => by
      rw [show x.name = y.name from congrArg Prod.fst hbare]
  simp only [Workspace.declaredAt, inputConnection?, ownVariable, fieldVariable?, h.getConnection,
    h.getBlock, hname]

theorem envsBelow (env : Env) (cs : List ConnectionId) :
    w'.envsBelow env cs = w.envsBelow env cs := by
  induction cs with
  | nil => rfl
  | cons c cs ih =>
    simp only [Workspace.envsBelow, targetBlock?, h.getConnection, h.declaredAt, ih]

theorem childEnvs (b : BlockId) (env : Env) : w'.childEnvs b env = w.childEnvs b env := by
  simp only [Workspace.childEnvs, h.getBlock, h.envsBelow]

theorem resolvableLevel (level : List (BlockId × Env)) :
    w'.resolvableLevel level = w.resolvableLevel level := by
  induction level with
  | nil => rfl
  | cons p rest ih =>
    simp only [Workspace.resolvableLevel, h.referencesOf, h.childEnvs, ih]

theorem resolvableLevels (depth : Nat) (level : List (BlockId × Env)) :
    w'.resolvableLevels depth level = w.resolvableLevels depth level := by
  induction depth generalizing level with
  | zero => rfl
  | succ depth ih => simp only [Workspace.resolvableLevels, h.resolvableLevel, ih]

end Binds

/-! ## The two walks -/

/-- A level that is bound wholly is passed, and any other is where the asking stops. -/
theorem resolvableLevel_of_bindLevel {level : List (BlockId × Env)} :
    ∀ {w w' : Workspace} {all : Bool} {below : List (BlockId × Env)},
      w.bindLevel level = .ok (all, below, w') →
      w.resolvableLevel level = .ok (if all = true then some below else none) := by
  induction level with
  | nil =>
    intro w w' all below h
    cases h
    rfl
  | cons p rest ih =>
    intro w w' all below h
    obtain ⟨b, env⟩ := p
    simp only [bindLevel, bind_eq_ok] at h
    obtain ⟨references, hreferences, ⟨here, w1⟩, h1, children, hchildren, ⟨others, more, w2⟩,
      h2, h⟩ := h
    cases h
    have hbinds := binds_bindReferences h1
    rw [hbinds.childEnvs] at hchildren
    have hrest := ih h2
    rw [hbinds.resolvableLevel] at hrest
    have hhere := all_of_bindReferences h1
    simp only [resolvableLevel, hreferences, ok_bind, hchildren, hrest]
    cases hany : references.any fun reference => (env.lookup? reference.2).isNone with
    | true => simp [hhere, hany, pure_eq_ok]
    | false => cases others <;> simp [hhere, hany, pure_eq_ok]

theorem resolvableLevels_of_bindLevels {depth : Nat} :
    ∀ {w w' : Workspace} {level : List (BlockId × Env)} {all : Bool},
      w.bindLevels depth level = .ok (all, w') → w.resolvableLevels depth level = .ok all := by
  induction depth with
  | zero =>
    intro w w' level all h
    cases h
    rfl
  | succ depth ih =>
    intro w w' level all h
    rw [bindLevels] at h
    rw [resolvableLevels]
    by_cases hempty : level.isEmpty = true
    · rw [if_pos hempty] at h ⊢
      cases h
      rfl
    · rw [if_neg hempty] at h ⊢
      simp only [bind_eq_ok] at h
      obtain ⟨⟨here, below, w1⟩, h1, ⟨others, w2⟩, h2, h⟩ := h
      cases h
      have hrest := ih h2
      rw [(binds_bindLevel h1).resolvableLevels] at hrest
      simp only [resolvableLevel_of_bindLevel h1, ok_bind]
      cases here with
      | true => simp [hrest]
      | false => simp [pure_eq_ok]

/-- What is asked is answered as if it were done. -/
theorem resolvable_of_resolveReferences {all : Bool}
    (h : w.resolveReferences b at? = .ok (all, w')) :
    w.resolvable b at? = .ok all := by
  simp only [resolveReferences, bind_eq_ok] at h
  obtain ⟨env, henv, h⟩ := h
  rw [resolvable, henv, ok_bind]
  exact resolvableLevels_of_bindLevels h

/-- **Whether a tree can be plugged in is answered**, and the answer is yes exactly if every use in
it denotes something in the tree or at the connection. -/
theorem exists_resolvable (hw : w.InOrder) (ho : w.Housed) {block : Block}
    (hblock : w.blocks[b]? = some block)
    (hat : ∀ c, at? = some c → ∃ connection, w.connections[c]? = some connection) :
    ∃ verdict, w.resolvable b at? = .ok verdict ∧
      (verdict = true ↔ ∀ (v : VariableId) (use : Variable), w.vars[v]? = some use →
        use.isReference = true → w.Below b use.block →
        ∃ u, w.DenotesFrom b (w.DenotesAt? at?) use.name use.block u) := by
  obtain ⟨verdict, w', hrun, -, hiff⟩ := exists_bindTree hw ho hblock hat
  refine ⟨verdict, resolvable_of_resolveReferences hrun, hiff.trans ?_⟩
  constructor
  · exact fun hmet v use huse href hb =>
      hmet use.block hb v use ((ho.heldBy_iff huse).2 rfl) huse href
  · intro hall x hx v use hv huse href
    obtain rfl := (ho.heldBy_iff huse).1 hv
    exact hall v use huse href hx

end BlockGraph.Workspace
