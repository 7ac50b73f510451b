import BlockGraph.Proofs.Scope.Forecast
import BlockGraph.Proofs.Upkeep.Housing

/-!
# Feasible joints

Before a tree is plugged into a socket it is asked whether all its names would be found there, and
the answer comes from a walk up from the socket and one down the tree.  Once it is plugged in, the
whole tree that it has become a part of is walked from its root.  The two agree: what a name of the
lower tree would denote from the socket is what it denotes when the joint is made
(`Plugged.denotes_iff`), since outside the lower tree nothing that names depend on has changed.
-/

namespace BlockGraph.Workspace

open Relation

variable {w w1 w' : Workspace} {b p x : BlockId} {name : String} {v : VariableId}
  {c i o a : ConnectionId} {socket plug : Connection} {block : Block} {at? : Option ConnectionId}

/-! ## Uses without a declaration -/

/-- What is listed as unresolved are the uses in the tree that are bound to nothing. -/
theorem exists_unresolved (hw : w.InOrder) (ho : w.Housed) (hblock : w.blocks[b]? = some block) :
    ∃ found, w.unresolved b = .ok found ∧ ∀ v, v ∈ found ↔ ∃ use, w.vars[v]? = some use ∧
      use.isReference = true ∧ w.Below b use.block ∧ use.binding? = none := by
  obtain ⟨ids, hids, -, hmem⟩ := hw.exists_descendants hblock
  have hof : ∀ x ∈ ids, ∃ references, w.referencesOf x = .ok references ∧
      ∀ v name, (v, name) ∈ references ↔ ∃ use, w.vars[v]? = some use ∧ use.block = x ∧
      use.isReference = true ∧ use.name = name := fun x hx => by
    obtain ⟨found, hfound⟩ := Below.live hblock ((hmem x).1 hx)
    exact exists_referencesOf ho hfound
  obtain ⟨lists, hlists⟩ := exists_mapM_iff.2 fun x hx => (hof x hx).imp fun _ => And.left
  obtain ⟨hleft, hright⟩ := exists_mem_of_forall₂ (mapM_eq_ok.1 hlists)
  have huse : ∀ v, v ∈ lists.flatten.map Prod.fst ↔
      ∃ use, w.vars[v]? = some use ∧ use.isReference = true ∧ w.Below b use.block := by
    intro v
    simp only [List.mem_map, List.mem_flatten]
    constructor
    · rintro ⟨⟨u, name⟩, ⟨references, hreferences, hu⟩, rfl⟩
      obtain ⟨x, hx, heq⟩ := hright references hreferences
      obtain ⟨references', heq', hiff⟩ := hof x hx
      cases heq.symm.trans heq'
      obtain ⟨use, huse, rfl, href, -⟩ := (hiff u name).1 hu
      exact ⟨use, huse, href, (hmem _).1 hx⟩
    · rintro ⟨use, huse, href, hbelow⟩
      obtain ⟨references, hreferences, heq⟩ := hleft _ ((hmem _).2 hbelow)
      obtain ⟨references', heq', hiff⟩ := hof _ ((hmem _).2 hbelow)
      cases heq.symm.trans heq'
      exact ⟨(v, use.name),
        ⟨references, hreferences, (hiff v use.name).2 ⟨use, huse, rfl, href, rfl⟩⟩, rfl⟩
  refine ⟨(lists.flatten.map Prod.fst).filter fun v => (w.boundTo? v).isNone, ?_, fun v => ?_⟩
  · rw [unresolved, hids, ok_bind, hlists, ok_bind]
    refine filterM_eq_ok_filter fun v hv => ?_
    obtain ⟨use, hu, -⟩ := (huse v).1 hv
    rw [getVariable_eq_ok.2 hu, ok_bind, boundTo?, hu, Option.bind_some, pure_eq_ok]
  · rw [List.mem_filter, huse]
    constructor
    · rintro ⟨⟨use, hu, href, hbelow⟩, hnone⟩
      rw [boundTo?, hu, Option.bind_some, Option.isNone_iff_eq_none] at hnone
      exact ⟨use, hu, href, hbelow, hnone⟩
    · rintro ⟨use, hu, href, hbelow, hnone⟩
      exact ⟨⟨use, hu, href, hbelow⟩, by rw [boundTo?, hu, Option.bind_some, hnone]; rfl⟩

/-! ## The joint -/

/-- A tree that stood alone, or in the socket already, was plugged into a socket. -/
structure Plugged (i : ConnectionId) (socket : Connection) (child : BlockId) (w w' : Workspace) :
    Prop extends Linked socket.block child w w' where
  before : w.InOrder
  into : w.connections[i]? = some socket
  plugs : ∀ x c, w'.Plugs x c ↔ if x = child then c = i else w.Plugs x c

theorem plugged_link (hw : w.InOrder) (hgate : w.checkStructure a c = .ok none)
    (horient : w.orient a c = .ok (i, o)) (hi : w.connections[i]? = some socket)
    (ho : w.connections[o]? = some plug) (hlinked : Linked socket.block plug.block w w')
    (h : w.link i o = .ok w') : Plugged i socket plug.block w w' where
  toLinked := hlinked
  before := hw
  into := hi
  plugs x c := by
    obtain ⟨i', o', upper, lower, horient', hpair, -⟩ := hw.linkable hgate
    cases horient.symm.trans horient'
    cases (joint_of_connection ho).symm.trans hpair.plug_eq
    exact plugs_link hw.formed hpair h

namespace Plugged

variable {child : BlockId} (h : Plugged i socket child w w')
include h

theorem parentOf_child : w'.ParentOf socket.block child := (h.parentOf _ _).2 (by rw [if_pos rfl])

theorem parentOf_of_ne (hx : x ≠ child) : w'.ParentOf p x ↔ w.ParentOf p x :=
  by rw [h.parentOf, if_neg hx]

theorem offers_of_ne (hx : x ≠ child) : w'.Offers name p x v ↔ w.Offers name p x v :=
  h.rewires.offers_iff h.before h.inOrder fun c => by rw [h.plugs, if_neg hx]

theorem ne_of_below (hr : w.Below child p) (hp : w.ParentOf p x) : x ≠ child := by
  rintro rfl
  exact h.before.acyclic x (TransGen.tail' hr hp)

theorem below_iff : w'.Below child b ↔ w.Below child b := by
  constructor
  · intro hb
    induction hb with
    | refl => exact .refl
    | @tail p x hr hp ih =>
      have hne : x ≠ child := by
        rintro rfl
        exact h.inOrder.acyclic x (TransGen.tail' hr hp)
      exact ih.tail ((h.parentOf_of_ne hne).1 hp)
  · intro hb
    induction hb with
    | refl => exact .refl
    | tail hr hp ih => exact ih.tail ((h.parentOf_of_ne (h.ne_of_below hr hp)).2 hp)

/-- The owner of the socket does not stand in the tree that was plugged in. -/
theorem not_below : ¬ w.Below child socket.block := fun hb =>
  h.inOrder.acyclic child (TransGen.tail' (h.below_iff.2 hb) h.parentOf_child)

/-- Outside the lower tree names denote what they did. -/
theorem denotes_outside (hb : ¬ w.Below child b) : w'.Denotes name b v ↔ w.Denotes name b v := by
  have hup : ∀ {p b}, ¬ w.Below child b → w.ParentOf p b → ¬ w.Below child p := fun hb hp hr =>
    hb (hr.tail hp)
  have hne : ∀ {b}, ¬ w.Below child b → b ≠ child := by
    rintro b hb rfl
    exact hb .refl
  constructor
  · exact fun hd => hd.congr (T := fun b => ¬ w.Below child b)
      (fun hb hp => hup hb ((h.parentOf_of_ne (hne hb)).1 hp))
      (fun hb hp => ⟨(h.parentOf_of_ne (hne hb)).1 hp, fun _ _ => (h.offers_of_ne (hne hb)).symm⟩)
      hb
  · exact fun hd => hd.congr (T := fun b => ¬ w.Below child b) hup
      (fun hb hp => ⟨(h.parentOf_of_ne (hne hb)).2 hp, fun _ _ => h.offers_of_ne (hne hb)⟩) hb

theorem plugs_child : w'.Plugs child i := (h.plugs _ _).2 (by rw [if_pos rfl])

theorem exists_socket : ∃ socket', w'.connections[i]? = some socket' ∧
    socket'.block = socket.block := by
  obtain ⟨socket', hsocket', -⟩ := h.inOrder.connection_of_plugs h.plugs_child
  exact ⟨socket', hsocket',
    (h.inOrder.parentOf_of_plugs h.plugs_child hsocket').unique h.parentOf_child⟩

theorem declaresInto_iff : w'.DeclaresInto i name v ↔ w.DeclaresInto i name v := by
  obtain ⟨socket', hsocket', hsame⟩ := h.exists_socket
  obtain ⟨block, hblock⟩ := h.before.block_of_connection h.into
  obtain ⟨block', hblock', hinnards⟩ := h.rewires.innards.exists_block_after hblock
  rw [Workspace.declaresInto_iff h.into hblock,
    Workspace.declaresInto_iff hsocket' (by rw [hsame]; exact hblock'), hsame,
    introduces_iff hblock, introduces_iff hblock', Block.kind_of_innards hinnards,
    Block.own?_of_innards hinnards, h.rewires.vars]
  simp only [Block.socket?_of_innards hinnards]

theorem denotesAt_iff : w'.DenotesAt name i v ↔ w.DenotesAt name i v := by
  obtain ⟨socket', hsocket', hsame⟩ := h.exists_socket
  have hat : ∀ {x : Workspace} {s : Connection}, x.connections[i]? = some s →
      (x.DenotesAt name i v ↔ x.DeclaresInto i name v ∨ (∀ u, ¬ x.DeclaresInto i name u) ∧
        x.Denotes name s.block v) := by
    intro x s hs
    constructor
    · rintro ⟨s', hs', hd⟩
      cases hs.symm.trans hs'
      exact hd
    · exact fun hd => ⟨s, hs, hd⟩
  rw [hat hsocket', hat h.into, hsame, h.denotes_outside h.not_below]
  simp only [h.declaresInto_iff]

/-- In the lower tree names denote what they would have denoted from the socket. -/
theorem denotes_iff (hb : w.Below child b) :
    w'.Denotes name b v ↔ w.DenotesFrom child (w.DenotesAt? (some i)) name b v := by
  induction hb generalizing v with
  | refl =>
    rw [h.before.denotesFrom_root,
      h.inOrder.denotes_iff_denotesAt (h.inOrder.plugs_iff.1 h.plugs_child), h.denotesAt_iff]
    simp [DenotesAt?]
  | @tail p x hr hp ih =>
    have hne := h.ne_of_below hr hp
    rw [h.before.denotesFrom_child hr hp, ((h.parentOf_of_ne hne).2 hp).denotes_iff, ih]
    simp only [h.offers_of_ne hne]

end Plugged

/-! ## The gate -/

/-- Two connections that pass the gate are asked for names, if there are types and it is wanted. -/
theorem resolvable_of_checkConnection (htyped : w.isTyped = true)
    (hresolve : w.options.resolveOnConnect = true)
    (hnew : ∀ ca, w.connections[a]? = some ca → ca.target ≠ some c)
    (horient : w.orient a c = .ok (i, o)) (ho : w.connections[o]? = some plug)
    (h : w.checkConnection a c = .ok none) : w.resolvable plug.block (some i) = .ok true := by
  simp only [checkConnection, bind_eq_ok] at h
  obtain ⟨structural, -, h⟩ := h
  cases structural with
  | some error => cases h
  | none =>
    simp only [htyped, Bool.not_true, Bool.false_eq_true, if_false, bind_eq_ok,
      getConnection_eq_ok] at h
    obtain ⟨ca, hca, h⟩ := h
    rw [if_neg (hnew ca hca)] at h
    simp only [checkTyping, horient, ok_bind, getConnection_eq_ok.2 ho, bind_eq_ok] at h
    obtain ⟨socket, -, clash, -, h⟩ := h
    cases clash with
    | some error => cases h
    | none =>
      simp only [hresolve, if_true, bind_eq_ok] at h
      obtain ⟨verdict, hverdict, h⟩ := h
      cases verdict with
      | true => exact hverdict
      | false => cases h

/-- A tree that is joined to a socket where all its names are found has no unresolved use. -/
theorem unresolved_of_connect (hw : w.InOrder) (ho : w.Housed) (htyped : w.isTyped = true)
    (hresolve : w.options.resolveOnConnect = true) (h : w.connect a c = .ok (none, w'))
    (hnew : ∀ ca, w.connections[a]? = some ca → ca.target ≠ some c) :
    ∃ i o plug, w.orient a c = .ok (i, o) ∧ w.connections[o]? = some plug ∧ w'.Plugs plug.block i ∧
      w'.unresolved plug.block = .ok [] := by
  have horderly := (checkClosed_orderly (Q := fun _ _ => True) fun _ _ _ _ _ => trivial).connect
    ⟨hw, ho, fun _ => trivial⟩ h
  rcases connect_cases hw h with ⟨-, hjoined⟩ |
    ⟨i, o, socket, plug, w1, -, hgate, horient, hi, hplug, hlink, hlinked, hrefresh⟩
  · obtain ⟨ca, hca, htarget⟩ := hjoined rfl
    exact absurd htarget (hnew ca hca)
  have hplugged := plugged_link hw (checkStructure_of_checkConnection hgate) horient hi hplug
    hlinked hlink
  have hrebound := hlinked.inOrder.rebound_refresh hrefresh
  have htyped1 : w1.isTyped = true := (isTyped_congr hlinked.rewires.innards.options).trans htyped
  obtain ⟨block, hblock⟩ := hw.block_of_connection hplug
  obtain ⟨block1, hblock1, -⟩ := hlinked.rewires.innards.exists_block_after hblock
  obtain ⟨verdict, hverdict, hmet⟩ := exists_resolvable hw ho hblock fun _ hc =>
    Option.some.inj hc ▸ ⟨socket, hi⟩
  cases (resolvable_of_checkConnection htyped hresolve hnew horient hplug hgate).symm.trans hverdict
  obtain ⟨found, hfound, hmem⟩ := exists_unresolved horderly.inOrder horderly.housed
    (show w'.blocks[plug.block]? = some block1 by rw [hrebound.blocks]; exact hblock1)
  refine ⟨i, o, plug, horient, hplug, ?_, ?_⟩
  · rw [plugs_of_skeleton (keeps_refresh hrefresh).skeleton_eq]
    exact hplugged.plugs_child
  -- a use in the lower tree was found before the joint, so it was bound after it
  rw [hfound]
  refine congrArg _ (List.eq_nil_iff_forall_not_mem.2 fun v hv => ?_)
  obtain ⟨use, huse, href, hbelow, hnone⟩ := (hmem v).1 hv
  obtain ⟨old, hold, hname, hsame, href'⟩ := hrebound.bare.exists_var huse
  rw [hrebound.below_iff, hsame] at hbelow
  have hbound := (ho.keeps hlinked.rewires.innards).boundAt_of_refresh hlinked.inOrder htyped1
    hrefresh (List.mem_singleton_self _) hblock1 hold hbelow
  rw [hplugged.below_iff] at hbelow
  obtain ⟨u, hu⟩ := hmet.1 rfl v old (hlinked.rewires.vars ▸ hold) (href'.symm.trans href) hbelow
  have hdenotes := hrebound.denotes_iff.2 ((hplugged.denotes_iff hbelow).2 hu)
  cases hnone.symm.trans ((hbound use huse href u).2 (hname ▸ hdenotes))

/-! ## Asking and binding -/

/-- Whatever edits, moves of inputs and bindings by hand have led to, every walk through scopes
gives an answer.  Asking whether the names below a block would be found, were it plugged into a
connection or into none, answers as binding them there does.  Binding them gives every use below the
block what its name denotes from there, or nothing if it denotes nothing, and changes nothing else.
So where names are asked for before blocks are joined, a tree that was joined has no unresolved
use. -/
theorem resolvable_foretells_resolveReferences (hw : w.ReachableBy Call.IsRebinding) :
    (∀ (b : BlockId) (block : Block) (at? : Option ConnectionId), w.blocks[b]? = some block →
      (∀ c, at? = some c → ∃ connection, w.connections[c]? = some connection) →
      ∃ verdict w', w.resolvable b at? = .ok verdict ∧
        w.resolveReferences b at? = .ok (verdict, w') ∧ Rebinds (w.Below b) w w' ∧
        (∀ (v : VariableId) (use : Variable), w'.vars[v]? = some use → w.Below b use.block →
          w'.BoundBy (w.DenotesFrom b (w.DenotesAt? at?)) v use.block) ∧
        (verdict = true ↔ ∀ (v : VariableId) (use : Variable), w.vars[v]? = some use →
          use.isReference = true → w.Below b use.block →
          ∃ u, w.DenotesFrom b (w.DenotesAt? at?) use.name use.block u)) ∧
    (w.isTyped = true → w.options.resolveOnConnect = true → ∀ (a c : ConnectionId) (w' : Workspace),
      w.connect a c = .ok (none, w') → (∀ ca, w.connections[a]? = some ca → ca.target ≠ some c) →
      ∃ i o plug, w.orient a c = .ok (i, o) ∧ w.connections[o]? = some plug ∧
        w'.Plugs plug.block i ∧ w'.unresolved plug.block = .ok []) := by
  obtain ⟨hin, ho, -⟩ := hw.orderly
  refine ⟨fun b block at? hblock hat => ?_, fun htyped hresolve a c w' hconnect hnew =>
    unresolved_of_connect hin ho htyped hresolve hconnect hnew⟩
  obtain ⟨verdict, w', hresolve, hrebound⟩ := exists_resolveReferences hin ho hblock hat
  have hask := resolvable_of_resolveReferences hresolve
  obtain ⟨verdict', hask', hiff⟩ := exists_resolvable hin ho hblock hat
  cases hask.symm.trans hask'
  obtain ⟨hrebinds, hbound⟩ := hrebound.spec ho (binds_resolveReferences hresolve)
  exact ⟨verdict, w', hask, hresolve, hrebinds, hbound, hiff⟩

/-- A use that was bound by hand to the parameter of a function it does not stand in: from where it
stands the name is not found, and binding it there unbinds it.  In the function it is found. -/
theorem resolvable_foretells_resolveReferences_lambda : ∃ w w1 w' : Workspace,
    [Call.newBlock .lambda, .newBlock .variablesGet,
      .resolveReferences ⟨2⟩ (some ⟨1⟩)].foldlM Call.run (Workspace.new {}) = .ok w ∧
      w.boundTo? ⟨1⟩ = some ⟨0⟩ ∧ w.resolvable ⟨2⟩ none = .ok false ∧
    w.resolveReferences ⟨2⟩ none = .ok (false, w1) ∧ w1.boundTo? ⟨1⟩ = none ∧
    w.connect ⟨1⟩ ⟨2⟩ = .ok (none, w') ∧ w'.unresolved ⟨2⟩ = .ok [] := by
  obtain ⟨w, hrun, ⟨htyped, hresolve⟩, hbound, hlive, hfalse, hunbound, hconnect, horient, hnew,
      howner⟩ : ∃ w, [Call.newBlock .lambda, .newBlock .variablesGet,
      .resolveReferences ⟨2⟩ (some ⟨1⟩)].foldlM Call.run
        (Workspace.new {}) = .ok w ∧ (w.isTyped = true ∧ w.options.resolveOnConnect = true) ∧
      w.boundTo? ⟨1⟩ = some ⟨0⟩ ∧ w.blocks[(⟨2⟩ : BlockId)]?.isSome = true ∧
      (w.resolvable ⟨2⟩ none).toOption = some false ∧
      (w.resolveReferences ⟨2⟩ none).toOption.any (fun r => decide (r.2.boundTo? ⟨1⟩ = none)) =
        true ∧
      (w.connect ⟨1⟩ ⟨2⟩).toOption.any (fun r => decide (r.1.isNone = true)) = true ∧
      (w.orient ⟨1⟩ ⟨2⟩).toOption = some (⟨1⟩, ⟨2⟩) ∧
      (∀ socket ∈ w.connections[(⟨1⟩ : ConnectionId)]?, socket.target ≠ some ⟨2⟩) ∧
      ∀ plug ∈ w.connections[(⟨2⟩ : ConnectionId)]?, plug.block = ⟨2⟩ :=
    exists_ok_of_any (by decide +kernel)
  have hw : w.ReachableBy Call.IsRebinding :=
    (ReachableBy.new {}).foldlM (by simp [Call.IsRebinding, Call.IsReordering, Call.IsEdit]) hrun
  obtain ⟨block, hblock⟩ := Option.isSome_iff_exists.1 hlive
  obtain ⟨hask, hjoin⟩ := resolvable_foretells_resolveReferences hw
  obtain ⟨verdict, w1, hverdict, hbind, -⟩ := hask ⟨2⟩ block none hblock (by simp)
  cases (toOption_eq_some_iff.1 hfalse).symm.trans hverdict
  obtain ⟨_, hbind', hnone⟩ := exists_ok_of_any hunbound
  cases hbind.symm.trans hbind'
  obtain ⟨⟨answer, w'⟩, hconnect, hok⟩ := exists_ok_of_any hconnect
  obtain rfl : answer = none := by simpa using hok
  obtain ⟨i, o, plug, horient', hplug, -, hunresolved⟩ :=
    hjoin htyped hresolve ⟨1⟩ ⟨2⟩ w' hconnect hnew
  cases (toOption_eq_some_iff.1 horient).symm.trans horient'
  rw [howner plug hplug] at hunresolved
  exact ⟨w, w1, w', hrun, hbound, toOption_eq_some_iff.1 hfalse, hbind, hnone, hconnect,
    hunresolved⟩

end BlockGraph.Workspace
