import BlockGraph.Proofs.Inference.Instances
import BlockGraph.Proofs.Ty.Principal
import BlockGraph.Proofs.Upkeep.Types

/-!
# The gate is adequate

The gate looks at the types of two connections, while afterwards the whole tree that comes about is
inferred from nothing.  `errorFree_of_connect` is the main statement: if neither tree has an error
and all uses in the one that is plugged in are bound, then the tree that comes about has no error.

Trees up to date without an error are solved by every solution of the type table (`Upheld.solves`).
The gate lets two connections pass if some solution makes their types equal, and this one also
solves the tree that comes about (`Grafted.solves`): the uses in the plugged-in tree keep their
declarations, because these are inside it and so nearer than any other.
-/

namespace BlockGraph.Workspace

open Relation

variable {a b p x r : BlockId} {c : ConnectionId} {v : VariableId} {ca cb : Connection}
  {θ : Nat → Ty} {w w1 w2 w' : Workspace} {Q : Block → Prop} {τ : Typing} {name : String}
  {π : Equiv.Perm Nat} {block : Block}

/-! ## Solutions of trees that are up to date -/

/-- Blocks that have the inputs of their kinds, and uses bound within the tree. -/
theorem Standing.keepsTree (hs : Standing Q w) (hQ : ∀ {block}, Q block → block.Laid)
    (hlocal : w.Local r) : w.KeepsTree r where
  layout _ hblock := hs.owned.keepsLayout hblock (hQ (hs.block hblock))
  bound := by
    rintro b c u hb ⟨block, v, use, hblock, -, -, hown, hv, hbinding⟩
    obtain ⟨found, hfound, howner, -⟩ := hs.owned.var hblock ((ownVariable_eq_ok hblock).1 hown)
    cases hv.symm.trans hfound
    obtain ⟨value, hu, hdeclared, hbelow⟩ := hlocal hv (howner ▸ hb) hbinding
    obtain ⟨binder, hbinder, hkind, hown'⟩ := hs.owned.binder hu hdeclared
    exact ⟨value.block, binder, hbelow, hbinder, hkind, (ownVariable_eq_ok hbinder).2 hown'⟩

theorem AgreeUpTo.errorFree_iff (h : AgreeUpTo π r w w') (hgraph : SameGraph w w') :
    w'.ErrorFree r ↔ w.ErrorFree r := by
  have hsame : ∀ {c : ConnectionId} {old new : Connection}, w.connections[c]? = some old →
      w'.connections[c]? = some new → w.Below r old.block →
      (new.error = none ↔ old.error = none) := by
    intro c old new hold hnew hbelow
    have herror := h.error c ⟨old, hold, hbelow⟩
    rw [slotError, slotError, hnew, hold, Option.bind_some, Option.bind_some] at herror
    rw [herror, Option.map_eq_none_iff]
  constructor
  · intro hfree c old hold hbelow
    obtain ⟨new, hnew, howner, -⟩ := hgraph.connection hold
    exact (hsame hold hnew hbelow).1
      (hfree c new hnew (by rw [hgraph.below_eq, howner]; exact hbelow))
  · intro hfree c new hnew hbelow
    obtain ⟨old, hold, howner, -⟩ := hgraph.symm.connection hnew
    rw [hgraph.below_eq, ← howner] at hbelow
    exact (hsame hold hnew hbelow).2 (hfree c old hold hbelow)

theorem exists_of_binderType? {ty : Ty} (h : w.binderType? v = .ok (some ty)) :
    ∃ expr, w.variableType? v = .ok (some expr) ∧ w.types.resolve expr = .ok ty := by
  rw [binderType?, bind_eq_ok] at h
  obtain ⟨type, htype, h⟩ := h
  cases type with
  | none => cases h
  | some expr =>
    simp only [Table.resolve?, bind_eq_ok] at h
    obtain ⟨ty', hresolve, hty⟩ := h
    cases hty
    exact ⟨expr, htype, hresolve⟩

/-- What a tree shows after its variables were renamed, it showed before under the old names. -/
theorem AgreeUpTo.shows (h : AgreeUpTo π r w w') (hgraph : SameGraph w w')
    (hshows : w'.Shows r τ) : w.Shows r (τ.subst fun v => .var (π.symm v)) := by
  have hback : ∀ {ty : Option Ty} {t : Ty}, Except.ok (ε := Fault) (ty.map (Ty.rename π)) =
      .ok (some t) → ty = some (t.subst fun v => .var (π.symm v)) := by
    intro ty t heq
    obtain ⟨t', rfl, rfl⟩ := Option.map_eq_some_iff.1 (Except.ok.inj heq)
    exact congrArg some (Ty.rename_of_inverse (T := fun _ => True) (fun u _ => π.symm_apply_apply u)
      fun _ _ => trivial).symm
  constructor
  · intro c hc
    obtain ⟨connection, hlook, -, hbelow⟩ := id hc
    obtain ⟨ty, htype, htype'⟩ := h.type c ⟨connection, hlook, hbelow⟩
    rw [htype, hback (htype'.symm.trans (hshows.socket (hgraph.socketBelow hc)))]
    rfl
  · intro u hu
    obtain ⟨ty, htype, htype'⟩ := h.binder u hu
    obtain ⟨expr, hexpr, hresolve⟩ := hshows.binder (hgraph.binderBelow hu)
    have hshown : w'.binderType? u = .ok (some (τ.binder u)) := by
      simp [binderType?, hexpr, Table.resolve?, hresolve]
    rw [hback (htype'.symm.trans hshown)] at htype
    exact exists_of_binderType? htype

namespace Upheld

variable (h : Upheld Q True w) (hQ : ∀ {block}, Q block → block.Laid) (htyped : w.isTyped = true)
  (hr : r ∈ w.top) (hfree : w.ErrorFree r)
include h hQ htyped hr hfree

/-- The resolved types of a tree without an error solve it, and every other solution is an instance
of them. -/
theorem exists_principal :
    ∃ τ : Typing, τ.Solves w r ∧ w.Shows r τ ∧
      ∀ τ' : Typing, τ'.Solves w r → ∃ σ, τ'.Agrees (τ.subst σ) w r := by
  have hw := h.standing.inOrder
  have hkeeps := h.standing.keepsTree hQ (h.here htyped r hr id)
  obtain ⟨ty, w', π, hreinfer, hagree⟩ := h.exists_reinfer htyped hr
  have hgraph := (retypes_reinfer hreinfer).sameGraph
  obtain ⟨τ, hsolves, hshows, hprincipal⟩ :=
    Workspace.exists_principal hw htyped (hw.live_of_top hr) hkeeps hreinfer
      ((hagree.errorFree_iff hgraph).2 hfree)
  refine ⟨_, hsolves.subst _, hagree.shows hgraph hshows, fun τ' hτ' => ?_⟩
  obtain ⟨σ, hσ⟩ := hprincipal τ' hτ'
  -- the variables are renamed back before they are replaced
  have hback : ∀ ty : Ty, (ty.subst fun v => .var (π.symm v)).subst (fun v => σ (π v)) =
      ty.subst σ := fun ty => by
    rw [Ty.subst_subst]
    simp only [Ty.subst_var, Equiv.apply_symm_apply]
  exact ⟨fun v => σ (π v), fun hc => (hσ.socket hc).trans (hback _).symm,
    fun hu => (hσ.binder hu).trans (hback _).symm⟩

theorem exists_shown : ∃ τ : Typing, τ.Solves w r ∧ w.Shows r τ := by
  obtain ⟨τ, hsolves, hshows, -⟩ := h.exists_principal hQ htyped hr hfree
  exact ⟨τ, hsolves, hshows⟩

/-- Every solution of the table solves a tree without an error. -/
theorem solves (hθ : w.types.Solution θ) : (w.reading θ).Solves w r := by
  obtain ⟨τ, hsolves, hshows⟩ := h.exists_shown hQ htyped hr hfree
  exact hshows.solves_reading h.standing.inOrder (h.standing.keepsTree hQ (h.here htyped r hr id))
    hsolves hθ

end Upheld

/-! ## Joining two trees -/

/-- What a block asks of a typing depends on what it is made of. -/
theorem fits_of_innards {old : Block} (hblock : w2.blocks[b]? = some block)
    (hold : w.blocks[b]? = some old) (heq : block.innards = old.innards) (hfits : τ.Fits w b old) :
    τ.Fits w2 b block := by
  obtain ⟨σ, hsocket, hbinder⟩ := hfits
  rw [Typing.Fits, Block.kind_of_innards heq]
  refine ⟨σ, fun c ty hc => hsocket c ty ?_, fun v ty hty hv => hbinder v ty hty ?_⟩
  · rw [Block.Declares, Block.kind_of_innards heq, Block.output_of_innards heq] at hc
    refine hc.imp_left ?_
    rintro ⟨input, hinput, hconnection, htype⟩
    have hinputs : block.inputs.map Input.essence = old.inputs.map Input.essence :=
      Block.inputs_of_innards heq
    obtain ⟨input', hinput', hsame⟩ := List.mem_map.1 (hinputs ▸ List.mem_map_of_mem hinput)
    have hname : input'.essence.name = input.essence.name := by rw [hsame]
    have hconnection' : input'.essence.connection = input.essence.connection := by rw [hsame]
    exact ⟨input', hinput', hconnection'.trans hconnection, hname ▸ htype⟩
  · rw [ownVariable_eq_ok hold, ← Block.own?_of_innards heq]
    exact (ownVariable_eq_ok hblock).1 hv

/-- Every use in the tree of `r` is bound. -/
def Closed (w : Workspace) (r : BlockId) : Prop :=
  ∀ (v : VariableId) (use : Variable), w.vars[v]? = some use → use.isReference = true →
    w.Below r use.block → ∃ u, use.binding? = some u

/-- Two free connections were joined. -/
structure Grafted (i o : ConnectionId) (socket plug : Connection) (w w' : Workspace) : Prop where
  inOrder : w.InOrder
  socket_eq : w.connections[i]? = some socket
  plug_eq : w.connections[o]? = some plug
  linked : Linked socket.block plug.block w w'
  pairing : w.skeleton.Pairing i o socket.joint plug.joint
  socket_free : socket.target = none
  plug_free : plug.target = none
  skeleton_eq : w'.skeleton = w.skeleton.rewire i o socket.block plug.block true

namespace Grafted

variable {i o : ConnectionId} {socket plug : Connection} (h : Grafted i o socket plug w w')
include h

theorem joined_cases {t : ConnectionId} {j : Joint} (hj : w'.skeleton.joint c = some j)
    (ht : j.target = some t) :
    c = i ∧ t = o ∨ c = o ∧ t = i ∨ w.skeleton.joint c = some j ∧ t ≠ i ∧ t ≠ o := by
  rw [h.skeleton_eq] at hj
  rcases h.pairing.joined_cases hj ht with ⟨-, hc, ht, -⟩ | ⟨-, hc, ht, -⟩ | ⟨hi, ho, hj⟩
  · exact .inl ⟨hc, ht⟩
  · exact .inr (.inl ⟨hc, ht⟩)
  · exact .inr (.inr ⟨hj, h.pairing.target_ne h.inOrder.formed.wired hj ht hi ho⟩)

theorem plug_mem_top : plug.block ∈ w.top :=
  h.inOrder.mem_top_of_free h.plug_eq h.pairing.isSuperior h.plug_free

theorem not_parentOf_plug (p : BlockId) : ¬ w.ParentOf p plug.block :=
  not_parentOf_of_mem_top h.inOrder h.plug_mem_top p

theorem parentOf_of_ne (hb : b ≠ plug.block) : w'.ParentOf p b ↔ w.ParentOf p b := by
  rw [h.linked.parentOf, if_neg hb]

theorem below_cases (hb : w'.Below a b) : w.Below a b ∨ w.Below plug.block b := by
  induction hb with
  | refl => exact .inl .refl
  | @tail b c _ hc ih =>
    by_cases heq : c = plug.block
    · exact .inr (heq ▸ .refl)
    · have hc := (h.parentOf_of_ne heq).1 hc
      exact ih.imp (·.tail hc) (·.tail hc)

/-- What stood above a block still does. -/
theorem below (hb : w.Below a b) : w'.Below a b := ReflTransGen.mono
    (fun p _ hp => (h.parentOf_of_ne fun heq => h.not_parentOf_plug p (heq ▸ hp)).2 hp) _ _ hb

theorem below_plug (ha : w.Below a socket.block) : w'.Below a plug.block :=
  (h.below ha).tail ((h.linked.parentOf _ _).2 (by rw [if_pos rfl]))

/-! ### Names -/

theorem offers_iff (hb : b ≠ plug.block) : w'.Offers name p b v ↔ w.Offers name p b v := by
  refine h.linked.rewires.offers_iff h.inOrder h.linked.inOrder fun c => ?_
  rw [plugs_rewire h.inOrder.formed h.pairing h.skeleton_eq]
  exact iff_of_eq (if_neg hb)

/-- Outside the tree that was plugged in, names denote what they did. -/
theorem denotes_outside (hb : ¬ w.Below plug.block b) (hd : w'.Denotes name b v) :
    w.Denotes name b v := by
  have hne : ∀ {x}, ¬ w.Below plug.block x → x ≠ plug.block := fun hx heq => hx (heq ▸ .refl)
  refine hd.congr (T := fun x => ¬ w.Below plug.block x) (fun {p x} hx hp => ?_)
    (fun {p x} hx hp => ?_) hb
  · exact fun habove => hx (habove.tail ((h.parentOf_of_ne (hne hx)).1 hp))
  · exact ⟨(h.parentOf_of_ne (hne hx)).1 hp, fun _ _ => (h.offers_iff (hne hx)).symm⟩

/-- Inside it, what a name denoted it denotes still. -/
theorem denotes_inside (hb : w.Below plug.block b) (hd : w.Denotes name b v) :
    w'.Denotes name b v := by
  have hne : ∀ {p x}, w.ParentOf p x → x ≠ plug.block := fun hp heq =>
    h.not_parentOf_plug _ (heq ▸ hp)
  refine hd.congr (T := w.Below plug.block) (fun {p x} hx hp => ?_) (fun {p x} hx hp => ?_) hb
  · exact (hx.of_parentOf hp).resolve_left fun heq => hne hp heq.symm
  · exact ⟨(h.parentOf_of_ne (hne hp)).2 hp, fun _ _ => h.offers_iff (hne hp)⟩

/-! ### Equations -/

variable (ho : w.Owned) {A : BlockId → Prop} (hrebinds : Rebinds A w' w2)

include hrebinds

/-- A block of the tree that came about was there before. -/
theorem exists_old (hb : w2.Below r b) (hblock : w2.blocks[b]? = some block) :
    (w.Below r b ∨ w.Below plug.block b) ∧ ∃ old, w.blocks[b]? = some old ∧
    block.innards = old.innards := by
  refine ⟨h.below_cases (hrebinds.below_iff.1 hb), h.linked.rewires.innards.exists_block ?_⟩
  rw [hrebinds.rest] at hblock
  exact hblock

/-- The sockets of a block hold what they held, but for the one that was filled. -/
theorem linksAt (hlinks : τ.LinksAt w b)
    (heq : socket.kind = .inputValue → τ.socket i = τ.socket o) : τ.LinksAt w2 b := by
  intro c t connection hc hkind hb ht
  rw [hrebinds.rest] at hc
  have hj : w'.skeleton.joint c = some connection.joint := joint_of_connection hc
  rcases h.joined_cases hj ht with ⟨rfl, rfl⟩ | ⟨rfl, -⟩ | ⟨hj, -⟩
  · rw [h.skeleton_eq] at hj
    have hsame := (h.pairing.joint_inferior true).symm.trans hj
    exact heq ((congrArg Joint.kind (Option.some.inj hsame)).trans hkind)
  · rw [h.skeleton_eq] at hj
    have hsame := (h.pairing.joint_superior true).symm.trans hj
    have hplug : plug.kind = .inputValue :=
      (congrArg Joint.kind (Option.some.inj hsame)).trans hkind
    have hsup : plug.kind.isSuperior = true := h.pairing.isSuperior
    rw [hplug] at hsup
    cases hsup
  · obtain ⟨old, hold, hjoint⟩ := joint_eq_some_iff.1 hj
    exact hlinks hold ((congrArg Joint.kind hjoint).trans hkind)
      ((congrArg Joint.block hjoint).trans hb) ((congrArg Joint.target hjoint).trans ht)

include ho in
/-- A use is bound to what it was bound to. -/
theorem useAt (hscoped : w.Scoped r) (hplugged : w.Scoped plug.block)
    (hclosed : w.Closed plug.block) (hscoped2 : w2.Scoped r) (hb : w2.Below r b) {u : VariableId}
    (huse : w2.UseAt b c u) : w.UseAt b c u := by
  obtain ⟨block, v, use, hblock, hkind, hout, hown, hv, hbinding⟩ := huse
  obtain ⟨htree, old, hold, heq⟩ := h.exists_old hrebinds hb hblock
  rw [ownVariable_eq_ok hblock, Block.own?_of_innards heq] at hown
  rw [Block.kind_of_innards heq] at hkind
  obtain ⟨found, hfound, howner, hreference⟩ := ho.var hold hown
  obtain ⟨found', hfound', hname, hblock', href⟩ := hrebinds.bare.exists_var hv
  rw [h.linked.rewires.vars] at hfound'
  cases hfound'.symm.trans hfound
  have hisuse : found.isReference = true := hreference.2 hkind
  refine ⟨old, v, found, hold, hkind, Block.output_of_innards heq ▸ hout,
    (ownVariable_eq_ok hold).2 hown, hfound, ?_⟩
  have hdenotes := (hscoped2 v use hv (by rw [hblock', howner]; exact hb) use hv (href.trans hisuse)
    u).1 hbinding
  rw [hname, hblock', howner, hrebinds.denotes_iff] at hdenotes
  subst howner
  by_cases hinside : w.Below plug.block found.block
  · obtain ⟨u', hu'⟩ := hclosed v found hfound hisuse hinside
    have hd := (hplugged v found hfound hinside found hfound hisuse u').1 hu'
    rw [hu', (h.denotes_inside hinside hd).unique hdenotes]
  · exact (hscoped v found hfound (htree.resolve_right hinside) found hfound hisuse u).2
      (h.denotes_outside hinside hdenotes)

include ho in
/-- A typing that solves both trees, and gives the two connections one type, solves the tree that
came about. -/
theorem solves (hsolves : τ.Solves w r) (hsolves' : τ.Solves w plug.block)
    (heq : socket.kind = .inputValue → τ.socket i = τ.socket o)
    (hscoped : w.Scoped r) (hplugged : w.Scoped plug.block) (hclosed : w.Closed plug.block)
    (hscoped2 : w2.Scoped r) : τ.Solves w2 r where
  link hb := by
    refine h.linksAt hrebinds ?_ heq
    rcases h.below_cases (hrebinds.below_iff.1 hb) with hb | hb
    · exact hsolves.link hb
    · exact hsolves'.link hb
  use {b} hb {c u} huse := by
    have hold := h.useAt ho hrebinds hscoped hplugged hclosed hscoped2 hb huse
    rcases h.below_cases (hrebinds.below_iff.1 hb) with hb | hb
    · exact hsolves.use hb hold
    · exact hsolves'.use hb hold
  shape hb hblock := by
    obtain ⟨hb | hb, old, hold, heq⟩ := h.exists_old hrebinds hb hblock
    · exact fits_of_innards hblock hold heq (hsolves.shape hb hold)
    · exact fits_of_innards hblock hold heq (hsolves'.shape hb hold)

end Grafted

/-! ## What the gate finds -/

/-- A trial tells whether some solution of the table makes two types equal. -/
theorem exists_unifiable {t : Table} (ht : t.Sound) {a b : Ty} (ha : t.Covers a) (hb : t.Covers b) :
    ∃ verdict, t.unifiable a b = .ok verdict ∧
      (verdict = true ↔ ∃ θ, t.Solution θ ∧ a.subst θ = b.subst θ) := by
  rcases Context.unify_cases (c := ⟨t, []⟩) ht ha hb with
    ⟨t', hunify, -, -, hsolvable, -⟩ | ⟨clash, t', hunify, hsolvable⟩
  · exact ⟨true, by rw [Table.unifiable, hunify], iff_of_true rfl hsolvable⟩
  · exact ⟨false, by rw [Table.unifiable, hunify], iff_of_false Bool.false_ne_true hsolvable⟩

/-- If types do not clash, some solution makes them equal. -/
theorem exists_solution_of_typeClash (hsound : w.types.Sound) {socket plug : Connection}
    (hsocket : ∀ ty, socket.type = some ty → w.types.Covers ty)
    (hplug : ∀ ty, plug.type = some ty → w.types.Covers ty)
    (h : w.typeClash socket plug = .ok none) :
    ∃ θ, w.types.Solution θ ∧ ∀ expected found, socket.type = some expected →
      plug.type = some found → expected.subst θ = found.subst θ := by
  rw [typeClash] at h
  split at h
  case h_1 expected found hexpected hfound =>
    obtain ⟨verdict, hverdict, hiff⟩ :=
      exists_unifiable hsound (hsocket expected hexpected) (hplug found hfound)
    rw [hverdict, ok_bind] at h
    cases verdict with
    | false =>
      simp only [Bool.false_eq_true, if_false, bind_eq_ok] at h
      obtain ⟨_, -, _, -, h⟩ := h
      cases h
    | true =>
      obtain ⟨θ, hθ, heq⟩ := hiff.1 rfl
      refine ⟨θ, hθ, fun x y hx hy => ?_⟩
      cases hexpected.symm.trans hx
      cases hfound.symm.trans hy
      exact heq
  case h_2 hnone =>
    exact ⟨_, hsound.solution_image,
      fun expected found hx hy => absurd hy (hnone expected found hx)⟩

/-- Connections that are joined belong to one tree. -/
theorem InOrder.root_eq_of_target (hw : w.InOrder) {a b : ConnectionId}
    (hca : w.connections[a]? = some ca) (hcb : w.connections[b]? = some cb)
    (htarget : ca.target = some b) {ra rb : BlockId} (hra : ra ∈ w.top) (hrb : rb ∈ w.top)
    (ha : w.Below ra ca.block) (hb : w.Below rb cb.block) : ra = rb := by
  have hback := hw.formed.wired.target_back (joint_of_connection hca) htarget
    (joint_of_connection hcb)
  have hside := hw.formed.wired.isSuperior_target (joint_of_connection hca) htarget
    (joint_of_connection hcb)
  by_cases hsup : ca.kind.isSuperior = true
  · have hp := parentOf_of_target hw.formed hca hsup htarget hcb
    exact hw.root_unique hra hrb ha (hb.tail hp)
  · have hsup' : cb.kind.isSuperior = true := hside.trans (by simpa [Connection.joint] using hsup)
    have hp := parentOf_of_target hw.formed hcb hsup' hback hca
    exact hw.root_unique hra hrb (ha.tail hp) hb

/-- What joining two connections consists of that were not joined before. -/
theorem exists_link_of_connect (hw : w.InOrder) {a b : ConnectionId}
    (hca : w.connections[a]? = some ca) (hfree : ca.target ≠ some b)
    (h : w.connect a b = .ok (none, w')) :
    ∃ i o socket plug w1, w.checkConnection a b = .ok none ∧ w.orient a b = .ok (i, o) ∧
      w.link i o = .ok w1 ∧ Grafted i o socket plug w w1 ∧ w1.refresh [plug.block] = .ok w' := by
  simp only [connect, bind_eq_ok] at h
  obtain ⟨answer, hgate, h⟩ := h
  split at h
  case h_1 => cases h
  case h_2 =>
    simp only [getConnection_eq_ok.2 hca, ok_bind, if_neg hfree, bind_eq_ok] at h
    obtain ⟨⟨i, o⟩, horient, w1, hlink, plug', hplug', w2, hrefresh, h⟩ := h
    cases h
    have hstructure := checkStructure_of_checkConnection hgate
    obtain ⟨socket, plug, hi, ho, howner, hlinked⟩ := exists_linked hw hstructure horient hlink
    rw [howner plug' (getConnection_eq_ok.1 hplug')] at hrefresh
    obtain ⟨i', o', j, j', horient', hpair, -⟩ := hw.linkable hstructure
    cases horient.symm.trans horient'
    cases hpair.socket_eq.symm.trans (joint_of_connection hi)
    cases hpair.plug_eq.symm.trans (joint_of_connection ho)
    have hwired := hw.formed.wired
    have hapart : plug.target ≠ some i := by
      intro htarget
      have hback := hwired.target_back hpair.plug_eq htarget hpair.socket_eq
      have horient := (orient_eq (b := b) hca).symm.trans horient
      split at horient
      · cases horient
        cases hca.symm.trans ho
        exact hfree htarget
      · cases horient
        cases hca.symm.trans hi
        exact hfree hback
    refine ⟨i, o, socket, plug, w1, hgate, horient, hlink, ⟨hw, hi, ho, hlinked, hpair, ?_,
      hpair.plug_target.resolve_right hapart, (skeleton_link hpair hlink).1⟩, hrefresh⟩
    exact hpair.socket_target.resolve_right fun htarget =>
      hapart (hwired.target_back hpair.socket_eq htarget hpair.plug_eq)

/-- What joining two free connections consists of. -/
theorem exists_grafted (hw : w.InOrder) (htyped : w.isTyped = true) {a b : ConnectionId}
    (hca : w.connections[a]? = some ca) (hcb : w.connections[b]? = some cb)
    (hfree : ca.target ≠ some b) (h : w.connect a b = .ok (none, w')) : ∃ i o socket plug w1,
      (if ca.kind.isSuperior then i = b ∧ o = a ∧ socket = cb ∧ plug = ca
        else i = a ∧ o = b ∧ socket = ca ∧ plug = cb) ∧
      Grafted i o socket plug w w1 ∧ w.typeClash socket plug = .ok none ∧
      w1.refresh [plug.block] = .ok w' := by
  obtain ⟨i, o, socket, plug, w1, hgate, horient, -, hgrafted, hrefresh⟩ :=
    exists_link_of_connect hw hca hfree h
  have hi := hgrafted.socket_eq
  have ho := hgrafted.plug_eq
  have hclash : w.typeClash socket plug = .ok none := by
    simp only [checkConnection, checkStructure_of_checkConnection hgate, ok_bind, htyped,
      getConnection_eq_ok.2 hca, if_neg hfree, checkTyping, horient, getConnection_eq_ok.2 hi,
      getConnection_eq_ok.2 ho, Bool.not_true, Bool.false_eq_true, if_false, bind_eq_ok] at hgate
    obtain ⟨clash, hclash, hgate⟩ := hgate
    cases clash with
    | none => exact hclash
    | some error => cases hgate
  refine ⟨i, o, socket, plug, w1, ?_, hgrafted, hclash, hrefresh⟩
  rw [orient_eq hca] at horient
  by_cases hsup : ca.kind.isSuperior = true
  · rw [if_pos hsup] at horient ⊢
    cases horient
    exact ⟨rfl, rfl, Option.some.inj (hi.symm.trans hcb), Option.some.inj (ho.symm.trans hca)⟩
  · rw [if_neg hsup] at horient ⊢
    cases horient
    exact ⟨rfl, rfl, Option.some.inj (hi.symm.trans hca), Option.some.inj (ho.symm.trans hcb)⟩

/-! ## The tree that comes about -/

theorem Upheld.errorFree_compactTypes (h : Upheld Q True w) (htyped : w.isTyped = true)
    (hr : r ∈ w.top) (hfree : w.ErrorFree r) (hrun : w.compactTypes = .ok w') : w'.ErrorFree r := by
  rcases compactTypes_cases hrun with rfl | hrebuild
  · exact hfree
  · obtain ⟨w'', π, hrebuild', hagree⟩ := h.agreeUpTo_rebuildTypes htyped
    cases hrebuild.symm.trans hrebuild'
    exact ((hagree r hr).errorFree_iff (retypes_rebuildTypes hrebuild).sameGraph).2 hfree

namespace Grafted

variable {i o : ConnectionId} {socket plug : Connection} (h : Grafted i o socket plug w w1)
  (hr : r ∈ w.top) (hbelow : w.Below r socket.block) (hapart : r ≠ plug.block)
include h hr hapart

omit hr hapart in
/-- Sockets of trees without errors have types, and the solution makes them equal. -/
theorem reading_eq (hbelow : w.Below r socket.block)
    (hshown : ∃ τ : Typing, τ.Solves w r ∧ w.Shows r τ)
    (hshown' : ∃ τ : Typing, τ.Solves w plug.block ∧ w.Shows plug.block τ)
    (hequal : ∀ expected found, socket.type = some expected → plug.type = some found →
        expected.subst θ = found.subst θ) (hkind : socket.kind = .inputValue) :
    (w.reading θ).socket i = (w.reading θ).socket o := by
  obtain ⟨τ, -, hshows⟩ := hshown
  obtain ⟨τ', -, hshows'⟩ := hshown'
  have hopposite : plug.kind = .output := by
    have hopposite : socket.kind = plug.kind.opposite := h.pairing.opposite
    rw [← plug.kind.opposite_opposite, ← hopposite, hkind]
    rfl
  obtain ⟨expected, hexpected, -⟩ := slotType_of_typeOf?
    (hshows.socket ⟨socket, h.socket_eq, by rw [hkind]; rfl, hbelow⟩)
  obtain ⟨found, hfound, -⟩ := slotType_of_typeOf?
    (hshows'.socket ⟨plug, h.plug_eq, by rw [hopposite]; rfl, .refl⟩)
  simp only [reading, hexpected, hfound, Option.getD_some]
  rw [slotType, h.socket_eq] at hexpected
  rw [slotType, h.plug_eq] at hfound
  exact hequal expected found hexpected hfound

theorem mem_top : r ∈ w1.top := by
  obtain ⟨block, hblock, hparent⟩ := (h.inOrder.structured.top.2 r).1 hr
  obtain ⟨block', hblock', -⟩ : ∃ block', w1.blocks[r]? = some block' ∧
      block'.innards = block.innards := by simpa [hblock] using h.linked.rewires.innards.block r
  refine (h.linked.inOrder.structured.top.2 r).2 ⟨block', hblock', ?_⟩
  by_contra hsome
  obtain ⟨p, hp⟩ := Option.ne_none_iff_exists'.1 hsome
  exact not_parentOf_of_mem_top h.inOrder hr p ((h.parentOf_of_ne hapart).1 ⟨block', hblock', hp⟩)

include hbelow

/-- The tree that comes about is bound and inferred, and then the table may be rebuilt. -/
theorem exists_refreshed (hQ : Steady Q) (hup : Upheld Q True w) (htyped : w.isTyped = true)
    (hrun : w1.refresh [plug.block] = .ok w') :
    ∃ all w2 ty w3, w1.resolveReferences r none = .ok (all, w2) ∧ w2.reinfer r = .ok (ty, w3) ∧
      Upheld Q True w3 ∧ w3.compactTypes = .ok w' := by
  have hw1 := h.linked.inOrder
  have hs1 := h.linked.rewires.standing hQ hup.standing hw1
  have htop := h.mem_top hr hapart
  have hplug := h.below_plug hbelow
  have htyped1 : w1.isTyped = true := (isTyped_congr h.linked.rewires.agree.options).trans htyped
  rcases refresh_cases hrun with ⟨huntyped, -⟩ | ⟨-, roots, w3, hroots, hfold, hcompact⟩
  · cases htyped1.symm.trans huntyped
  obtain ⟨hnodup, hmem⟩ := hw1.rootsOf_spec hroots List.nodup_nil
  have hone : roots = [r] := by
    refine List.perm_singleton.1
      ((List.perm_ext_iff_of_nodup hnodup (List.nodup_singleton r)).2 fun x => ?_)
    rw [hmem x, List.mem_singleton]
    constructor
    · rintro (hx | ⟨hx, b, hb, hbelow⟩)
      · cases hx
      · cases List.mem_singleton.1 hb
        exact hw1.root_unique hx htop hbelow hplug
    · rintro rfl
      exact .inr ⟨htop, plug.block, List.mem_singleton_self _, hplug⟩
  rw [hone, List.foldlM_cons, bind_eq_ok] at hfold
  obtain ⟨w3', hfold, heq⟩ := hfold
  cases heq
  obtain ⟨htended, -⟩ := (hup.touch hs1 (h.linked.rewires.confined .sense)).refreshTree htyped1
    htop hfold
  have honly : ∀ x ∈ w3.top, w1.Touched (fun b => b = socket.block ∨ b = plug.block) x → x = r := by
    rintro x hx ⟨b, rfl | rfl, hb⟩
    · exact hw1.root_unique ((keeps_refreshTree hfold).top_eq ▸ hx) htop hb (h.below hbelow)
    · exact hw1.root_unique ((keeps_refreshTree hfold).top_eq ▸ hx) htop hb hplug
  simp only [refreshTree, reinferTree, bind_eq_ok] at hfold
  obtain ⟨⟨all, w2⟩, hresolve, ⟨ty, w3'⟩, hreinfer, heq⟩ := hfold
  cases heq
  refine ⟨all, w2, ty, _, hresolve, hreinfer, htended.relax ?_ ?_, hcompact⟩
  · exact fun x hx hstale => hstale.2 (honly x hx (hstale.1.resolve_left id))
  · exact fun x hx hstale => hstale.2 (honly x hx (hstale.1.resolve_left id))

/-- If the types of the two connections do not clash, the tree that comes about has no error. -/
theorem errorFree (hQ : Steady Q) (hlaid : ∀ {block}, Q block → block.Laid) (hup : Upheld Q True w)
    (htyped : w.isTyped = true) (hfree : w.ErrorFree r) (hfree' : w.ErrorFree plug.block)
    (hclosed : w.Closed plug.block) (hclash : w.typeClash socket plug = .ok none)
    (hrun : w1.refresh [plug.block] = .ok w') :
    r ∈ w'.top ∧ w'.Below r socket.block ∧ w'.Below r plug.block ∧ w'.ErrorFree r := by
  have hroot := h.plug_mem_top
  have hkeeps := keeps_refresh hrun
  obtain ⟨owner, howner⟩ := hup.current htyped
  obtain ⟨θ, hθ, hequal⟩ := exists_solution_of_typeClash h.inOrder.sound
    (fun ty hty => hup.covered htyped r hr id i ⟨socket, h.socket_eq, hbelow⟩ ty
      (by rw [slotType, h.socket_eq]; exact hty))
    (fun ty hty => hup.covered htyped plug.block hroot id o ⟨plug, h.plug_eq, .refl⟩ ty
      (by rw [slotType, h.plug_eq]; exact hty)) hclash
  obtain ⟨all, w2, ty, w3, hresolve, hreinfer, hup3, hcompact⟩ :=
    h.exists_refreshed hr hbelow hapart hQ hup htyped hrun
  have htyped1 : w1.isTyped = true := (isTyped_congr h.linked.rewires.agree.options).trans htyped
  have hs1 := h.linked.rewires.standing hQ hup.standing h.linked.inOrder
  have htop1 := h.mem_top hr hapart
  obtain ⟨hrebinds, hscoped⟩ := resolveReferences_spec hs1.inOrder hs1.owned htop1 hresolve
  have hs2 := hs1.rebinds hrebinds htyped1
  have htop2 : r ∈ w2.top := by rw [hrebinds.rest]; exact htop1
  have htyped2 : w2.isTyped = true := by rw [isTyped, hrebinds.rest]; exact htyped1
  have hkeeps2 : w2.KeepsTree r :=
    hs2.keepsTree hlaid (hscoped.isLocal hs2.owned (not_parentOf_of_mem_top hs2.inOrder htop2))
  -- the solution that makes the two types equal solves the tree that came about
  have hsolves : (w.reading θ).Solves w2 r :=
    h.solves hup.standing.owned hrebinds (hup.solves hlaid htyped hr hfree hθ)
      (hup.solves hlaid htyped hroot hfree' hθ)
      (h.reading_eq hbelow (hup.exists_shown hlaid htyped hr hfree)
        (hup.exists_shown hlaid htyped hroot hfree') hequal)
      (howner r hr id).1 (howner plug.block hroot id).1 hclosed hscoped
  have hfree3 := errorFree_of_solves hs2.inOrder htyped2 (hs2.inOrder.live_of_top htop2) hkeeps2
    hreinfer hsolves
  have hretypes := retypes_reinfer hreinfer
  have htyped3 : w3.isTyped = true := by rw [isTyped, hretypes.rest]; exact htyped2
  refine ⟨hkeeps.top_eq ▸ htop1, hkeeps.below_iff.2 (h.below hbelow),
    hkeeps.below_iff.2 (h.below_plug hbelow), ?_⟩
  exact hup3.errorFree_compactTypes htyped3 (hretypes.keeps.top_eq ▸ htop2) hfree3 hcompact

end Grafted

/-- **The gate is adequate for closed trees.**  Two connections belong to different trees of a typed
workspace that edits have led to, neither tree has an error, and every use in the tree of the one
that plugs in is bound.  If the gate lets them be joined, the tree that comes about has no error. -/
theorem errorFree_of_connect (hw : w.ReachableBy Call.IsEdit) (htyped : w.isTyped = true)
    {a b : ConnectionId} {ca cb : Connection} (hca : w.connections[a]? = some ca)
    (hcb : w.connections[b]? = some cb) {ra rb : BlockId} (hra : ra ∈ w.top) (hrb : rb ∈ w.top)
    (ha : w.Below ra ca.block) (hb : w.Below rb cb.block) (hne : ra ≠ rb) (hfree : w.ErrorFree ra)
    (hfree' : w.ErrorFree rb) (hclosed : w.Closed (if ca.kind.isSuperior then ra else rb))
    (h : w.connect a b = .ok (none, w')) :
    ∃ r ∈ w'.top, w'.Below r ca.block ∧ w'.Below r cb.block ∧ w'.ErrorFree r := by
  have hup : Upheld Block.Regular True w := hw.upheld Block.steady_regular
  have horder := hup.standing.inOrder
  have hapart : ca.target ≠ some b := fun htarget =>
    hne (horder.root_eq_of_target hca hcb htarget hra hrb ha hb)
  obtain ⟨i, o, socket, plug, w1, hsides, hgrafted, hclash, hrefresh⟩ :=
    exists_grafted horder htyped hca hcb hapart h
  have hroot := hgrafted.plug_mem_top
  by_cases hsup : ca.kind.isSuperior = true
  · rw [if_pos hsup] at hsides hclosed
    obtain ⟨rfl, rfl, rfl, rfl⟩ := hsides
    cases horder.root_unique hra hroot ha .refl
    obtain ⟨htop, hsocket, hplug, herrors⟩ :=
      hgrafted.errorFree hrb hb hne.symm Block.steady_regular Block.Regular.laid hup htyped hfree'
        hfree hclosed hclash hrefresh
    exact ⟨rb, htop, hplug, hsocket, herrors⟩
  · rw [if_neg hsup] at hsides hclosed
    obtain ⟨rfl, rfl, rfl, rfl⟩ := hsides
    cases horder.root_unique hrb hroot hb .refl
    obtain ⟨htop, hsocket, hplug, herrors⟩ := hgrafted.errorFree hra ha hne Block.steady_regular
      Block.Regular.laid hup htyped hfree hfree' hclosed hclash hrefresh
    exact ⟨ra, htop, hsocket, hplug, herrors⟩

theorem closed_of_bound
    (h : ∀ p ∈ w.vars.toList, p.2.isReference = true → p.2.binding?.isSome = true)
    (r : BlockId) : w.Closed r := fun v use hv hreference _ =>
  Option.isSome_iff_exists.1
    (h (v, use) (Std.ExtTreeMap.mem_toList_iff_getElem?_eq_some.2 hv) hreference)

/-- A number as an argument without a function, and beside it a function that returns its
argument. -/
def appliedIdentity : Except Fault Workspace :=
  [Call.newBlock .lambdaApp, .newBlock .intLiteral, .connect ⟨2⟩ ⟨3⟩, .newBlock .lambda,
    .newBlock .variablesGet, .connect ⟨5⟩ ⟨6⟩].foldlM Call.run (Workspace.new {})

theorem errorFree_of_connect_appliedIdentity :
    ∃ w w' r, appliedIdentity = .ok w ∧ w.top = [⟨1⟩, ⟨3⟩] ∧ w.connect ⟨1⟩ ⟨4⟩ = .ok (none, w') ∧
      w'.top = [⟨1⟩] ∧ r ∈ w'.top ∧ w'.ErrorFree r := by
  obtain ⟨w, hrun, htyped, htop, ⟨ca, hca, hablock, hsup⟩, ⟨cb, hcb, hbblock⟩, herrors, hbound,
      hconnect⟩ : ∃ w, appliedIdentity = .ok w ∧ w.isTyped = true ∧ w.top = [⟨1⟩, ⟨3⟩] ∧
        (∃ ca ∈ w.connections[(⟨1⟩ : ConnectionId)]?, ca.block = ⟨1⟩ ∧ ca.kind.isSuperior = false) ∧
        (∃ cb ∈ w.connections[(⟨4⟩ : ConnectionId)]?, cb.block = ⟨3⟩) ∧ w.typeErrors = [] ∧
        (∀ p ∈ w.vars.toList, p.2.isReference = true → p.2.binding?.isSome = true) ∧
        (w.connect ⟨1⟩ ⟨4⟩).toOption.any (fun p => decide (p.1 = none ∧ p.2.top = [⟨1⟩])) = true :=
    exists_ok_of_any (by decide +kernel)
  obtain ⟨⟨answer, w'⟩, hconnect, rfl, htop'⟩ := exists_ok_of_any hconnect
  have hra : (⟨1⟩ : BlockId) ∈ w.top := by simp [htop]
  have hrb : (⟨3⟩ : BlockId) ∈ w.top := by simp [htop]
  obtain ⟨r, hr, -, -, hfree⟩ := errorFree_of_connect
    ((ReachableBy.new {}).foldlM (by simp [Call.IsEdit]) hrun) htyped hca hcb hra hrb
    (hablock ▸ .refl) (hbblock ▸ .refl) (by decide) (errorFree_of_typeErrors herrors _)
    (errorFree_of_typeErrors herrors _) (closed_of_bound hbound _) hconnect
  exact ⟨w, w', r, hrun, htop, hconnect, htop', hr, hfree⟩

end BlockGraph.Workspace
