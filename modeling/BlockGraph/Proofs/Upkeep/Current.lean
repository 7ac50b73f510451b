import BlockGraph.Proofs.Inference.Replay
import Mathlib.Data.Set.Function
import Mathlib.Logic.Equiv.Basic

/-!
# Types that are up to date

The types of a tree are up to date if an inference of the tree left them so and nothing that counts
has changed in the tree since (`Workspace.UpToDate`).  Such types can be found again from the graph
alone: inferring the tree anew, here or in any workspace that has the same tree, makes the same
equations in the same order.

* `UpToDate.replay` says that the inference ends and finds the same types under other numbers.
* `UpToDate.exists_renamed` compares two workspaces that have the same tree with types up to date:
  there is one renaming of type variables between them.
* `exists_perm` joins the renamings of several trees, whose variables are different, to one.
-/

namespace BlockGraph

variable {c : ConnectionId} {v : VariableId} {a b : Option Ty} {t0 : Table} {S : Nat → Prop}
  {f g : Nat → Nat}

open Relation

/-! ## Renamings that meet -/

section Meet

variable {f g h : Nat → Nat} {S T : Nat → Prop} (hinverse : ∀ u, T u → h (g u) = u)

include hinverse

theorem Ty.rename_of_inverse {ty : Ty} (hty : ty.Within T) : (ty.rename g).rename h = ty := by
  rw [rename_rename]
  conv_rhs => rw [← rename_id ty]
  exact rename_congr fun v hv => hinverse v (hty v hv)

omit hinverse in
theorem Clash.rename_rename (f g : Nat → Nat) (c : Clash) :
    (c.rename f).rename g = c.rename (g ∘ f) := by
  cases c <;> simp [rename, Ty.rename_rename]

theorem Clash.rename_of_inverse {c : Clash} (hc : c.Within T) : (c.rename g).rename h = c := by
  cases c with
  | mismatch expected found =>
    simp only [rename, Ty.rename_of_inverse hinverse hc.1, Ty.rename_of_inverse hinverse hc.2]
  | infinite v ty => simp only [rename, hinverse v hc.1, Ty.rename_of_inverse hinverse hc.2]

omit hinverse in
/-- What occurs in a type has a counterpart in a type that has the same image. -/
theorem Ty.Within.meet {a b : Ty} (ha : a.Within S) (hb : b.Within T)
    (heq : b.rename g = a.rename f) : a.Within fun v => S v ∧ ∃ u, T u ∧ g u = f v := by
  intro v hv
  have hmem : f v ∈ (b.rename g).occurrences := by
    rw [heq]
    exact mem_occurrences_rename.2 ⟨v, hv, rfl⟩
  obtain ⟨u, hu, hfu⟩ := mem_occurrences_rename.1 hmem
  exact ⟨ha v hv, u, hb u hu, hfu.symm⟩

omit hinverse in
theorem Clash.Within.meet {a b : Clash} (ha : a.Within S) (hb : b.Within T)
    (heq : b.rename g = a.rename f) : a.Within fun v => S v ∧ ∃ u, T u ∧ g u = f v := by
  cases a with
  | mismatch expected found =>
    cases b with
    | mismatch expected' found' =>
      simp only [rename, mismatch.injEq] at heq
      exact ⟨ha.1.meet hb.1 heq.1, ha.2.meet hb.2 heq.2⟩
    | infinite => cases heq
  | infinite v ty =>
    cases b with
    | mismatch => cases heq
    | infinite v' ty' =>
      simp only [rename, infinite.injEq] at heq
      exact ⟨⟨ha.1, v', hb.1, heq.1⟩, ha.2.meet hb.2 heq.2⟩

/-- Two renamings to one type make a renaming from one to the other. -/
theorem Ty.Matches.meet {c : Option Ty} (hac : Ty.Matches f S a c) (hbc : Ty.Matches g T b c) :
    Ty.Matches (h ∘ f) (fun v => S v ∧ ∃ u, T u ∧ g u = f v) a b := by
  cases a with
  | none =>
    have hb : b = none := by simpa [hac.1] using hbc.1
    subst hb
    exact matches_none _ _
  | some ty =>
    obtain ⟨ty', rfl, hrename⟩ := Option.map_eq_some_iff.1 (hbc.1.symm.trans hac.1)
    refine matches_some ((hac.2 ty rfl).meet (hbc.2 ty' rfl) hrename) ?_
    rw [← rename_rename, ← hrename, rename_of_inverse hinverse (hbc.2 ty' rfl)]

theorem TypeError.Matches.meet {a b c : Option TypeError} (hac : TypeError.Matches f S a c)
    (hbc : TypeError.Matches g T b c) :
    TypeError.Matches (h ∘ f) (fun v => S v ∧ ∃ u, T u ∧ g u = f v) a b := by
  cases a with
  | none =>
    have hb : b = none := by simpa [hac.1] using hbc.1
    subst hb
    exact matches_none _ _
  | some e =>
    obtain ⟨e', rfl, hrename⟩ := Option.map_eq_some_iff.1 (hbc.1.symm.trans hac.1)
    have hclash : e'.clash.rename g = e.clash.rename f := congrArg TypeError.clash hrename
    have horigin : e'.origin = e.origin := (congrArg TypeError.origin hrename : _)
    refine ⟨?_, fun d hd => ?_⟩
    · have hback : e.clash.rename (h ∘ f) = e'.clash := by
        rw [← Clash.rename_rename, ← hclash, Clash.rename_of_inverse hinverse (hbc.2 e' rfl)]
      rw [Option.map_some, rename, hback, ← horigin]
    · cases hd
      exact (hac.2 e rfl).meet (hbc.2 e' rfl) hclash

end Meet

/-- The type under the bindings of the table, if there is one. -/
def Table.resolve? (t : Table) : Option Ty → Except Fault (Option Ty)
  | some ty => do return some (← t.resolve ty)
  | none => .ok none

theorem Table.Embeds.resolve?_eq {t t' : Table} (h : Table.Embeds f S t t') (ht : t.Sound)
    (ht' : t'.Sound) (hmatch : Ty.Matches f S a b) :
    ∃ a' b', t.resolve? a = .ok a' ∧ t'.resolve? b = .ok b' ∧ Ty.Matches f S a' b' := by
  cases a with
  | none =>
    rw [hmatch.1]
    exact ⟨.none, .none, rfl, rfl, Ty.matches_none f S⟩
  | some ty =>
    obtain ⟨res, hres, hwithin, hres'⟩ := h.resolve_eq ht ht' (hmatch.2 ty rfl)
    rw [hmatch.1]
    exact ⟨some res, some (res.rename f), by simp [resolve?, hres], by simp [resolve?, hres'],
      Ty.matches_some hwithin rfl⟩

namespace Workspace

variable {w w' x x' y y' : Workspace} {r : BlockId} {O : Nat → Prop} {R : BlockId → Prop}

/-! ## Resolved types of a tree -/

/-- The type of a declaration, resolved. -/
def binderType? (w : Workspace) (v : VariableId) : Except Fault (Option Ty) := do
  w.types.resolve? (← w.variableType? v)

theorem typeOf?_eq_resolve? {connection : Connection}
    (hc : w.connections[c]? = some connection) : w.typeOf? c = w.types.resolve? (w.slotType c) := by
  simp only [typeOf?, getConnection_eq_ok.2 hc, ok_bind, slotType, hc, Option.bind_some]
  cases connection.type <;> rfl

theorem binderType?_eq_resolve? {found : Variable} (hv : w.vars[v]? = some found) :
    w.binderType? v = w.types.resolve? (w.boundType v) := by
  simp only [binderType?, variableType?, getVariable_eq_ok.2 hv, ok_bind, boundType, hv,
    Option.bind_some, pure_eq_ok]

/-- The resolved types and the errors of a tree are in `w'` those of `w` under other numbers; those
of `w` are made of variables in `S`. -/
structure Renamed (f : Nat → Nat) (S : Nat → Prop) (r : BlockId) (w w' : Workspace) : Prop where
  type : ∀ h, w.HolderIn r h → ∃ a b, w.types.resolve? (w.typeAt h) = .ok a ∧
    w'.types.resolve? (w'.typeAt h) = .ok b ∧ Ty.Matches f S a b
  error : ∀ c, w.OfTree r c → TypeError.Matches f S (w.slotError c) (w'.slotError c)

theorem Owned.exists_binder (hw : w.Owned) (hv : w.BinderBelow r v) :
    ∃ found, w.vars[v]? = some found ∧ found.isReference = false ∧ w.Below r found.block := by
  obtain ⟨b, block, hb, hblock, hkind, hown⟩ := hv
  obtain ⟨found, hfound, hholder, hreference⟩ := hw.var hblock ((ownVariable_eq_ok hblock).1 hown)
  refine ⟨found, hfound, ?_, by rw [hholder]; exact hb⟩
  rw [← Bool.not_eq_true, hreference]
  intro hget
  rw [hget] at hkind
  cases hkind

/-- A whole tree that is mirrored resolves to the same types. -/
theorem Mirror.renamed (h : Mirror r t0 f S (x.HolderIn r) (x.OfTree r) x y) :
    Renamed f S r x y where
  type a ha := h.embeds.resolve?_eq h.twins.left.sound h.twins.right.sound (h.type a ha)
  error := h.error

theorem Mirror.isSome_slotType (h : Mirror r t0 f S (x.HolderIn r) (x.OfTree r) x y)
    (hc : x.OfTree r c) : (y.slotType c).isSome = (x.slotType c).isSome := by
  have htype : y.slotType c = (x.slotType c).map (Ty.rename f) := (h.type (.inl c) hc).1
  rw [htype, Option.isSome_map]

/-! ## The same tree in two workspaces -/

section Sense

variable (h : Same .sense x y r)

include h

theorem Same.slotType_eq (hc : x.OfTree r c) : y.slotType c = x.slotType c := by
  obtain ⟨connection, hconnection, hb⟩ := hc
  obtain ⟨new, hnew, hview⟩ := h.exists_connection hconnection hb
  have htype : new.type = connection.type := (congrArg Connection.type hview : _)
  rw [slotType, slotType, hnew, hconnection, Option.bind_some, Option.bind_some, htype]

theorem Same.typeAt_eq (hx : x.Owned) {a : Holder} (ha : x.HolderIn r a) :
    y.typeAt a = x.typeAt a := by
  cases a with
  | inl c => exact h.slotType_eq ha
  | inr v =>
    obtain ⟨found, hfound, -, hb⟩ := hx.exists_binder ha
    obtain ⟨new, hnew, hview⟩ := h.exists_var hfound hb
    have heq : new = found := hview
    simp only [typeAt, boundType, hnew, hfound, heq]

theorem Same.slotError_eq (hc : x.OfTree r c) : y.slotError c = x.slotError c := by
  obtain ⟨connection, hconnection, hb⟩ := hc
  obtain ⟨new, hnew, hview⟩ := h.exists_connection hconnection hb
  have herror : new.error = connection.error := (congrArg Connection.error hview : _)
  rw [slotError, slotError, hnew, hconnection, Option.bind_some, Option.bind_some, herror]

end Sense

/-! ## Up to date -/

/-- An inference of the tree that began in `x` and ended in `x'` left the types that `w` has.  The
variables it made are in `O`. -/
structure Inferred (clear : Bool) (r : BlockId) (O : Nat → Prop) (x x' w : Workspace) : Prop where
  settled : Settled clear r x x'
  same : Same .sense x' w r
  carries : x'.types.Carries w.types
  owns : ∀ v, x.types.size ≤ v → v < x'.types.size → O v

/-- The types of a tree are those that an inference left. -/
def UpToDate (w : Workspace) (r : BlockId) (O : Nat → Prop) : Prop :=
  ∃ clear x x', Inferred clear r O x x' w

namespace Settled

variable {clear : Bool}

variable (h : Settled clear r x x')
include h

theorem inOrder' : x'.InOrder := h.retypesIn.inOrder h.inOrder

theorem owned' : x'.Owned := h.retypesIn.owned h.owned

theorem twins : Twins r x x' :=
  ⟨h.inOrder, h.inOrder', h.owned, h.owned',
    h.retypesIn.retypes.sameGraph.same (by rw [h.retypesIn.retypes.rest]) r⟩

/-- What was known before an inference is known after it: the inference can be made twice. -/
theorem carries : x.types.Carries x'.types := by
  obtain ⟨ty, y, f, S, -, hmirror⟩ := h.replay h.inOrder h.owned (.refl _ x r) fun _ _ => .inr rfl
  exact hmirror.carries

theorem upToDate (hO : ∀ v, x.types.size ≤ v → v < x'.types.size → O v) : x'.UpToDate r O :=
  ⟨clear, x, x', h, .refl _ x' r, .refl x'.types, hO⟩

end Settled

/-- The other side of a mirror stays as it is while the tree is left alone. -/
theorem Mirror.carry (h : Mirror r t0 f S (x.HolderIn r) (x.OfTree r) x y) (hw : w.InOrder)
    (ho : w.Owned) (hsame : Same .sense x w r) (hcarries : x.types.Carries w.types) :
    Mirror r t0 f S (w.HolderIn r) (w.OfTree r) w y := by
  have htwins : Twins r x w := ⟨h.twins.left, hw, h.twins.owned, ho, hsame.coarsen View.sense_graph⟩
  have htwins' : Twins r w y :=
    ⟨hw, h.twins.right, ho, h.twins.owned', htwins.symm.same.trans h.twins.same⟩
  refine ⟨htwins', h.embeds.carries_left hcarries, h.carries.trans hcarries, h.fresh,
    fun a ha => ?_, fun c hc => ?_⟩
  · have ha' := htwins.symm.holderIn ha
    rw [hsame.typeAt_eq h.twins.owned ha']
    exact h.type a ha'
  · have hc' : x.OfTree r c := htwins.symm.holderIn (a := .inl c) hc
    rw [hsame.slotError_eq hc']
    exact h.error c hc'

namespace UpToDate

variable {O O' : Nat → Prop}

variable (h : w.UpToDate r O)
include h

theorem same (hsame : Same .sense w w' r) (hcarries : w.types.Carries w'.types) :
    w'.UpToDate r O := by
  obtain ⟨clear, x, x', hinferred⟩ := h
  exact ⟨clear, x, x', hinferred.settled, hinferred.same.trans hsame,
    hinferred.carries.trans hcarries, hinferred.owns⟩

/-- Only the variables of the table count. -/
theorem mono (hO : ∀ v < w.types.size, O v → O' v) : w.UpToDate r O' := by
  obtain ⟨clear, x, x', hinferred⟩ := h
  exact ⟨clear, x, x', hinferred.settled, hinferred.same, hinferred.carries, fun v hle hlt =>
    hO v (hlt.trans_le hinferred.carries.size_le) (hinferred.owns v hle hlt)⟩

/-- The tree is inferred anew wherever it is the same graph: the types are the same under other
numbers. -/
theorem replay (hw : w.InOrder) (ho : w.Owned) (hy : y.InOrder) (hoy : y.Owned)
    (hsame : Same .graph w y r)
    (hslots : ∀ c, w.OfTree r c → (w.slotType c).isSome = (y.slotType c).isSome) :
    ∃ ty y' t0 f S, y.reinfer r = .ok (ty, y') ∧ (∀ v, S v → O v) ∧
      Mirror r t0 f S (w.HolderIn r) (w.OfTree r) w y' := by
  obtain ⟨clear, x, x', hinferred⟩ := h
  have hsettled := hinferred.settled
  have htwins' : Twins r x' w :=
    ⟨hsettled.inOrder', hw, hsettled.owned', ho, hinferred.same.coarsen View.sense_graph⟩
  have hxw : Same .graph x w r := hsettled.twins.same.trans htwins'.same
  obtain ⟨ty, y', f, S, hreinfer, hmirror⟩ :=
      hsettled.replay hy hoy (hxw.trans hsame) fun c hc => by
    by_cases hgiven : x.GivenIn r c
    · exact .inl hgiven
    · have hc' : x'.HolderIn r (.inl c) := hsettled.twins.holderIn hc
      refine .inr ?_
      rw [← hsettled.retypesIn.slots c hgiven, ← hinferred.same.slotType_eq hc']
      exact hslots c (htwins'.holderIn hc')
  have hback := fun a => hsettled.twins.symm.holderIn (a := a)
  have hmirror' : Mirror r x.types f S (x'.HolderIn r) (x'.OfTree r) x' y' :=
    hmirror.weaken hback fun c => hback (.inl c)
  exact ⟨ty, y', x.types, f, S, hreinfer,
    fun v hv => hinferred.owns v (hmirror.fresh v hv) (hmirror.embeds.lt_size hv),
    hmirror'.carry hw ho hinferred.same hinferred.carries⟩

/-- Two workspaces with the same tree, in both of which its types are up to date, differ only in the
numbers of type variables. -/
theorem exists_renamed (h' : w'.UpToDate r O') (hw : w.InOrder) (ho : w.Owned) (hw' : w'.InOrder)
    (ho' : w'.Owned) (hsame : Same .graph w w' r)
    (hslots : ∀ c, w.OfTree r c → (w.slotType c).isSome = (w'.slotType c).isSome) :
    ∃ g S, Renamed g S r w w' ∧ Set.InjOn g {v | S v} ∧ ∀ v, S v → v < w.types.size ∧ O v ∧
    O' (g v) := by
  have htwins : Twins r w w' := ⟨hw, hw', ho, ho', hsame⟩
  obtain ⟨ty, y, t0, f1, S1, hreinfer, hS1, hleft⟩ := h.replay hw ho hw' ho' hsame hslots
  obtain ⟨ty', y', t0', f2, S2, hreinfer', hS2, hright⟩ :=
    h'.replay hw' ho' hw' ho' (.refl _ w' r) fun _ _ => rfl
  cases hreinfer.symm.trans hreinfer'
  have hinj : Set.InjOn f2 {v | S2 v} := fun u hu v hv heq => hright.embeds.inj hu hv heq
  have hinverse : ∀ u, S2 u → Function.invFunOn f2 {v | S2 v} (f2 u) = u := fun u hu =>
    hinj.leftInvOn_invFunOn hu
  have hback : ∀ {v u}, S2 u → f2 u = f1 v → (Function.invFunOn f2 {v | S2 v} ∘ f1) v = u :=
    fun hu heq => by rw [Function.comp_apply, ← heq, hinverse _ hu]
  have hl := hleft.renamed
  have hr := hright.renamed
  refine ⟨Function.invFunOn f2 {v | S2 v} ∘ f1, fun v => S1 v ∧ ∃ u, S2 u ∧ f2 u = f1 v,
    ⟨fun i hi => ?_, fun c hc => (hl.error c hc).meet hinverse
      (hr.error c (htwins.holderIn (a := .inl c) hc))⟩,
    fun u hu v hv heq => ?_, fun v hv => ?_⟩
  · obtain ⟨a, d, ha, hd, had⟩ := hl.type i hi
    obtain ⟨b, d', hb, hd', hbd⟩ := hr.type i (htwins.holderIn hi)
    cases hd.symm.trans hd'
    exact ⟨a, b, ha, hb, had.meet hinverse hbd⟩
  · obtain ⟨hu, u', hu', hfu⟩ := hu
    obtain ⟨hv, v', hv', hfv⟩ := hv
    rw [hback hu' hfu, hback hv' hfv] at heq
    exact hleft.embeds.inj hu hv (by rw [← hfu, ← hfv, heq])
  · obtain ⟨hv, u, hu, hfu⟩ := hv
    refine ⟨hleft.embeds.lt_size hv, hS1 v hv, ?_⟩
    rw [hback hu hfu]
    exact hS2 u hu

end UpToDate

/-- The types of a tree are over the variables of the table. -/
def Covered (w : Workspace) (r : BlockId) : Prop :=
  ∀ c, w.OfTree r c → ∀ ty, w.slotType c = some ty → w.types.Covers ty

theorem UpToDate.covered (h : w.UpToDate r O) (hw : w.InOrder) (ho : w.Owned) :
    w.Covered r := by
  obtain ⟨ty, y, t0, f, S, -, -, hmirror⟩ := h.replay hw ho hw ho (.refl _ w r) fun _ _ => rfl
  exact fun c hc ty hty => hmirror.embeds.covers ((hmirror.type (.inl c) hc).2 ty hty)

theorem Covered.same (h : w.Covered r) (htwins : Twins r w w') (hsame : Same .sense w w' r)
    (hcarries : w.types.Carries w'.types) : w'.Covered r := by
  intro c hc ty hty v hv
  have hc' : w.HolderIn r (.inl c) := htwins.symm.holderIn hc
  rw [hsame.slotType_eq hc'] at hty
  exact (h c hc' ty hty v hv).trans_le hcarries.size_le

/-! ## One renaming for several trees -/

/-- A renaming of finitely many numbers is part of a permutation. -/
theorem exists_perm_extending {s : Finset Nat} (hinj : Set.InjOn g s) :
    ∃ π : Equiv.Perm Nat, ∀ v ∈ s, π v = g v := by
  induction s using Finset.induction with
  | empty => exact ⟨Equiv.refl Nat, by simp⟩
  | insert a s ha ih =>
    obtain ⟨π, hπ⟩ := ih (hinj.mono (by simp))
    refine ⟨π.trans (Equiv.swap (g a) (π a)), fun v hv => ?_⟩
    rw [Equiv.trans_apply]
    rcases Finset.mem_insert.1 hv with rfl | hvs
    · exact Equiv.swap_apply_right _ _
    · have hne : v ≠ a := fun heq => ha (heq ▸ hvs)
      rw [Equiv.swap_apply_of_ne_of_ne _ (π.injective.ne hne), hπ v hvs]
      rw [hπ v hvs]
      exact hinj.ne hv (Finset.mem_insert_self a s) hne

/-- Renamings of trees whose variables are different, before and after, are parts of one
permutation. -/
theorem exists_perm {g : BlockId → Nat → Nat} {S : BlockId → Nat → Prop}
    {owner owner' : Nat → BlockId} {n : Nat} (hinj : ∀ r, R r → Set.InjOn (g r) {v | S r v})
    (hown : ∀ r, R r → ∀ v, S r v → v < n ∧ owner v = r ∧ owner' (g r v) = r) :
    ∃ π : Equiv.Perm Nat, ∀ r, R r → ∀ v, S r v → π v = g r v := by
  classical
  obtain ⟨π, hπ⟩ := exists_perm_extending (g := fun v => g (owner v) v)
    (s := (Finset.range n).filter fun v => R (owner v) ∧ S (owner v) v) (fun u hu v hv heq => by
      obtain ⟨-, hRu, hSu⟩ := Finset.mem_filter.1 hu
      obtain ⟨-, hRv, hSv⟩ := Finset.mem_filter.1 hv
      have heq : g (owner u) u = g (owner v) v := heq
      have hsame : owner u = owner v := by
        rw [← (hown _ hRu u hSu).2.2, heq, (hown _ hRv v hSv).2.2]
      rw [hsame] at heq hSu
      exact hinj _ hRv hSu hSv heq)
  refine ⟨π, fun r hr v hv => ?_⟩
  obtain ⟨hlt, howner, -⟩ := hown r hr v hv
  subst howner
  exact hπ v (Finset.mem_filter.2 ⟨Finset.mem_range.2 hlt, hr, hv⟩)

/-- The resolved type of every connection and every binder of a tree, and every error found in it,
is in `w'` that of `w` with the type variables permuted. -/
structure AgreeUpTo (π : Equiv.Perm Nat) (r : BlockId) (w w' : Workspace) : Prop where
  type : ∀ c, w.OfTree r c → ∃ ty, w.typeOf? c = .ok ty ∧ w'.typeOf? c = .ok (ty.map (Ty.rename π))
  error : ∀ c, w.OfTree r c → w'.slotError c = (w.slotError c).map (TypeError.rename π)
  binder : ∀ v, w.BinderBelow r v →
    ∃ ty, w.binderType? v = .ok ty ∧ w'.binderType? v = .ok (ty.map (Ty.rename π))

theorem Renamed.agreeUpTo (h : Renamed g S r w w') (htwins : Twins r w w') {π : Equiv.Perm Nat}
    (hπ : ∀ v, S v → π v = g v) : AgreeUpTo π r w w' := by
  have htype : ∀ a, w.HolderIn r a → ∃ ty, w.types.resolve? (w.typeAt a) = .ok ty ∧
      w'.types.resolve? (w'.typeAt a) = .ok (ty.map (Ty.rename π)) := fun a ha => by
    obtain ⟨ty, ty', hty, hty', hmatch⟩ := h.type a ha
    exact ⟨ty, hty, by rw [hty', (hmatch.extend hπ fun _ hv => hv).1]⟩
  refine ⟨fun c hc => ?_, fun c hc => ((h.error c hc).extend hπ fun _ hv => hv).1, fun v hv => ?_⟩
  · obtain ⟨left, hleft, hb⟩ := hc
    obtain ⟨right, hright, -⟩ := htwins.exists_connection hleft hb
    rw [typeOf?_eq_resolve? hleft, typeOf?_eq_resolve? hright]
    exact htype (.inl c) ⟨left, hleft, hb⟩
  · obtain ⟨found, hfound, -, hb⟩ := htwins.owned.exists_binder hv
    obtain ⟨found', hfound', -⟩ := htwins.exists_var hfound hb
    rw [binderType?_eq_resolve? hfound, binderType?_eq_resolve? hfound']
    exact htype (.inr v) hv

/-- Trees with types up to date, each the same in both workspaces, agree up to one permutation. -/
theorem exists_agreeUpTo {owner owner' : Nat → BlockId} (hw : w.InOrder) (ho : w.Owned)
    (hw' : w'.InOrder) (ho' : w'.Owned)
    (h : ∀ r, R r → w.UpToDate r (owner · = r) ∧ w'.UpToDate r (owner' · = r) ∧
      Same .graph w w' r ∧ ∀ c, w.OfTree r c → (w.slotType c).isSome = (w'.slotType c).isSome) :
    ∃ π : Equiv.Perm Nat, ∀ r, R r → AgreeUpTo π r w w' := by
  have hexists : ∀ r, ∃ g S, R r → Renamed g S r w w' ∧ Set.InjOn g {v | S v} ∧
      ∀ v, S v → v < w.types.size ∧ owner v = r ∧ owner' (g v) = r := fun r => by
    by_cases hr : R r
    · obtain ⟨hleft, hright, hsame, hslots⟩ := h r hr
      obtain ⟨g, S, hrenamed⟩ := hleft.exists_renamed hright hw ho hw' ho' hsame hslots
      exact ⟨g, S, fun _ => hrenamed⟩
    · exact ⟨id, fun _ => False, fun h => absurd h hr⟩
  choose g S hrenamed using hexists
  obtain ⟨π, hπ⟩ := exists_perm (fun r hr => (hrenamed r hr).2.1) fun r hr => (hrenamed r hr).2.2
  exact ⟨π, fun r hr => (hrenamed r hr).1.agreeUpTo ⟨hw, hw', ho, ho', (h r hr).2.2.1⟩ (hπ r hr)⟩

end Workspace

end BlockGraph
