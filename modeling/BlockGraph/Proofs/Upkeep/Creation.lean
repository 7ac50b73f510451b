import BlockGraph.Proofs.Upkeep.Fields
import BlockGraph.Proofs.Inference.Principal

/-!
# A new block is up to date

A new block is joined to nothing and its variable is bound to nothing.  Giving it the types of its
kind is all that an inference of its tree would do (`Making.settled`), so nothing has to be
refreshed.
-/

namespace BlockGraph.Workspace

open Relation

variable {w w0 w' x z : Workspace} {Q : Block → Prop} {tracked : Prop} {stale N : BlockId → Prop}
  {b : BlockId} {kind : Kind} {block : Block}

namespace Making

variable {hasOutput : Bool} {plans : List Kind.InputPlan} {y : BlockId}

variable (h : Making w b kind hasOutput plans x block)
include h

/-- A new block is neither plugged in nor is anything plugged into it. -/
theorem alone : (∀ p, ¬ x.ParentOf p b) ∧ ∀ y, ¬ x.ParentOf b y := by
  have hs := h.inOrder.structured
  constructor
  · rintro p ⟨found, hfound, hparent⟩
    obtain ⟨c, connection, t, other, hsup, hc, ht, -⟩ := (hs.parent hfound).1 hparent
    obtain ⟨connection', hc', hown⟩ := hs.owned hfound (Block.mem_connections_of_superior hsup)
    cases hc.symm.trans hc'
    cases (h.new hc hown).1.symm.trans ht
  · rintro y ⟨found, hfound, hparent⟩
    obtain ⟨c, connection, t, other, hsup, hc, ht, hother, hown⟩ := (hs.parent hfound).1 hparent
    obtain ⟨other', hother', hback, -⟩ := hs.target hc ht
    cases hother.symm.trans hother'
    cases (h.new hother hown).1.symm.trans hback

theorem below_iff : x.Below b y ↔ y = b := by
  constructor
  · intro hy
    rcases ReflTransGen.cases_head hy with heq | ⟨z, hz, -⟩
    · exact heq.symm
    · exact absurd hz (h.alone.2 z)
  · rintro rfl
    exact .refl

theorem below_self_iff {a : BlockId} : x.Below a b ↔ a = b := by
  constructor
  · intro ha
    rcases ReflTransGen.cases_tail ha with heq | ⟨p, -, hp⟩
    · exact heq.symm
    · exact absurd hp (h.alone.1 p)
  · rintro rfl
    exact .refl

theorem mem_top : b ∈ x.top :=
  h.inOrder.mem_top_of_root h.lookup h.alone.1

/-- A block that was there is as it was. -/
theorem other (hy : y ≠ b) : x.blocks[y]? = w.blocks[y]? := by
  simpa [View.all] using h.confined.agree.block hy

end Making

section Made

variable (h : Making w b kind kind.hasOutput kind.layout.inputs x block) {c : ConnectionId}
include h

theorem Making.unbound (ho : w.Housed) {v : VariableId} {found : Variable}
    (hv : x.vars[v]? = some found) (hb : found.block = b) : found.binding? = none := by
  obtain ⟨found', hv', -, hnone, -⟩ := h.exists_variable (h.mem_vars ho hv hb)
  cases hv.symm.trans hv'
  exact hnone

theorem Making.standing (hQ : Steady Q) (hs : Standing Q w) : Standing Q x where
  inOrder := h.inOrder
  owned := h.owned hs.owned
  block {y found} hy := by
    by_cases hne : y = b
    · subst hne
      cases h.lookup.symm.trans hy
      exact hQ.made h
    · exact hs.block (h.other hne ▸ hy)

namespace Making

variable (ho : w.Owned)
include ho

theorem keepsLayout : x.KeepsLayout b block :=
  (h.owned ho).keepsLayout h.lookup h.laid

/-- The variable of a new block is not bound. -/
theorem not_useAt {u : VariableId} : ¬ x.UseAt b c u := by
  rintro ⟨found, v, use, hfound, -, -, hown, hv, hbound⟩
  cases h.lookup.symm.trans hfound
  obtain ⟨use', hv', hb, -⟩ := (h.owned ho).var h.lookup ((ownVariable_eq_ok h.lookup).1 hown)
  cases hv.symm.trans hv'
  cases (h.unbound ho.toHoused hv hb).symm.trans hbound

theorem keepsTree : x.KeepsTree b where
  layout hbelow hblock := by
    cases h.below_iff.1 hbelow
    cases h.lookup.symm.trans hblock
    exact h.keepsLayout ho
  bound hbelow huse := by
    cases h.below_iff.1 hbelow
    exact absurd huse (h.not_useAt ho)

/-- Every typed connection of a new block is given the scheme of its kind. -/
theorem given (hc : x.OfTree b c) : x.GivenIn b c ∨ x.slotType c = none := by
  obtain ⟨connection, hc, hbelow⟩ := hc
  have htype := (h.new hc (h.below_iff.1 hbelow)).2.2
  cases hvalue : connection.kind.isValue with
  | true =>
    obtain ⟨y, found, ty, hy, hfound, hty⟩ :=
      h.inOrder.exists_grants (h.keepsTree ho).layout (a := .inl c) ⟨connection, hc, hvalue, hbelow⟩
    exact .inl ⟨y, found, hy, hfound, ty, hty⟩
  | false =>
    rw [hvalue, Bool.and_false] at htype
    exact .inr (by simpa [slotType, hc] using htype)

theorem ready (hrun : x.declareTypes b = .ok z) : z.Ready b := by
  have hkeeps := h.keepsTree ho
  obtain ⟨z', hrun', hdeclared⟩ := (h.keepsLayout ho).exists_declareTypes h.inOrder h.lookup
  cases hrun.symm.trans hrun'
  have hretypes := hdeclared.retypes
  have hroom : x.types.size + block.kind.signature.fresh ≤ z.types.size := by
    rw [hdeclared.types, Table.size_freshMany]
  refine ⟨h.inOrder.keeps hretypes.keeps, hkeeps.retypes hretypes, fun {a} ha => ?_,
    fun c connection hc hbelow => ?_⟩
  · obtain ⟨y, found, ty, hbelow, hfound, hty⟩ :=
      h.inOrder.exists_grants hkeeps.layout (hretypes.sameGraph.symm.holderBelow ha)
    cases h.below_iff.1 hbelow
    cases h.lookup.symm.trans hfound
    exact ⟨_, hdeclared.given hty, covers_instantiate hty.mentions hroom⟩
  · obtain ⟨old, hold, hblock, -⟩ := hretypes.sameGraph.symm.connection hc
    rw [hretypes.sameGraph.below_eq, ← hblock] at hbelow
    have herror := hdeclared.error c
    simpa [slotError, hc, hold, (h.new hold (h.below_iff.1 hbelow)).2.1] using herror

/-- There is nothing to unify in the tree of a new block: no socket is filled, and the variable is
not bound. -/
theorem infer_eq (htyped : x.isTyped = true) (hrun : x.declareTypes b = .ok z) :
    ∃ ty, z.infer b = .ok (ty, z) := by
  have hready := h.ready ho hrun
  have hretypes := retypes_declareTypes hrun
  have hgraph := hretypes.sameGraph
  obtain ⟨order, ty, v, hmem, hinfer, -, hposed⟩ := hready.poised.exists_infer
    (by rw [hretypes.rest]; exact htyped) (by rw [hgraph.blocks, h.lookup])
  obtain rfl : v = z := hposed.unchanged fun e he => by
    obtain ⟨y, hy, he⟩ := mem_equations.1 he
    rw [hmem, hgraph.below_eq] at hy
    cases h.below_iff.1 hy
    rcases he with he | he
    · obtain ⟨socket, hsocket, hb, -⟩ := hready.inOrder.socket_of_inputEquations he
      obtain ⟨found, input, -, -, he⟩ := mem_inputEquations.1 he
      obtain ⟨-, -, -, -, socket', t, hsocket', htarget, -⟩ := inputEquation?_eq_some.1 he
      cases hsocket.symm.trans hsocket'
      obtain ⟨old, hold, hblock, -, htarget'⟩ := hgraph.symm.connection hsocket
      rw [(h.new hold (hblock.trans hb)).1, htarget] at htarget'
      cases htarget'
    · obtain ⟨u, huse, -⟩ := useEquation?_eq_some he
      exact absurd (hgraph.symm.useAt huse) (h.not_useAt ho)
  exact ⟨ty, hinfer⟩

end Making

/-- The variable of a new block is bound to nothing, and its name denotes nothing. -/
theorem Making.scoped (ho : w.Housed) (hretypes : Retypes x z) : z.Scoped b := by
  intro v use hv hbelow use' hv' _ u
  cases hv.symm.trans hv'
  have hb : use.block = b := h.below_iff.1 (hretypes.keeps.below_iff.1 hbelow)
  obtain ⟨old, hold, huntyped⟩ := hretypes.sameGraph.symm.var hv
  have hbinding : use.binding? = none := by
    rw [← Variable.binding?_of_untyped huntyped,
      h.unbound ho hold ((Variable.block_of_untyped huntyped).trans hb)]
  have hroot : ∀ p, ¬ z.ParentOf p b := fun p hp => h.alone.1 p (hretypes.keeps.parentOf_iff.1 hp)
  rw [hbinding, hb]
  refine iff_of_false nofun fun hd => ?_
  cases hd with
  | here hp _ | above hp _ _ => exact hroot _ hp

/-- Declaring the types of a new block is an inference of its tree. -/
theorem Making.settled (ho : w.Owned) (htyped : x.isTyped = true)
    (hrun : x.declareTypes b = .ok z) :
    Settled false b x z where
  inOrder := h.inOrder
  owned := h.owned ho
  typed := htyped
  live := ⟨block, h.lookup⟩
  here hv hbelow hbound := by
    cases (h.unbound ho.toHoused hv (h.below_iff.1 hbelow)).symm.trans hbound
  error _ c hc := by
    obtain ⟨connection, hc, hbelow⟩ := hc
    simp [slotError, hc, (h.new hc (h.below_iff.1 hbelow)).2.1]
  given _ c hc := h.given ho hc
  settles := by
    obtain ⟨ty, hinfer⟩ := h.infer_eq ho htyped hrun
    obtain ⟨ids, hids, hnodup, hmem⟩ := h.inOrder.exists_descendants h.lookup
    have hone : ids = [b] := by
      refine List.perm_singleton.1
        ((List.perm_ext_iff_of_nodup hnodup (List.nodup_singleton b)).2 fun y => ?_)
      rw [hmem, h.below_iff, List.mem_singleton]
    refine ⟨ids, z, ty, hids, ?_, hinfer⟩
    rw [hone]
    simp [renewBlock, getBlock_eq_ok.2 h.lookup, wipe, hrun]

end Made

theorem Making.confined_declared (h : Making w b kind kind.hasOutput kind.layout.inputs x block)
    (ho : w.Owned) (hdeclare : x.declareTypesIfTyped b = .ok z) : Confined .all (· = b) w z := by
  refine h.confined.trans ?_
  unfold declareTypesIfTyped at hdeclare
  split at hdeclare
  · rename_i htyped
    have hsettled := h.settled ho htyped hdeclare
    exact ⟨hsettled.retypesIn.agree.mono fun y hy => h.below_iff.1 hy, hsettled.carries,
      fun huntyped => absurd htyped (by simp [huntyped])⟩
  · cases hdeclare
    exact .refl _ _ x

theorem Kept.newBlockWithId (hQ : Steady Q) (h : Kept Q tracked N w0 stale w) (hb : N b)
    (hrun : w.newBlockWithId kind b = .ok w') :
    Kept Q tracked N w0 stale w' ∧ (∀ y, y ≠ b → w'.blocks[y]? = w.blocks[y]?) ∧
      (∀ y, ¬ w'.ParentOf b y) ∧ ∃ block, w'.blocks[b]? = some block ∧ block.kind = kind := by
  obtain ⟨x, block, z, -, hmaking, hdeclare, rfl⟩ := exists_making h.inOrder h.owned.counted hrun
  have hretypes := retypes_declareTypesIfTyped hdeclare
  have hkeeps := hretypes.keeps
  have hs := (hmaking.standing hQ h.standing).retypes hretypes
  have hconfined := hmaking.confined_declared h.owned hdeclare
  have hother : ∀ y, y ≠ b → z.blocks[y]? = w.blocks[y]? := fun y hy => by
    rw [hretypes.sameGraph.blocks, hmaking.other hy]
  have hroot : ∀ p, ¬ z.ParentOf p b := fun p hp => hmaking.alone.1 p (hkeeps.parentOf_iff.1 hp)
  have htended := h.tended.settle hs (hconfined.coarsen (View.coarser_all _)) (fun y _ ht => by
      obtain ⟨b', rfl, hy⟩ := ht
      exact hmaking.below_self_iff.1 (hkeeps.below_iff.1 hy))
    (hkeeps.top_eq ▸ hmaking.mem_top)
    (fun _ => hmaking.scoped h.owned.toHoused hretypes)
    (fun htyped O hO => by
      have htyped' : x.isTyped = true := by
        rw [hretypes.rest] at htyped
        exact htyped
      rw [declareTypesIfTyped, if_pos htyped'] at hdeclare
      exact (hmaking.settled h.owned htyped' hdeclare).upToDate fun v hle _ =>
        hO v (hmaking.confined.carries.size_le.trans hle))
  have hparted : Parted N z := fun p y hp => by
    have hy : y ≠ b := by
      rintro rfl
      exact hroot p hp
    rw [ParentOf, hother y hy] at hp
    exact h.parted p y hp
  refine ⟨Kept.fire hQ ⟨htended.relax (fun _ _ hr => hr.1) (fun _ _ hr => hr.1),
    hconfined.agree.options.trans h.options, fun {y} hy => ?_, fun ht => (h.agree ht).trans ?_,
    hparted, h.inside, fun hw0 => (hconfined.untyped (h.isTyped_eq.trans hw0)).trans
    (h.untyped hw0)⟩ _, hother, fun y hy => hmaking.alone.2 y (hkeeps.parentOf_iff.1 hy), block, ?_,
    hmaking.kind_eq⟩
  · rw [hother y (fun heq => hy (heq ▸ hb)), h.old hy]
  · exact (hconfined.agree.mono fun y hy => hy ▸ hb).coarsen (View.coarser_all _)
  · exact (congrArg (·[b]?) hretypes.sameGraph.blocks).trans hmaking.lookup

end BlockGraph.Workspace
