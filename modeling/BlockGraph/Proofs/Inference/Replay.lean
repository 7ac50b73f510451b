import BlockGraph.Proofs.Inference.Equations
import BlockGraph.Proofs.Inference.Passes

/-!
# Inference can be replayed

The types of a tree depend on its graph alone: if the tree of `r` is the same graph in two
workspaces, a pass over the one can be made in the other as well, and it leaves the same types and
the same errors under a renaming of type variables (`Settled.replay`).  The variables it speaks of
are new, and the table has not changed what it knew of the others.

The blocks get the types of their kinds one after the other on both sides (`Mirror.renewBlocks`).
Then the equations of the tree are the same up to the renaming (`Mirror.equations`), and so is what
inference makes of them.
-/

namespace BlockGraph

open Relation

/-- The equation with other numbers for its variables. -/
def Equation.rename (f : Nat → Nat) (e : Equation) : Equation :=
  { e with expected := e.expected.rename f, found := e.found.rename f }

def Equation.Within (S : Nat → Prop) (e : Equation) : Prop := e.expected.Within S ∧ e.found.Within S

namespace Workspace

variable {x x' y x0 : Workspace} {r b : BlockId} {clear : Bool} {block : Block} {e : Equation}
  {es : List Equation} {order : List BlockId}

/-! ## Replaying a pass -/

namespace Mirror

variable {t0 : Table} {f g : Nat → Nat} {S S' : Nat → Prop} {T T' : Holder → Prop}
  {E E' : ConnectionId → Prop}

theorem renewBlock (h : Mirror r t0 f S T E x y) (hb : x.Below r b)
    (hblock : x.blocks[b]? = some block) (hT : ∀ c ∈ block.connections, ¬ T (.inl c))
    (herror : clear = false → ∀ c ∈ block.connections, x.slotError c = none)
    (hx : x.renewBlock clear b = .ok x') : ∃ y' g S', y.renewBlock true b = .ok y' ∧
        Mirror r t0 g S' (fun a => T a ∨ block.Given a ∨ (∃ c ∈ block.connections, a = .inl c) ∧
          (x.typeAt a).isSome = (y.typeAt a).isSome ∧ (clear = true ∨ x.typeAt a = none))
        (fun c => E c ∨ c ∈ block.connections) x' y' := by
  obtain ⟨block', hblock', hinnards⟩ := h.twins.exists_block hb hblock
  simp only [Workspace.renewBlock, getBlock_eq_ok.2 hblock, ok_bind] at hx
  simp only [Workspace.renewBlock, getBlock_eq_ok.2 hblock', ok_bind,
    Block.connections_of_innards hinnards]
  obtain ⟨f1, S1, hwipe⟩ := h.wipe (h.twins.left.nodup_connections hblock) hT herror
  have hgraph := (retypes_wipe clear block.connections x).sameGraph
  obtain ⟨y', g, S', hy, hmirror⟩ := hwipe.declareTypes (by rw [hgraph.below_eq]; exact hb)
    (by rw [hgraph.blocks]; exact hblock) hx
  refine ⟨y', g, S', hy, hmirror.weaken (fun a ha => ?_) fun _ => id⟩
  rcases ha with ha | ha | ha
  · exact .inl (.inl ha)
  · exact .inr ha
  · exact .inl (.inr ha)

/-! ### Equations -/

/-- An equation is met on both sides, or the same clash is recorded. -/
theorem pose (h : Mirror r t0 f S T E x y) (he : e.Within S) {right : Connection}
    (hright : y.connections[e.socket]? = some right) (hx : x.pose e = .ok x') :
    ∃ y', y.pose (e.rename f) = .ok y' ∧ Mirror r t0 f S T E x' y' := by
  have hleft := keepsSlots_pose h.twins.left.sound hx
  have hmirrors := h.embeds.unify h.twins.left.sound h.twins.right.sound he.1 he.2
  have hcarries : ∀ {u : Table}, Table.Leaves S x.types u → u.size = x.types.size →
      t0.Carries u := by
    intro u hleaves hsize
    refine ⟨by rw [hsize]; exact h.carries.size_le, fun v hv => ?_⟩
    rw [hleaves v fun hS => absurd (h.fresh v hS) (by omega), h.carries.entry v hv]
  have hsize := (h.twins.left.sound.unify_spec e.expected e.found).2.1.size_eq
  generalize ho : x.types.unify e.expected e.found = o at hmirrors hsize
  generalize ho' : y.types.unify (e.expected.rename f) (e.found.rename f) = o' at hmirrors
  cases hmirrors with
  | @done u u' hembeds hleaves =>
    have hy : y.pose (e.rename f) = .ok { y with types := u' } := by
      simp only [Workspace.pose, Equation.rename, recordUnify, ho']
    have hkept := keepsSlots_pose h.twins.right.sound hy
    simp only [Workspace.pose, recordUnify, ho] at hx
    cases hx
    exact ⟨_, hy, h.step hleft.retypes hkept.retypes hembeds (hcarries hleaves hsize)
      (fun _ _ => rfl) (fun _ => id) h.fresh (fun a ha => .inl ⟨ha, hleft.typeAt a, hkept.typeAt a⟩)
      fun c hc => .inl ⟨hc, rfl, rfl⟩⟩
  | @clash u u' clash hembeds hleaves hclash =>
    obtain ⟨y', hset⟩ := modifyConnection_ok (w := { y with types := u' }) hright
      ({ · with error := some ⟨clash.rename f, e.origin⟩ })
    have hy : y.pose (e.rename f) = .ok y' := by
      simp only [Workspace.pose, Equation.rename, recordUnify, ho', hset]
    have hkept := keepsSlots_pose h.twins.right.sound hy
    simp only [Workspace.pose, recordUnify, ho] at hx
    obtain ⟨old, hold, -⟩ := modifyConnection_eq_ok.1 hx
    obtain ⟨htypes, -⟩ := rest_modifyConnection hx
    obtain ⟨htypes', -⟩ := rest_modifyConnection hset
    refine ⟨y', hy, h.step hleft.retypes hkept.retypes (by rw [htypes, htypes']; exact hembeds)
      (by rw [htypes]; exact hcarries hleaves hsize) (fun _ _ => rfl) (fun _ => id) h.fresh
      (fun a ha => .inl ⟨ha, hleft.typeAt a, hkept.typeAt a⟩) fun d hd => ?_⟩
    rw [slotError_modifyConnection (w := { x with types := u }) hx hold,
      slotError_modifyConnection (w := { y with types := u' }) hset hright]
    by_cases hdc : d = e.socket
    · rw [if_pos hdc, if_pos hdc]
      refine .inr ⟨rfl, fun e he => ?_⟩
      cases he
      exact hclash
    · rw [if_neg hdc, if_neg hdc]
      exact .inl ⟨hd, rfl, rfl⟩

theorem poseAll : ∀ {x x' y : Workspace}, Mirror r t0 f S T E x y →
    (∀ e ∈ es, e.Within S ∧ x.OfTree r e.socket) → es.foldlM Workspace.pose x = .ok x' →
    ∃ y', (es.map (Equation.rename f)).foldlM Workspace.pose y = .ok y' ∧
    Mirror r t0 f S T E x' y' := by
  induction es with
  | nil =>
    intro x x' y h _ hx
    cases hx
    exact ⟨y, rfl, h⟩
  | cons e es ih =>
    intro x x' y h hes hx
    obtain ⟨x1, hx1, hx⟩ := bind_eq_ok.1 hx
    obtain ⟨he, left, hleft, hb⟩ := hes e List.mem_cons_self
    obtain ⟨right, hright, -⟩ := h.twins.exists_connection hleft hb
    obtain ⟨y1, hy1, hone⟩ := h.pose he hright hx1
    have hgraph := (retypes_recordUnify hx1).sameGraph
    obtain ⟨y', hy', hmirror⟩ := ih hone
      (fun e' he' => (hes e' (List.mem_cons_of_mem e he')).imp_right hgraph.ofTree) hx
    exact ⟨y', by rw [List.map_cons, List.foldlM_cons, hy1, ok_bind, hy'], hmirror⟩

end Mirror

/-! ### The equations of a tree -/

theorem Twins.holderIn (h : Twins r x y) {a : Holder} (ha : x.HolderIn r a) : y.HolderIn r a := by
  cases a with
  | inl c =>
    obtain ⟨connection, hconnection, hb⟩ := ha
    obtain ⟨connection', hconnection', hblock, -⟩ := h.exists_connection hconnection hb
    exact ⟨connection', hconnection', by rw [hblock]; exact h.same.below.2 hb⟩
  | inr v =>
    obtain ⟨b, block, hb, hblock, hkind, hown⟩ := ha
    obtain ⟨block', hblock', hinnards⟩ := h.exists_block hb hblock
    refine ⟨b, block', h.same.below.2 hb, hblock',
      by rw [Block.kind_of_innards hinnards]; exact hkind, ?_⟩
    rw [ownVariable_eq_ok hblock', Block.own?_of_innards hinnards]
    exact (ownVariable_eq_ok hblock).1 hown

namespace Mirror

variable {t0 : Table} {f : Nat → Nat} {S : Nat → Prop} {T : Holder → Prop} {E : ConnectionId → Prop}
  (h : Mirror r t0 f S T E x y) (hT : ∀ a, x.HolderIn r a → T a)

include h hT

theorem inputEquation? (hb : x.Below r b) (hblock : x.blocks[b]? = some block) {input : Input}
    (hinput : input ∈ block.inputs) :
    y.inputEquation? b input = (x.inputEquation? b input).map (Equation.rename f) ∧
      ∀ e ∈ x.inputEquation? b input, e.Within S := by
  unfold Workspace.inputEquation?
  split
  · next hkind =>
    cases hc : input.connection with
    | none => simp
    | some c =>
      obtain ⟨left, hleft, rfl, hvalue⟩ := h.twins.left.connection_of_input hblock hinput hkind hc
      obtain ⟨right, hright, -, htarget⟩ := h.twins.exists_connection hleft hb
      simp only [Option.bind_eq_bind, Option.bind_some, hleft, hright, htarget]
      cases ht : left.target with
      | none => simp
      | some t =>
        obtain ⟨plug, hplug, -, hplugBelow⟩ := h.twins.left.socketBelow_of_target hleft hvalue hb ht
        obtain ⟨hexpected, hwithin⟩ := h.type (.inl c) (hT _ ⟨left, hleft, hb⟩)
        obtain ⟨hfound, hwithin'⟩ := h.type (.inl t) (hT _ ⟨plug, hplug, hplugBelow⟩)
        simp only [typeAt] at hexpected hwithin hfound hwithin'
        rw [Option.bind_some, Option.bind_some, hexpected, hfound]
        cases hleft' : x.slotType c with
        | none => simp
        | some expected =>
          cases hplug' : x.slotType t with
          | none => simp
          | some found =>
            refine ⟨rfl, ?_⟩
            rintro _ ⟨⟩
            exact ⟨hwithin expected hleft', hwithin' found hplug'⟩
  · simp

theorem inputEquations (hb : x.Below r b) (hblock : x.blocks[b]? = some block) :
    y.inputEquations b = (x.inputEquations b).map (Equation.rename f) ∧
    ∀ e ∈ x.inputEquations b, e.Within S := by
  obtain ⟨block', hblock', hinnards⟩ := h.twins.exists_block hb hblock
  -- what an input only shows plays no part
  have hessence : ∀ l : List Input, l.flatMap (fun input => (y.inputEquation? b input).toList) =
      (l.map Input.essence).flatMap fun input => (y.inputEquation? b input).toList := fun l => by
    rw [List.flatMap_map]
    rfl
  constructor
  · simp only [Workspace.inputEquations, hblock, hblock', Option.map_some, Option.getD_some]
    rw [hessence, show block'.inputs.map Input.essence = block.inputs.map Input.essence from
      Block.inputs_of_innards hinnards, ← hessence, List.map_flatMap]
    exact List.flatMap_congr fun input hinput => by
      rw [(h.inputEquation? hT hb hblock hinput).1, Option.toList_map]
  · intro e he
    obtain ⟨found, input, hfound, hinput, he⟩ := mem_inputEquations.1 he
    cases hblock.symm.trans hfound
    exact (h.inputEquation? hT hb hblock hinput).2 e he

theorem useEquation? (hlocal : x.Local r) (hb : x.Below r b) (hblock : x.blocks[b]? = some block) :
    y.useEquation? b = (x.useEquation? b).map (Equation.rename f) ∧
    ∀ e ∈ x.useEquation? b, e.Within S := by
  obtain ⟨block', hblock', hinnards⟩ := h.twins.exists_block hb hblock
  have hown := Block.own?_of_innards hinnards
  unfold Block.own? at hown
  have hown : y.ownVariable b = x.ownVariable b := by
    simp only [ownVariable, fieldVariable?_eq hblock, fieldVariable?_eq hblock', ok_bind, hown]
  simp only [Workspace.useEquation?, hblock, hblock', Option.bind_eq_bind, Option.bind_some,
    Block.kind_of_innards hinnards, Block.output_of_innards hinnards, hown]
  split
  · cases hv : (x.ownVariable b).toOption with
    | none => simp
    | some v =>
      obtain ⟨use, huse, rfl, -⟩ :=
        h.twins.owned.var hblock ((ownVariable_eq_ok hblock).1 (toOption_eq_some_iff.1 hv))
      obtain ⟨use', huse', huntyped⟩ := h.twins.exists_var huse hb
      simp only [Option.bind_some, huse, huse', Variable.binding?_of_untyped huntyped,
        Variable.name_of_untyped huntyped]
      cases hbound : use.binding? with
      | none => simp
      | some u =>
        cases hout : block.output with
        | none => simp
        | some c =>
          obtain ⟨value, hvalue, hdeclared, hbelow⟩ := hlocal huse hb hbound
          obtain ⟨binder, hbinder, hisBinder, hownu⟩ := h.twins.owned.binder hvalue hdeclared
          obtain ⟨left, hleft, hleftBlock, -⟩ := h.twins.left.connection_of_output hblock hout
          obtain ⟨hexpected, hwithin⟩ := h.type (.inl c) (hT _ ⟨left, hleft, hleftBlock ▸ hb⟩)
          obtain ⟨hfound, hwithin'⟩ :=
            h.type (.inr u) (hT _ ⟨value.block, binder, hbelow, hbinder, hisBinder,
              (ownVariable_eq_ok hbinder).2 hownu⟩)
          simp only [typeAt] at hexpected hwithin hfound hwithin'
          simp only [Option.bind_some, hexpected, hfound]
          cases hleft' : x.slotType c with
          | none => simp
          | some expected =>
            cases hvalue' : x.boundType u with
            | none => simp
            | some found =>
              refine ⟨rfl, ?_⟩
              rintro _ ⟨⟩
              exact ⟨hwithin expected hleft', hwithin' found hvalue'⟩
  · simp

/-- The equations of the tree are the same, renamed. -/
theorem equations (hlocal : x.Local r) (hroot : x.blocks[r]? = some block)
    (horder : ∀ b ∈ order, x.Below r b) :
    y.equations order = (x.equations order).map (Equation.rename f) ∧
      ∀ e ∈ x.equations order, e.Within S ∧ x.OfTree r e.socket := by
  constructor
  · rw [Workspace.equations, Workspace.equations, List.map_append, List.map_flatMap,
      List.map_flatMap]
    congr 1
    · refine List.flatMap_congr fun b hb => ?_
      have hb := horder b (List.mem_reverse.1 hb)
      obtain ⟨found, hfound⟩ := hb.live hroot
      exact (h.inputEquations hT hb hfound).1
    · refine List.flatMap_congr fun b hb => ?_
      obtain ⟨found, hfound⟩ := (horder b hb).live hroot
      rw [(h.useEquation? hT hlocal (horder b hb) hfound).1, Option.toList_map]
  · intro e he
    obtain ⟨b, hb, he⟩ := mem_equations.1 he
    have hb := horder b hb
    obtain ⟨found, hfound⟩ := hb.live hroot
    refine ⟨?_, h.twins.left.below_of_equation hb he⟩
    rcases he with he | he
    · exact (h.inputEquations hT hb hfound).2 e he
    · exact (h.useEquation? hT hlocal hb hfound).2 e he

theorem askable (hlocal : x.Local r) : x.Askable r :=
  hlocal.askable h.twins.left h.twins.owned fun a ty ha hty =>
    h.embeds.covers ((h.type a (hT a ha.holderIn)).2 ty hty)

/-- Inference of the tree, on both sides. -/
theorem infer (hlocal : x.Local r) (htyped : x.isTyped = true) (hroot : x.blocks[r]? = some block)
    {ty : Option Ty} (hx : x.infer r = .ok (ty, x')) : ∃ ty' y', y.infer r = .ok (ty', y') ∧
    Mirror r t0 f S T E x' y' := by
  have hlocal' : y.Local r := hlocal.same h.twins.same h.twins.owned h.twins.owned'
  have hright : y.Askable r := hlocal'.askable h.twins.right h.twins.owned' fun a ty ha hty => by
    have hmatch := h.type a (hT a (h.twins.symm.holderIn ha.holderIn))
    rw [hmatch.1] at hty
    obtain ⟨ty', hty', rfl⟩ := Option.map_eq_some_iff.1 hty
    exact h.embeds.covers_rename (hmatch.2 ty' hty')
  obtain ⟨order, horder, -, hmem⟩ := h.twins.left.exists_descendants hroot
  obtain ⟨hequations, hes⟩ := h.equations hT hlocal hroot fun b hb => (hmem b).1 hb
  rw [(h.askable hT hlocal).infer_eq htyped hroot horder] at hx
  obtain ⟨x1, hx1, hx⟩ := bind_eq_ok.1 hx
  obtain ⟨ty1, -, hx⟩ := bind_eq_ok.1 hx
  cases hx
  obtain ⟨y', hy', hmirror⟩ := h.poseAll hes hx1
  obtain ⟨root', hroot', -⟩ := h.twins.exists_block ReflTransGen.refl hroot
  rw [← hequations] at hy'
  have hkept := keepsSlots_poseAll h.twins.right.sound hy'
  obtain ⟨ty', hty'⟩ :=
    (hkept.askable hright).exists_outputType (by rw [hkept.retypes.sameGraph.blocks, hroot'])
  refine ⟨ty', y', ?_, hmirror⟩
  rw [hright.infer_eq ((isTyped_congr h.twins.same.options).trans htyped) hroot'
    ((h.twins.descendants_eq hroot).trans horder), hy', ok_bind, hty']
  rfl

end Mirror

/-! ### Whole passes -/

/-- What some blocks reach. -/
def HolderOf (w : Workspace) (D : List BlockId) (a : Holder) : Prop :=
  ∃ b block, b ∈ D ∧ w.blocks[b]? = some block ∧ block.Reaches a

/-- Blocks of a tree get the types of their kinds on both sides.  The blocks in `done` have them
already. -/
theorem Mirror.renewBlocks {y0 : Workspace} (hx0 : x0.InOrder)
    (herror : clear = false → ∀ c, x0.OfTree r c → x0.slotError c = none)
    (hslots : ∀ c, x0.OfTree r c → x0.GivenIn r c ∨
      (x0.slotType c).isSome = (y0.slotType c).isSome ∧ (clear = true ∨ x0.slotType c = none))
      {t0 : Table} :
    ∀ {done : List BlockId} {x x' y : Workspace} {f : Nat → Nat} {S : Nat → Prop},
      (order ++ done).Nodup → (∀ b ∈ order, x0.Below r b ∧ ∃ block, x0.blocks[b]? = some block) →
      RetypesIn (· ∈ done) (x0.GivenIn r) x0 x → RetypesIn (fun _ => True) (x0.GivenIn r) y0 y →
      Mirror r t0 f S (x0.HolderOf done) (fun c => x0.HolderOf done (.inl c)) x y →
      order.foldlM (Workspace.renewBlock clear) x = .ok x' →
      ∃ y' g S', order.foldlM (Workspace.renewBlock true) y = .ok y' ∧
        Mirror r t0 g S' (x0.HolderOf (order.reverse ++ done))
          (fun c => x0.HolderOf (order.reverse ++ done) (.inl c)) x' y' := by
  induction order with
  | nil =>
    intro done x x' y f S _ _ _ _ h hx
    cases hx
    exact ⟨y, f, S, rfl, h⟩
  | cons b order ih =>
    intro done x x' y f S hnodup hbelow hxs hys h hx
    obtain ⟨x1, hx1, hx⟩ := bind_eq_ok.1 hx
    obtain ⟨hb, block, hblock⟩ := hbelow b List.mem_cons_self
    have hnew : b ∉ done := fun hmem =>
      (List.nodup_cons.1 hnodup).1 (List.mem_append_right _ hmem)
    have hgraph := hxs.retypes.sameGraph
    have hblockx : x.blocks[b]? = some block := by rw [hgraph.blocks, hblock]
    have hbx : x.Below r b := by rw [hgraph.below_eq]; exact hb
    obtain ⟨y1, g, S', hy1, hmirror⟩ := h.renewBlock hbx hblockx
      (fun c hc ⟨b', block', hb', hblock', hc'⟩ => hnew
        (hx0.block_unique hblock hblock' hc hc' ▸ hb'))
      (fun hclear c hc => by
        obtain ⟨connection, hconnection, rfl⟩ := hx0.structured.owned hblock hc
        rw [hxs.slotError hconnection hnew, herror hclear c ⟨connection, hconnection, hb⟩]) hx1
    have hgiven : ∀ c, block.Given (.inl c) → x0.GivenIn r c := fun c hc =>
      ⟨b, block, hb, hblock, hc⟩
    have hmirror : Mirror r t0 g S' (x0.HolderOf (b :: done))
        (fun c => x0.HolderOf (b :: done) (.inl c)) x1 y1 := by
      refine hmirror.weaken (fun a ha => ?_) fun c hc => ?_
      · obtain ⟨b', block', hb', hblock', ha⟩ := ha
        rcases List.mem_cons.1 hb' with rfl | hb'
        · cases hblock.symm.trans hblock'
          refine .inr ?_
          cases a with
          | inr v => exact .inl ha
          | inl c =>
            by_cases hc : block.Given (.inl c)
            · exact .inl hc
            · have hnot : ¬ x0.GivenIn r c := by
                rintro ⟨b'', block'', -, hblock'', hgiven⟩
                cases hx0.block_unique hblock hblock'' ha hgiven.reaches
                cases hblock.symm.trans hblock''
                exact hc hgiven
              obtain ⟨connection, hconnection, rfl⟩ := hx0.structured.owned hblock ha
              obtain ⟨hsome, hclear⟩ := (hslots c ⟨connection, hconnection, hb⟩).resolve_left hnot
              refine .inr ⟨⟨c, ha, rfl⟩, ?_, hclear.imp_right fun hnone => ?_⟩
              · exact (hxs.slots c hnot).trans (hsome.trans (hys.slots c hnot).symm)
              · rw [typeAt, ← Option.isNone_iff_eq_none, ← Option.not_isSome,
                  hxs.slots c hnot, hnone]
                rfl
        · exact .inl ⟨b', block', hb', hblock', ha⟩
      · obtain ⟨b', block', hb', hblock', hc⟩ := hc
        rcases List.mem_cons.1 hb' with rfl | hb'
        · cases hblock.symm.trans hblock'
          exact .inr hc
        · exact .inl ⟨b', block', hb', hblock', hc⟩
    obtain ⟨blocky, hblocky, hinnards⟩ := h.twins.exists_block hbx hblockx
    obtain ⟨y', g', S'', hy', hfinal⟩ := ih (List.perm_middle.nodup_iff.2 hnodup)
      (fun a ha => hbelow a (List.mem_cons_of_mem b ha))
      ((hxs.mono (fun a ha => List.mem_cons_of_mem b ha) fun _ => id).trans
        (retypesIn_renewBlock h.twins.left h.twins.owned hblockx List.mem_cons_self hgiven hx1))
      (hys.trans (retypesIn_renewBlock h.twins.right h.twins.owned' hblocky trivial
        (fun c hc => hgiven c ((Block.given_of_innards hinnards).1 hc)) hy1)) hmirror hx
    refine ⟨y', g', S'', by rw [List.foldlM_cons, hy1, ok_bind, hy'], ?_⟩
    rw [List.reverse_cons, List.append_assoc]
    exact hfinal

/-- All blocks of a tree get the types of their kinds on both sides. -/
theorem Twins.exists_renewed (h : Twins r x y) (hblock : x.blocks[r]? = some block)
    (horder : x.descendants r = .ok order)
    (herror : clear = false → ∀ c, x.OfTree r c → x.slotError c = none)
    (hslots : ∀ c, x.OfTree r c → x.GivenIn r c ∨ (x.slotType c).isSome = (y.slotType c).isSome ∧
      (clear = true ∨ x.slotType c = none))
    (hx : order.foldlM (Workspace.renewBlock clear) x = .ok x') :
    ∃ y' f S, order.foldlM (Workspace.renewBlock true) y = .ok y' ∧
      Mirror r x.types f S (x.HolderIn r) (x.OfTree r) x' y' := by
  obtain ⟨ids, hids, hnodup, hmem⟩ := h.left.exists_descendants hblock
  cases horder.symm.trans hids
  have hstart : Mirror r x.types id (fun _ => False) (x.HolderOf [])
    (fun c => x.HolderOf [] (.inl c)) x y :=
    ⟨h, .none id x.types y.types, .refl x.types, nofun, fun a ha => absurd ha (by simp [HolderOf]),
      fun c hc => absurd hc (by simp [HolderOf])⟩
  obtain ⟨y', f, S, hy, hmirror⟩ :=
    hstart.renewBlocks h.left herror hslots (by rw [List.append_nil]; exact hnodup)
      (fun b hb => ⟨(hmem b).1 hb, ((hmem b).1 hb).live hblock⟩) (.refl _ _ x) (.refl _ _ y) hx
  have hdone : ∀ {b}, x.Below r b → b ∈ order.reverse ++ [] := fun hb => by simp [hmem, hb]
  have hof : ∀ a, x.HolderIn r a → x.HolderOf (order.reverse ++ []) a := fun a ha => by
    cases a with
    | inl c =>
      obtain ⟨connection, hconnection, hb⟩ := ha
      obtain ⟨owner, howner, hcount, -⟩ := h.left.structured.listed hconnection
      exact ⟨_, owner, hdone hb, howner, List.one_le_count_iff.1 hcount.ge⟩
    | inr v =>
      obtain ⟨b, binder, hb, hbinder, hkind, hv⟩ := ha
      exact ⟨b, binder, hdone hb, hbinder,
        Block.given_inr_iff.2 ⟨hkind, (ownVariable_eq_ok hbinder).1 hv⟩⟩
  exact ⟨y', f, S, hy, hmirror.weaken hof fun c => hof (.inl c)⟩

/-- A pass can be made wherever the tree is the same graph, with the same types and errors. -/
theorem Settled.replay (h : Settled clear r x x') (hy : y.InOrder) (ho : y.Owned)
    (hsame : Same .graph x y r)
    (hslots : ∀ c, x.OfTree r c → x.GivenIn r c ∨ (x.slotType c).isSome = (y.slotType c).isSome) :
    ∃ ty y' f S, y.reinfer r = .ok (ty, y') ∧
    Mirror r x.types f S (x.HolderIn r) (x.OfTree r) x' y' := by
  obtain ⟨block, hblock⟩ := h.live
  obtain ⟨order, z, ty, horder, hz, hinfer⟩ := h.settles
  have htwins : Twins r x y := ⟨h.inOrder, hy, h.owned, ho, hsame⟩
  obtain ⟨y1, f, S, hy1, hmirror⟩ := htwins.exists_renewed hblock horder h.error (fun c hc => by
      cases clear with
      | true => exact (hslots c hc).imp id fun hsome => ⟨hsome, .inl rfl⟩
      | false =>
        rcases h.given rfl c hc with hgiven | hnone
        · exact .inl hgiven
        · exact (hslots c hc).imp id fun hsome => ⟨hsome, .inr hnone⟩) hz
  have hretypes := (retypesIn_renewBlocks h.inOrder h.owned hblock horder hz).retypes
  have hgraph := hretypes.sameGraph
  obtain ⟨ty', y', hy', hfinal⟩ := hmirror.infer (fun a ha => hgraph.symm.holderIn ha)
    (Local.same h.here (hgraph.same (by rw [hretypes.rest]) r) h.owned
      (h.owned.keeps hretypes.keepsInnards))
    (by rw [isTyped, hretypes.rest]; exact h.typed) (by rw [hgraph.blocks, hblock]) hinfer
  have htyped : y.isTyped = true := (isTyped_congr hsame.options).trans h.typed
  refine ⟨ty', y', f, S, ?_, hfinal⟩
  simp only [reinfer, clearTypes, htyped, Bool.not_true, Bool.false_eq_true, if_false,
    clearBlock_eq, htwins.descendants_eq hblock, horder, ok_bind, hy1, hy']

end Workspace

end BlockGraph
