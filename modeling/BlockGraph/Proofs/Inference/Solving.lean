import BlockGraph.Proofs.Inference.Equations

/-!
# The solving passes

Inference meets the equations of a tree one by one and does not stop at one that cannot hold.
`Workspace.Solving` carries the two ways it can stand after some of them: either no connection of
the tree has an error, and the solutions of the table are those it began with that satisfy the
equations; or some connection has an error, and no solution it began with satisfies them.  Errors
are not forgotten on the way, so which of the two holds at the end is what the errors show.

`Posed.solving` is a run through equations at connections of the tree.  A choice of types satisfies
the equations that inference puts up exactly if its reading satisfies those of `Typing.Links`
(`Poised.links_reading_iff`), and `Ready.exists_infer` is both passes over the tree.
-/

namespace BlockGraph.Workspace

variable {w v : Workspace} {root b : BlockId} {c : ConnectionId} {ty : Ty} {θ : Nat → Ty}

/-- No connection of a tree has an error. -/
def ErrorFree (w : Workspace) (root : BlockId) : Prop :=
  ∀ (c : ConnectionId) (connection : Connection), w.connections[c]? = some connection →
    w.Below root connection.block → connection.error = none

theorem errorFree_of_typeErrors (h : w.typeErrors = []) (root : BlockId) :
    w.ErrorFree root := by
  intro c connection hc _
  have hmem : (c, connection) ∈ w.connections.toList :=
    Std.ExtTreeMap.mem_toList_iff_getElem?_eq_some.2 hc
  simpa using List.filterMap_eq_nil_iff.1 h _ hmem

theorem slotError_eq {connection : Connection} (hc : w.connections[c]? = some connection) :
    w.slotError c = connection.error := by
  rw [slotError, hc]
  rfl

/-- Which connections belong to a tree does not depend on types. -/
theorem Retypes.errorFree_iff (h : Retypes w v) : v.ErrorFree root ↔
    ∀ (c : ConnectionId) (connection : Connection), w.connections[c]? = some connection →
      w.Below root connection.block → v.slotError c = none := by
  constructor
  · intro hfree c old hold hbelow
    obtain ⟨new, hnew, hblock, -⟩ := h.sameGraph.connection hold
    rw [slotError_eq hnew]
    exact hfree c new hnew (by rwa [h.sameGraph.below_eq, hblock])
  · intro hnone c new hnew hbelow
    obtain ⟨old, hold, hblock, -⟩ := h.sameGraph.symm.connection hnew
    rw [← slotError_eq hnew]
    exact hnone c old hold (by rwa [h.sameGraph.below_eq, ← hblock] at hbelow)

/-- A tree that can be solved: what has a type in it has one that the table knows, and there are no
errors. -/
structure Ready (w : Workspace) (root : BlockId) : Prop where
  inOrder : w.InOrder
  keeps : w.KeepsTree root
  held : ∀ {a : Holder}, w.HolderBelow root a → ∃ ty, w.typeAt a = some ty ∧ w.types.Covers ty
  errorFree : w.ErrorFree root

theorem Ready.poised (h : w.Ready root) : w.Poised root :=
  h.inOrder.poised h.keeps.layout h.held fun hbelow huse =>
    h.held (a := .inr _) (h.keeps.bound hbelow huse)

/-! ## A run through equations -/

/-- Where inference stands after the equations `S`, from `w` on. -/
structure Solving (w v : Workspace) (root : BlockId) (S : (Nat → Ty) → Prop) :
    Prop extends KeepsSlots w v where
  outcome : (v.ErrorFree root ∧ ∀ θ, v.types.Solution θ ↔ w.types.Solution θ ∧ S θ) ∨
    (¬ v.ErrorFree root ∧ ∀ θ, w.types.Solution θ → ¬ S θ)

theorem Solving.congr {S S' : (Nat → Ty) → Prop} (h : Solving w v root S) (heq : ∀ θ, S θ ↔ S' θ) :
    Solving w v root S' := by
  have : S = S' := funext fun θ => propext (heq θ)
  exact this ▸ h

/-- The errors show whether the equations have a solution. -/
theorem Solving.errorFree_iff {S : (Nat → Ty) → Prop} (h : Solving w v root S)
    (ht : w.types.Sound) :
    v.ErrorFree root ↔ ∃ θ, w.types.Solution θ ∧ S θ := by
  rcases h.outcome with ⟨hfree, hsol⟩ | ⟨herror, hnone⟩
  · exact iff_of_true hfree ⟨_, (hsol _).1 (h.retypes.sound ht).solution_image⟩
  · exact iff_of_false herror fun ⟨θ, hθ, hS⟩ => hnone θ hθ hS

/-- A run through equations at connections of a tree. -/
theorem Posed.solving {es : List Equation} (h : Posed es w v) (ht : w.types.Sound)
    (hfree : w.ErrorFree root)
    (hes : ∀ e ∈ es, ∃ connection, w.connections[e.socket]? = some connection ∧
      w.Below root connection.block) :
    Solving w v root fun θ => ∀ e ∈ es, e.Holds θ where
  toKeepsSlots := h.toKeepsSlots
  outcome := by
    rw [h.retypes.errorFree_iff]
    by_cases hall : ∀ e ∈ es, e.Holds v.types.image
    · refine .inl ⟨fun c connection hc hbelow => ?_,
        fun θ => ⟨fun hθ => ⟨h.solution hθ, fun e he => ?_⟩, fun hθ => ?_⟩⟩
      · by_contra herror
        rcases (h.error c).1 herror with herror | ⟨e, he, -, hnot⟩
        · exact herror ((slotError_eq hc).trans (hfree c connection hc hbelow))
        · exact hnot (hall e he)
      · exact (h.holds_iff ht he hθ).2 (hall e he)
      · exact h.complete hθ.1 hθ.2
    · refine .inr ⟨fun hnone => hall fun e he => ?_, fun θ hθ hS => hall fun e he => ?_⟩
      · by_contra hnot
        obtain ⟨connection, hc, hbelow⟩ := hes e he
        exact (h.error e.socket).2 (.inr ⟨e, he, rfl, hnot⟩) (hnone _ connection hc hbelow)
      · exact (h.holds_iff ht he (h.complete hθ hS)).1 (hS e he)

/-! ## The equations of a tree -/

theorem reading_socket (h : w.slotType c = some ty) : (w.reading θ).socket c = ty.subst θ :=
  reading_typeAt (a := .inl c) h

theorem reading_binder {u : VariableId} (h : w.boundType u = some ty) :
    (w.reading θ).binder u = ty.subst θ :=
  reading_typeAt (a := .inr u) h

namespace Poised

variable (hw : w.Poised root) {θ : Nat → Ty} (hbelow : w.Below root b)
include hw hbelow

theorem linksAt_reading_iff : (w.reading θ).LinksAt w b ↔ ∀ e ∈ w.inputEquations b, e.Holds θ := by
  constructor
  · intro hlinks e he
    obtain ⟨connection, hc, hb, hkind⟩ := hw.inOrder.socket_of_inputEquations he
    obtain ⟨block, input, -, -, he⟩ := mem_inputEquations.1 he
    obtain ⟨-, -, -, hexpected, socket, t, hsocket, ht, hfound⟩ := inputEquation?_eq_some.1 he
    cases hc.symm.trans hsocket
    have heq := hlinks hc hkind hb ht
    rwa [reading_socket hexpected, reading_socket hfound] at heq
  · rintro hall c t connection hc hkind rfl ht
    obtain ⟨block, hblock, -, hholds⟩ := hw.inOrder.structured.listed hc
    rw [hkind] at hholds
    obtain ⟨input, hinput, hvalue, hconnection⟩ := hholds
    obtain ⟨expected, hexpected, -⟩ :=
      hw.held (a := .inl c) ⟨connection, hc, by rw [hkind]; rfl, hbelow⟩
    obtain ⟨found, hfound, -⟩ :=
      hw.held (a := .inl t) (hw.inOrder.socketBelow_of_target hc hkind hbelow ht)
    rw [reading_socket hexpected, reading_socket hfound]
    exact hall ⟨c, expected, found, .input connection.block input.name⟩ (mem_inputEquations.2
      ⟨block, input, hblock, hinput, inputEquation?_eq_some.2
        ⟨hvalue, hconnection, rfl, hexpected, connection, t, hc, ht, hfound⟩⟩)

theorem usesAt_reading_iff : (w.reading θ).UsesAt w b ↔ ∀ e, w.useEquation? b = some e →
    e.Holds θ := by
  constructor
  · intro huses e he
    obtain ⟨value, huse, hexpected, hfound, -⟩ := useEquation?_eq_some he
    have heq := huses huse
    rwa [reading_socket hexpected, reading_binder hfound] at heq
  · intro hall c x huse
    obtain ⟨expected, hexpected, -⟩ := hw.held (a := .inl c) (huse.socketBelow hw.inOrder hbelow)
    obtain ⟨found, hfound, -⟩ := hw.value hbelow huse
    rw [reading_socket hexpected, reading_binder hfound]
    obtain ⟨origin, he⟩ := huse.exists_useEquation hexpected hfound
    exact hall _ he

end Poised

/-- A reading satisfies the links of a tree exactly if its choice of types satisfies the
equations. -/
theorem Poised.links_reading_iff (hw : w.Poised root) {order : List BlockId}
    (hmem : ∀ x, x ∈ order ↔ w.Below root x) :
    (w.reading θ).Links w root ↔ ∀ e ∈ w.equations order, e.Holds θ := by
  constructor
  · intro h e he
    obtain ⟨b, hb, he⟩ := mem_equations.1 he
    have hbelow := (hmem b).1 hb
    rcases he with he | he
    · exact (hw.linksAt_reading_iff hbelow).1 (h.link hbelow) e he
    · exact (hw.usesAt_reading_iff hbelow).1 (h.use hbelow) e he
  · intro h
    refine ⟨fun {b} hbelow => (hw.linksAt_reading_iff hbelow).2 fun e he => h e ?_,
      fun {b} hbelow => (hw.usesAt_reading_iff hbelow).2 fun e he => h e ?_⟩
    · exact mem_equations.2 ⟨b, (hmem b).2 hbelow, .inl he⟩
    · exact mem_equations.2 ⟨b, (hmem b).2 hbelow, .inr he⟩

/-- Inference ends without a fault, and has met all the equations of the tree. -/
theorem Ready.exists_infer (hw : w.Ready root) (htyped : w.isTyped = true)
    (hroot : ∃ block, w.blocks[root]? = some block) : ∃ ty v, w.infer root = .ok (ty, v) ∧
      Solving w v root fun θ => (w.reading θ).Links w root := by
  obtain ⟨block, hroot⟩ := hroot
  obtain ⟨order, ty, v, hmem, hinfer, -, hposed⟩ := hw.poised.exists_infer htyped hroot
  have hsolving := hposed.solving hw.inOrder.sound hw.errorFree fun e he => by
    obtain ⟨b, hb, he⟩ := mem_equations.1 he
    exact hw.inOrder.below_of_equation ((hmem b).1 hb) he
  exact ⟨ty, v, hinfer, hsolving.congr fun θ => (hw.poised.links_reading_iff hmem).symm⟩

end BlockGraph.Workspace
