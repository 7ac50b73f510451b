import BlockGraph.Proofs.Inference.Mirror
import BlockGraph.Proofs.Ty.Repetition

/-!
# The equations of a tree

Inference puts up one equation after the other and goes on after one that cannot hold.  Which
equations these are follows from the types written down at connections and declarations, and solving
changes none of those (`KeepsSlots`): so `Workspace.equations` lists them beforehand, and
`Askable.exists_infer` says that inference is the run through the list.

`Posed` says what such a run leaves.  Each of its equations is decided for good: either every
solution of the table satisfies it, or none does.  A connection has an error exactly if one of its
equations does not hold of the resolved types.
-/

namespace BlockGraph

/-- Two types that have to be equal, with the connection where a clash is recorded. -/
structure Equation where
  socket : ConnectionId
  expected : Ty
  found : Ty
  origin : Origin

/-- A choice of types satisfies an equation. -/
def Equation.Holds (e : Equation) (θ : Nat → Ty) : Prop := e.expected.subst θ = e.found.subst θ

namespace Workspace

variable {w w' v u : Workspace} {root b : BlockId} {block : Block} {input : Input} {e : Equation}
  {es es' : List Equation} {c : ConnectionId} {order : List BlockId} {ty : Ty} {θ : Nat → Ty}

/-! ## Readings -/

/-- The typing that a choice of types for the variables gives. -/
def reading (w : Workspace) (θ : Nat → Ty) : Typing where
  socket c := ((w.slotType c).getD (.var 0)).subst θ
  binder v := ((w.boundType v).getD (.var 0)).subst θ

/-- The resolved types of a tree are those of a typing. -/
structure Shows (w : Workspace) (root : BlockId) (τ : Typing) : Prop where
  socket : ∀ {c : ConnectionId}, w.SocketBelow root c → w.typeOf? c = .ok (some (τ.socket c))
  binder : ∀ {u : VariableId}, w.BinderBelow root u →
    ∃ ty, w.variableType? u = .ok (some ty) ∧ w.types.resolve ty = .ok (τ.binder u)

theorem slotType_of_typeOf? (h : w.typeOf? c = .ok (some ty)) :
    ∃ expr, w.slotType c = some expr ∧ w.types.resolve expr = .ok ty := by
  rw [typeOf?, bind_eq_ok] at h
  obtain ⟨connection, hc, h⟩ := h
  have hslot : w.slotType c = connection.type := by rw [slotType, getConnection_eq_ok.1 hc]; rfl
  cases htype : connection.type with
  | none => simp [htype] at h
  | some expr =>
    simp only [htype, bind_eq_ok] at h
    obtain ⟨ty', hresolve, hty⟩ := h
    cases hty
    exact ⟨expr, by rw [hslot, htype], hresolve⟩

theorem shows_iff {τ : Typing} : w.Shows root τ ↔ ∀ a, w.HolderBelow root a →
    ∃ expr, w.typeAt a = some expr ∧ w.types.resolve expr = .ok (τ.typeAt a) := by
  constructor
  · rintro h (c | u) ha
    · exact slotType_of_typeOf? (h.socket ha)
    · obtain ⟨expr, hexpr, hresolve⟩ := h.binder ha
      obtain ⟨found, hfound, hty⟩ := bind_eq_ok.1 hexpr
      refine ⟨expr, ?_, hresolve⟩
      rw [typeAt, boundType, getVariable_eq_ok.1 hfound]
      exact Except.ok.inj hty
  · refine fun h => ⟨fun {c} hc => ?_, fun {u} hu => ?_⟩
    · obtain ⟨expr, hexpr, hresolve⟩ := h (.inl c) hc
      obtain ⟨connection, hconnection, htype⟩ := Option.bind_eq_some_iff.1 hexpr
      simp only [typeOf?, getConnection_eq_ok.2 hconnection, htype, hresolve, ok_bind]
      rfl
    · obtain ⟨expr, hexpr, hresolve⟩ := h (.inr u) hu
      obtain ⟨found, hfound, htype⟩ := Option.bind_eq_some_iff.1 hexpr
      exact ⟨expr, by simp [variableType?, getVariable_eq_ok.2 hfound, htype], hresolve⟩

theorem reading_typeAt {a : Holder} (h : w.typeAt a = some ty) :
    (w.reading θ).typeAt a = ty.subst θ := by
  cases a <;> exact congrArg (fun o : Option Ty => (o.getD (.var 0)).subst θ) h

/-! ## Which equations there are -/

/-- The equation at an input: its socket has the type of what is plugged in. -/
def inputEquation? (w : Workspace) (b : BlockId) (input : Input) : Option Equation :=
  if input.kind = .value then do
    let c ← input.connection
    let t ← w.connections[c]?.bind Connection.target
    let expected ← w.slotType c
    let found ← w.slotType t
    return ⟨c, expected, found, .input b input.name⟩
  else none

/-- The equations at the inputs of a block. -/
def inputEquations (w : Workspace) (b : BlockId) : List Equation :=
  ((w.blocks[b]?.map Block.inputs).getD []).flatMap fun input => (w.inputEquation? b input).toList

/-- The equation at a use of a variable: its output has the type of the declaration it is bound
to. -/
def useEquation? (w : Workspace) (b : BlockId) : Option Equation := do
  let block ← w.blocks[b]?
  if block.kind = .variablesGet then
    let v ← (w.ownVariable b).toOption
    let use ← w.vars[v]?
    let value ← use.binding?
    let c ← block.output
    let expected ← w.slotType c
    let found ← w.boundType value
    return ⟨c, expected, found, .reference b use.name⟩
  else none

/-- The equations of some blocks, in the order in which inference puts them up. -/
def equations (w : Workspace) (order : List BlockId) : List Equation :=
  order.reverse.flatMap w.inputEquations ++ order.flatMap fun b => (w.useEquation? b).toList

theorem inputEquation?_eq_some : w.inputEquation? b input = some e ↔
    input.kind = .value ∧ input.connection = some e.socket ∧ e.origin = .input b input.name ∧
      w.slotType e.socket = some e.expected ∧
      ∃ socket t, w.connections[e.socket]? = some socket ∧ socket.target = some t ∧
        w.slotType t = some e.found := by
  unfold inputEquation?
  split
  · next hkind =>
    simp only [Option.bind_eq_bind, Option.bind_eq_some_iff, Option.pure_def, Option.some.injEq,
      hkind, true_and]
    constructor
    · rintro ⟨c, hc, t, ⟨socket, hsocket, ht⟩, expected, hexpected, found, hfound, rfl⟩
      exact ⟨hc, rfl, hexpected, socket, t, hsocket, ht, hfound⟩
    · rintro ⟨hc, horigin, hexpected, socket, t, hsocket, ht, hfound⟩
      refine ⟨_, hc, t, ⟨socket, hsocket, ht⟩, _, hexpected, _, hfound, ?_⟩
      rw [← horigin]
  · next hkind => simp [hkind]

theorem useEquation?_eq_some (h : w.useEquation? b = some e) : ∃ value, w.UseAt b e.socket value ∧
    w.slotType e.socket = some e.expected ∧ w.boundType value = some e.found ∧
    ∃ name, e.origin = .reference b name := by
  obtain ⟨block, hblock, h⟩ := Option.bind_eq_some_iff.1 h
  split at h
  · next hkind =>
    simp only [Option.bind_eq_bind, Option.bind_eq_some_iff, Option.pure_def,
      Option.some.injEq] at h
    obtain ⟨v, hv, use, huse, value, hvalue, c, hc, expected, hexpected, found, hfound, rfl⟩ := h
    exact ⟨value, ⟨block, v, use, hblock, hkind, hc, toOption_eq_some_iff.1 hv, huse, hvalue⟩,
      hexpected, hfound, use.name, rfl⟩
  · cases h

theorem UseAt.exists_useEquation {x : VariableId} (h : w.UseAt b c x) {expected found : Ty}
    (hexpected : w.slotType c = some expected) (hfound : w.boundType x = some found) :
    ∃ origin, w.useEquation? b = some ⟨c, expected, found, origin⟩ := by
  obtain ⟨block, v, use, hblock, hkind, hc, hown, huse, hvalue⟩ := h
  exact ⟨.reference b use.name, by
    simp [useEquation?, hblock, hkind, toOption_eq_some_iff.2 hown, huse, hvalue, hc,
      hexpected, hfound]⟩

theorem mem_inputEquations : e ∈ w.inputEquations b ↔
    ∃ block input, w.blocks[b]? = some block ∧ input ∈ block.inputs ∧
    w.inputEquation? b input = some e := by
  unfold inputEquations
  cases hblock : w.blocks[b]? with
  | none | some block => simp

theorem mem_equations : e ∈ w.equations order ↔
    ∃ b ∈ order, e ∈ w.inputEquations b ∨ w.useEquation? b = some e := by
  simp only [equations, List.mem_append, List.mem_flatMap, List.mem_reverse, Option.mem_toList,
    ← exists_or, ← and_or_left]

/-! ## What solving leaves alone -/

/-- The graph and the types that are written down are the same; the table and the errors may
differ. -/
structure KeepsSlots (w v : Workspace) : Prop where
  retypes : Retypes w v
  slot : ∀ c, v.slotType c = w.slotType c
  vars : v.vars = w.vars
  size : v.types.size = w.types.size
  baseline : v.baseline = w.baseline

namespace KeepsSlots

theorem refl (w : Workspace) : KeepsSlots w w := ⟨.refl w, fun _ => rfl, rfl, rfl, rfl⟩

variable (h : KeepsSlots w v)
include h

theorem trans (h' : KeepsSlots v u) : KeepsSlots w u where
  retypes := h.retypes.trans h'.retypes
  slot c := (h'.slot c).trans (h.slot c)
  vars := h'.vars.trans h.vars
  size := h'.size.trans h.size
  baseline := h'.baseline.trans h.baseline

theorem covers (hty : w.types.Covers ty) : v.types.Covers ty :=
  fun x hx => by rw [h.size]; exact hty x hx

theorem boundType (x : VariableId) : v.boundType x = w.boundType x := by
  rw [Workspace.boundType, h.vars, Workspace.boundType]

theorem typeAt (a : Holder) : v.typeAt a = w.typeAt a := by
  cases a with
  | inl c => exact h.slot c
  | inr x => exact h.boundType x

theorem reading : v.reading = w.reading := by
  funext θ
  simp only [Workspace.reading, h.slot, h.boundType]

theorem inputEquation? (b : BlockId) (input : Input) :
    v.inputEquation? b input = w.inputEquation? b input := by
  have htarget : ∀ c : ConnectionId, v.connections[c]?.bind Connection.target =
      w.connections[c]?.bind Connection.target := by
    intro c
    have hjoint := congrArg (Option.map Joint.target) (h.retypes.joint c)
    simp only [Option.map_map] at hjoint
    cases hv : v.connections[c]? <;> cases hw : w.connections[c]? <;> simp_all [Connection.joint]
  simp only [Workspace.inputEquation?, htarget, h.slot]

theorem inputEquations (b : BlockId) : v.inputEquations b = w.inputEquations b := by
  simp only [Workspace.inputEquations, h.inputEquation?, h.retypes.sameGraph.blocks]

theorem useEquation? (b : BlockId) : v.useEquation? b = w.useEquation? b := by
  simp only [Workspace.useEquation?, h.retypes.sameGraph.blocks, h.retypes.sameGraph.ownVariable_eq,
    h.vars, h.slot, h.boundType]

theorem equations (order : List BlockId) : v.equations order = w.equations order := by
  simp only [Workspace.equations, funext h.inputEquations, h.useEquation?]

end KeepsSlots

/-! ## Putting up equations -/

/-- Puts up an equation; a clash is recorded at its connection. -/
def pose (w : Workspace) (e : Equation) : Except Fault Workspace :=
  w.recordUnify e.socket e.expected e.found e.origin

theorem poseAll_singleton (w : Workspace) (e : Equation) : [e].foldlM pose w = w.pose e := by
  rw [List.foldlM_cons]
  cases w.pose e <;> rfl

/-- The connection of an equation is there, and the table knows its types. -/
structure Knows (w : Workspace) (e : Equation) : Prop where
  socket : ∃ connection, w.connections[e.socket]? = some connection
  expected : w.types.Covers e.expected
  found : w.types.Covers e.found

theorem KeepsSlots.knows (h : KeepsSlots w v) (he : w.Knows e) : v.Knows e where
  socket := by
    obtain ⟨connection, hc⟩ := he.socket
    obtain ⟨new, hnew, -⟩ := h.retypes.sameGraph.connection hc
    exact ⟨new, hnew⟩
  expected := h.covers he.expected
  found := h.covers he.found

theorem keepsSlots_pose (ht : w.types.Sound) (h : w.pose e = .ok v) : KeepsSlots w v := by
  have hretypes := retypes_recordUnify h
  obtain ⟨types, rfl, hcases⟩ := recordUnify_cases h
  have hsize := (ht.unify_spec e.expected e.found).2.1.size_eq
  rcases hcases with rfl | ⟨error, hmodify⟩
  · exact ⟨hretypes, fun _ => rfl, rfl, hsize, rfl⟩
  · obtain ⟨old, hold, rfl⟩ := modifyConnection_eq_ok.1 hmodify
    refine ⟨hretypes, congr_getElem?_insert (Option.bind · Connection.type) ?_, rfl, hsize, rfl⟩
    rw [show w.connections[e.socket]? = some old from hold]
    rfl

theorem keepsSlots_poseAll (ht : w.types.Sound) (h : es.foldlM pose w = .ok v) : KeepsSlots w v :=
  foldlM_induction (P := KeepsSlots w)
    (fun _ _ _ _ hv hstep => hv.trans (keepsSlots_pose (hv.retypes.sound ht) hstep)) (.refl w) h

theorem keepsSlots_infer (ht : w.types.Sound) {ty : Option Ty} (h : w.infer root = .ok (ty, v)) :
    KeepsSlots w v :=
  have hclosed : EquationsClosed (KeepsSlots w) :=
    ⟨fun {_ _ c expected found origin} hv hstep =>
      hv.trans (keepsSlots_pose (e := ⟨c, expected, found, origin⟩) (hv.retypes.sound ht) hstep)⟩
  hclosed.infer (.refl w) h

/-- What a run through equations leaves. -/
structure Posed (es : List Equation) (w v : Workspace) : Prop extends KeepsSlots w v where
  solution : ∀ {θ : Nat → Ty}, v.types.Solution θ → w.types.Solution θ
  complete : ∀ {θ : Nat → Ty}, w.types.Solution θ → (∀ e ∈ es, e.Holds θ) → v.types.Solution θ
  decided : ∀ e ∈ es, (∀ θ, v.types.Solution θ → e.Holds θ) ∨ ∀ θ, v.types.Solution θ → ¬ e.Holds θ
  error : ∀ c, v.slotError c ≠ none ↔
    w.slotError c ≠ none ∨ ∃ e ∈ es, e.socket = c ∧ ¬ e.Holds v.types.image
  origin : ∀ {c : ConnectionId} {error : TypeError}, v.slotError c = some error →
    w.slotError c = some error ∨ ∃ e ∈ es, e.socket = c ∧ e.origin = error.origin
  unchanged : (∀ e ∈ es, e.Holds w.types.image) → v = w

namespace Posed

theorem nil (w : Workspace) : Posed [] w w where
  toKeepsSlots := .refl w
  solution := id
  complete hθ _ := hθ
  decided := by simp
  error := by simp
  origin := Or.inl
  unchanged _ := rfl

/-- Which equations were put up matters, not in which order. -/
theorem congr (h : Posed es w v) (heq : ∀ e, e ∈ es ↔ e ∈ es') : Posed es' w v where
  toKeepsSlots := h.toKeepsSlots
  solution := h.solution
  complete hθ hall := h.complete hθ fun e he => hall e ((heq e).1 he)
  decided e he := h.decided e ((heq e).2 he)
  error c := by simpa only [heq] using h.error c
  origin hc := by simpa only [heq] using h.origin hc
  unchanged hall := h.unchanged fun e he => hall e ((heq e).1 he)

theorem sound (h : Posed es w v) (ht : w.types.Sound) : v.types.Sound := h.retypes.sound ht

/-- An equation that was put up holds of all solutions if it holds of the resolved types. -/
theorem holds_iff (h : Posed es w v) (ht : w.types.Sound) (he : e ∈ es) (hθ : v.types.Solution θ) :
    e.Holds θ ↔ e.Holds v.types.image := by
  have himage := (h.sound ht).solution_image
  rcases h.decided e he with hall | hnone
  · exact iff_of_true (hall θ hθ) (hall _ himage)
  · exact iff_of_false (hnone θ hθ) (hnone _ himage)

theorem trans (h : Posed es w v) (h' : Posed es' v u) (ht : w.types.Sound) :
    Posed (es ++ es') w u where
  toKeepsSlots := h.toKeepsSlots.trans h'.toKeepsSlots
  solution hθ := h.solution (h'.solution hθ)
  complete hθ hall := h'.complete (h.complete hθ fun e he => hall e (List.mem_append_left _ he))
    fun e he => hall e (List.mem_append_right _ he)
  decided e he := by
    rcases List.mem_append.1 he with he | he
    · exact (h.decided e he).imp (fun hall θ hθ => hall θ (h'.solution hθ))
        fun hnone θ hθ => hnone θ (h'.solution hθ)
    · exact h'.decided e he
  error c := by
    have himage : u.types.Solution u.types.image := (h'.sound (h.sound ht)).solution_image
    have hearlier : (∃ e ∈ es, e.socket = c ∧ ¬ e.Holds v.types.image) ↔
        ∃ e ∈ es, e.socket = c ∧ ¬ e.Holds u.types.image :=
      exists_congr fun e => and_congr_right fun he =>
        and_congr_right fun _ => not_congr (h.holds_iff ht he (h'.solution himage)).symm
    rw [h'.error, h.error, hearlier, or_assoc, ← exists_or]
    simp only [List.mem_append, or_and_right]
  origin hc := by
    simp only [List.mem_append, or_and_right, exists_or, ← or_assoc]
    exact (h'.origin hc).imp_left h.origin
  unchanged hall := by
    obtain rfl := h.unchanged fun e he => hall e (List.mem_append_left _ he)
    exact h'.unchanged fun e he => hall e (List.mem_append_right _ he)

end Posed

/-- One equation. -/
theorem exists_pose (ht : w.types.Sound) (he : w.Knows e) : ∃ v, w.pose e = .ok v ∧ Posed
    [e] w v := by
  obtain ⟨hsound, hgrows, hconcl⟩ := ht.unify_spec e.expected e.found
  have hcov : w.types.CoversAll [(e.expected, e.found)] := by simp [he.expected, he.found]
  have hagain : e.Holds w.types.image → w.types.unify e.expected e.found = .done w.types :=
    ht.unify_of_image he.expected he.found
  cases hu : w.types.unify e.expected e.found with
  | done types =>
    rw [hu] at hsound hgrows hconcl hagain
    have hrun : w.pose e = .ok { w with types } := by simp only [pose, recordUnify, hu]
    have hholds : ∀ θ, types.Solution θ → e.Holds θ := fun θ hθ => by
      simpa [Equation.Holds] using ((hconcl θ).1 hθ).2
    refine ⟨_, hrun, keepsSlots_pose ht hrun, hgrows.solution,
      fun {θ} hθ hall => (hconcl θ).2 ⟨hθ, ?_⟩, by simpa using .inl hholds, fun c => ?_, .inl,
      fun hall => ?_⟩
    · simpa [Equation.Holds] using hall
    · refine (or_iff_left ?_).symm
      rintro ⟨x, hx, -, hnot⟩
      cases List.mem_singleton.1 hx
      exact hnot (hholds _ hsound.solution_image)
    · cases hagain (hall e List.mem_cons_self)
      rfl
  | stopped reason types =>
    rw [hu] at hsound hgrows hconcl hagain
    cases reason with
    | fault fault => exact absurd hcov hconcl
    | clash clash =>
      obtain ⟨old, hold⟩ := he.socket
      obtain ⟨v, hv⟩ := modifyConnection_ok (w := { w with types }) hold
        ({ · with error := some ⟨clash, e.origin⟩ })
      have hrun : w.pose e = .ok v := by simp only [pose, recordUnify, hu, hv]
      have herror := slotError_modifyConnection hv hold
      obtain ⟨rfl, -⟩ := rest_modifyConnection hv
      have hfails : ∀ θ, v.types.Solution θ → ¬ e.Holds θ := fun θ hθ heq =>
        hconcl hcov θ (hgrows.solution hθ) (by simpa [Equation.Holds] using heq)
      refine ⟨v, hrun, keepsSlots_pose ht hrun, hgrows.solution,
        fun {θ} hθ hall => (hconcl hcov θ hθ ?_).elim, by simpa using .inr hfails, fun c => ?_,
        fun {c error} hc => ?_, fun hall => ?_⟩
      · simpa [Equation.Holds] using hall
      · rw [herror]
        split
        · next heq =>
          exact iff_of_true (by simp)
            (.inr ⟨e, List.mem_cons_self, heq.symm, hfails _ hsound.solution_image⟩)
        · next hne =>
          refine (or_iff_left ?_).symm
          rintro ⟨x, hx, heq, -⟩
          cases List.mem_singleton.1 hx
          exact hne heq.symm
      · rw [herror] at hc
        split at hc
        · next heq =>
          cases hc
          exact .inr ⟨e, List.mem_cons_self, heq.symm, rfl⟩
        · exact .inl hc
      · cases hagain (hall e List.mem_cons_self)

/-- A run through equations ends without a fault. -/
theorem exists_poseAll : ∀ {w : Workspace}, w.types.Sound → (∀ e ∈ es, w.Knows e) →
    ∃ v, es.foldlM pose w = .ok v ∧ Posed es w v := by
  induction es with
  | nil => exact fun {w} _ _ => ⟨w, rfl, .nil w⟩
  | cons e es ih =>
    intro w ht hknows
    obtain ⟨v, hv, hone⟩ := exists_pose ht (hknows e List.mem_cons_self)
    obtain ⟨u, hu, hmore⟩ := ih (hone.sound ht) fun x hx =>
      hone.knows (hknows x (List.mem_cons_of_mem e hx))
    exact ⟨u, by rw [List.foldlM_cons, hv, ok_bind, hu], hone.trans hmore ht⟩

/-- Steps that put up equations put up their lists one after the other. -/
theorem foldlM_eq_poseAll {α : Type} {f : Workspace → α → Except Fault Workspace}
    {E : α → List Equation} {l : List α} (ht : w.types.Sound)
    (hstep : ∀ a ∈ l, ∀ v, KeepsSlots w v → f v a = (E a).foldlM pose v) :
    ∀ {v : Workspace}, KeepsSlots w v → l.foldlM f v = (l.flatMap E).foldlM pose v := by
  induction l with
  | nil => exact fun _ => rfl
  | cons a l ih =>
    intro v hv
    rw [List.foldlM_cons, List.flatMap_cons, List.foldlM_append, hstep a List.mem_cons_self v hv]
    cases hrun : (E a).foldlM pose v with
    | error fault => rfl
    | ok u =>
      exact ih (fun x hx => hstep x (List.mem_cons_of_mem a hx))
        (hv.trans (keepsSlots_poseAll (hv.retypes.sound ht) hrun))

/-! ## Inference puts up the equations of a tree -/

/-- What the equations of the blocks below `root` mention is there, and the table knows the
types. -/
structure Askable (w : Workspace) (root : BlockId) : Prop where
  inOrder : w.InOrder
  slot : ∀ {c : ConnectionId} {ty : Ty}, w.SocketBelow root c → w.slotType c = some ty →
    w.types.Covers ty
  use : ∀ {b : BlockId} {block : Block}, w.Below root b → w.blocks[b]? = some block →
    block.kind = .variablesGet → ∃ v use, w.ownVariable b = .ok v ∧ w.vars[v]? = some use ∧
    ∀ x, use.binding? = some x →
      ∃ value, w.vars[x]? = some value ∧ ∀ ty, value.type? = some ty → w.types.Covers ty

/-- If the uses of the tree are bound within it, the table has to know the types of the tree. -/
theorem Local.askable (hlocal : w.Local root) (hw : w.InOrder) (ho : w.Owned)
    (hcovers : ∀ a ty, w.HolderBelow root a → w.typeAt a = some ty → w.types.Covers ty) :
    w.Askable root where
  inOrder := hw
  slot {c ty} := hcovers (.inl c) ty
  use {b block} hb hblock hkind := by
    obtain ⟨x, hx⟩ := Option.isSome_iff_exists.1 ((ho.tidy hblock).own.2 (.inr hkind))
    obtain ⟨use, huse, rfl, -⟩ := ho.var hblock hx
    refine ⟨x, use, (ownVariable_eq_ok hblock).2 hx, huse, fun u hbinding => ?_⟩
    obtain ⟨value, hvalue, hdeclared, hinside⟩ := hlocal huse hb hbinding
    obtain ⟨binder, hbinder, hisBinder, hown⟩ := ho.binder hvalue hdeclared
    refine ⟨value, hvalue,
      fun ty hty => hcovers (.inr u) ty ?_ (by rw [typeAt, boundType, hvalue]; exact hty)⟩
    exact ⟨_, binder, hinside, hbinder, hisBinder, (ownVariable_eq_ok hbinder).2 hown⟩

theorem KeepsSlots.askable (h : KeepsSlots w v) (hw : w.Askable root) : v.Askable root where
  inOrder := hw.inOrder.keeps h.retypes.keeps
  slot {c ty} hc hty :=
    h.covers (hw.slot (h.retypes.sameGraph.symm.socketBelow hc) ((h.slot c).symm.trans hty))
  use {b block} hbelow hblock hkind := by
    rw [h.retypes.sameGraph.below_eq] at hbelow
    rw [h.retypes.sameGraph.blocks] at hblock
    obtain ⟨x, use, hown, huse, hbound⟩ := hw.use hbelow hblock hkind
    refine ⟨x, use, (h.retypes.sameGraph.ownVariable_eq b).trans hown, by rw [h.vars, huse],
      fun y hy => ?_⟩
    obtain ⟨value, hvalue, hcovers⟩ := hbound y hy
    exact ⟨value, by rw [h.vars, hvalue], fun ty hty => h.covers (hcovers ty hty)⟩

theorem InOrder.unifyInput_eq (hw : w.InOrder) (hblock : w.blocks[b]? = some block)
    (hinput : input ∈ block.inputs) :
    w.unifyInput b input = (w.inputEquation? b input).toList.foldlM pose w := by
  unfold unifyInput inputEquation?
  split
  · next c hkind hconnection =>
    obtain ⟨socket, hc, -⟩ := hw.connection_of_input hblock hinput hkind hconnection
    simp only [hkind, hconnection, getConnection_eq_ok.2 hc, hc, ok_bind, if_true,
      Option.bind_eq_bind, Option.bind_some]
    cases ht : socket.target with
    | none => rfl
    | some t =>
      obtain ⟨plug, hplug, -⟩ := hw.structured.target hc ht
      simp only [getConnection_eq_ok.2 hplug, ok_bind, slotType, hc, hplug, Option.bind_some]
      cases socket.type with
      | none => rfl
      | some expected =>
        cases plug.type with
        | none => rfl
        | some found => exact (poseAll_singleton w ⟨c, expected, found, .input b input.name⟩).symm
  · next hnot =>
    by_cases hkind : input.kind = .value
    · cases hconnection : input.connection with
      | none => simp [pure_eq_ok]
      | some c => exact absurd hconnection (hnot c hkind)
    · simp [hkind, pure_eq_ok]

theorem InOrder.unifyInputs_eq (hw : w.InOrder) (hblock : w.blocks[b]? = some block) :
    w.unifyInputs b = (w.inputEquations b).foldlM pose w := by
  simp only [unifyInputs, getBlock_eq_ok.2 hblock, ok_bind, inputEquations, hblock, Option.map_some,
    Option.getD_some]
  refine foldlM_eq_poseAll hw.sound (fun input hinput v hv => ?_) (.refl w)
  rw [(hw.keeps hv.retypes.keeps).unifyInput_eq (by rw [hv.retypes.sameGraph.blocks, hblock])
    hinput, hv.inputEquation?]

theorem Askable.unifyReference_eq (hw : w.Askable root) (hbelow : w.Below root b)
    (hblock : w.blocks[b]? = some block) :
    w.unifyReference b = (w.useEquation? b).toList.foldlM pose w := by
  simp only [unifyReference, useEquation?, getBlock_eq_ok.2 hblock, ok_bind, hblock,
    Option.bind_eq_bind, Option.bind_some]
  by_cases hkind : block.kind = .variablesGet
  · obtain ⟨x, use, hown, huse, hbound⟩ := hw.use hbelow hblock hkind
    simp only [hkind, ne_eq, not_true_eq_false, if_false, if_true, hown, Except.toOption, ok_bind,
      getVariable_eq_ok.2 huse, huse, Option.bind_some]
    cases hbinding : use.binding? with
    | none => rfl
    | some value =>
      obtain ⟨declaration, hvalue, -⟩ := hbound value hbinding
      simp only [variableType?, getVariable_eq_ok.2 hvalue, ok_bind, pure_eq_ok, boundType, hvalue,
        Option.bind_some]
      cases hc : block.output with
      | none => cases declaration.type? <;> rfl
      | some c =>
        obtain ⟨connection, hconnection, -⟩ := hw.inOrder.connection_of_output hblock hc
        cases hfound : declaration.type? with
        | none => cases w.slotType c <;> simp
        | some found =>
          simp only [getConnection_eq_ok.2 hconnection, ok_bind, Option.bind_some, slotType,
            hconnection]
          cases connection.type with
          | none => rfl
          | some expected =>
            exact (poseAll_singleton w ⟨c, expected, found, .reference b use.name⟩).symm
  · simp [hkind, pure_eq_ok]

theorem InOrder.socket_of_inputEquations (hw : w.InOrder) (he : e ∈ w.inputEquations b) :
    ∃ connection, w.connections[e.socket]? = some connection ∧ connection.block = b ∧
      connection.kind = .inputValue := by
  obtain ⟨block, input, hblock, hinput, he⟩ := mem_inputEquations.1 he
  obtain ⟨hkind, hconnection, -⟩ := inputEquation?_eq_some.1 he
  exact hw.connection_of_input hblock hinput hkind hconnection

theorem InOrder.socket_of_useEquation (hw : w.InOrder) (he : w.useEquation? b = some e) :
    ∃ connection, w.connections[e.socket]? = some connection ∧ connection.block = b ∧
    connection.kind = .output := by
  obtain ⟨value, ⟨block, x, use, hblock, -, hc, -⟩, -⟩ := useEquation?_eq_some he
  exact hw.connection_of_output hblock hc

/-- The equations of a block stand at its own connections. -/
theorem InOrder.below_of_equation (hw : w.InOrder) (hbelow : w.Below root b)
    (he : e ∈ w.inputEquations b ∨ w.useEquation? b = some e) :
    ∃ connection, w.connections[e.socket]? = some connection ∧ w.Below root connection.block := by
  rcases he with he | he
  · obtain ⟨connection, hc, rfl, -⟩ := hw.socket_of_inputEquations he
    exact ⟨connection, hc, hbelow⟩
  · obtain ⟨connection, hc, rfl, -⟩ := hw.socket_of_useEquation he
    exact ⟨connection, hc, hbelow⟩

/-- Equations at one connection have one origin. -/
theorem InOrder.origin_eq (hw : w.InOrder) {e' : Equation} (he : e ∈ w.equations order)
    (he' : e' ∈ w.equations order) (hsocket : e.socket = e'.socket) : e.origin = e'.origin := by
  obtain ⟨b, -, he⟩ := mem_equations.1 he
  obtain ⟨b', -, he'⟩ := mem_equations.1 he'
  rcases he with he | he
  · obtain ⟨connection, hc, rfl, hkind⟩ := hw.socket_of_inputEquations he
    rcases he' with he' | he'
    · obtain ⟨connection', hc', rfl, -⟩ := hw.socket_of_inputEquations he'
      cases (hsocket ▸ hc).symm.trans hc'
      obtain ⟨block, input, hblock, hinput, he⟩ := mem_inputEquations.1 he
      obtain ⟨block', input', hblock', hinput', he'⟩ := mem_inputEquations.1 he'
      cases hblock.symm.trans hblock'
      obtain ⟨-, hconnection, horigin, -⟩ := inputEquation?_eq_some.1 he
      obtain ⟨-, hconnection', horigin', -⟩ := inputEquation?_eq_some.1 he'
      rw [horigin, horigin',
        hw.input_unique hblock hinput hinput' (hsocket ▸ hconnection) hconnection']
    · obtain ⟨connection', hc', -, hkind'⟩ := hw.socket_of_useEquation he'
      cases (hsocket ▸ hc).symm.trans hc'
      cases hkind.symm.trans hkind'
  · obtain ⟨connection, hc, rfl, hkind⟩ := hw.socket_of_useEquation he
    rcases he' with he' | he'
    · obtain ⟨connection', hc', -, hkind'⟩ := hw.socket_of_inputEquations he'
      cases (hsocket ▸ hc).symm.trans hc'
      cases hkind.symm.trans hkind'
    · obtain ⟨connection', hc', rfl, -⟩ := hw.socket_of_useEquation he'
      cases (hsocket ▸ hc).symm.trans hc'
      cases he.symm.trans he'
      rfl

namespace Askable

variable (hw : w.Askable root)
include hw

theorem knows (hbelow : w.Below root b) (he : e ∈ w.inputEquations b ∨ w.useEquation? b = some e) :
    w.Knows e := by
  rcases he with he | he
  · obtain ⟨connection, hc, rfl, hkind⟩ := hw.inOrder.socket_of_inputEquations he
    obtain ⟨block, input, -, -, he⟩ := mem_inputEquations.1 he
    obtain ⟨-, -, -, hexpected, socket, t, hsocket, ht, hfound⟩ := inputEquation?_eq_some.1 he
    cases hc.symm.trans hsocket
    exact ⟨⟨connection, hc⟩, hw.slot ⟨connection, hc, by rw [hkind]; rfl, hbelow⟩ hexpected,
      hw.slot (hw.inOrder.socketBelow_of_target hc hkind hbelow ht) hfound⟩
  · obtain ⟨connection, hc, rfl, -⟩ := hw.inOrder.socket_of_useEquation he
    obtain ⟨value, huse, hexpected, hfound, -⟩ := useEquation?_eq_some he
    refine ⟨⟨connection, hc⟩, hw.slot (huse.socketBelow hw.inOrder hbelow) hexpected, ?_⟩
    obtain ⟨block, v, use, hblock, hkind, -, hown, hlook, hbinding⟩ := huse
    obtain ⟨v', use', hown', hlook', hbound⟩ := hw.use hbelow hblock hkind
    cases hown.symm.trans hown'
    cases hlook.symm.trans hlook'
    obtain ⟨declaration, hdeclaration, hcovers⟩ := hbound value hbinding
    rw [boundType, hdeclaration] at hfound
    exact hcovers _ hfound

theorem exists_outputType (hroot : w.blocks[root]? = some block) :
    ∃ ty, w.outputType? root = .ok ty := by
  simp only [outputType?, getBlock_eq_ok.2 hroot, ok_bind]
  cases hc : block.output with
  | none => exact ⟨none, rfl⟩
  | some c =>
    obtain ⟨connection, hconnection, hb, hkind⟩ := hw.inOrder.connection_of_output hroot hc
    simp only [typeOf?, getConnection_eq_ok.2 hconnection, ok_bind]
    cases hty : connection.type with
    | none => exact ⟨none, rfl⟩
    | some ty =>
      have hcovers : w.types.Covers ty :=
        hw.slot ⟨connection, hconnection, by rw [hkind]; rfl, hb ▸ .refl⟩
          (by rw [slotType, hconnection]; exact hty)
      exact ⟨some (ty.subst w.types.image), by simp [hw.inOrder.sound.resolve_eq hcovers]⟩

/-- The two passes put up the equations of the blocks. -/
theorem passes_eq (hroot : w.blocks[root]? = some block) (horder : ∀ x ∈ order, w.Below root x) :
    order.reverse.foldlM unifyInputs w = (order.reverse.flatMap w.inputEquations).foldlM pose w ∧
      ∀ {v}, KeepsSlots w v → order.foldlM unifyReference v =
        (order.flatMap fun b => (w.useEquation? b).toList).foldlM pose v := by
  have hsound := hw.inOrder.sound
  constructor
  · refine foldlM_eq_poseAll hsound (fun b hb v hv => ?_) (.refl w)
    obtain ⟨found, hfound⟩ := (horder b (List.mem_reverse.1 hb)).live hroot
    rw [(hv.askable hw).inOrder.unifyInputs_eq (by rw [hv.retypes.sameGraph.blocks, hfound]),
      hv.inputEquations]
  · refine fun hv => foldlM_eq_poseAll hsound (fun b hb v hv => ?_) hv
    obtain ⟨found, hfound⟩ := (horder b hb).live hroot
    rw [(hv.askable hw).unifyReference_eq (by rw [hv.retypes.sameGraph.below_eq]; exact horder b hb)
      (by rw [hv.retypes.sameGraph.blocks, hfound]), hv.useEquation?]

variable (htyped : w.isTyped = true) (hroot : w.blocks[root]? = some block)
include htyped hroot

theorem infer_eq (horder : w.descendants root = .ok order) :
    w.infer root = do let v ← (w.equations order).foldlM pose w; return (← v.outputType? root,
      v) := by
  obtain ⟨ids, hids, -, hmem⟩ := hw.inOrder.exists_descendants hroot
  cases horder.symm.trans hids
  obtain ⟨hinputs, huses⟩ := hw.passes_eq hroot fun x hx => (hmem x).1 hx
  simp only [infer, htyped, Bool.not_true, Bool.false_eq_true, if_false, horder, ok_bind, hinputs,
    equations, List.foldlM_append]
  cases hrun : (order.reverse.flatMap w.inputEquations).foldlM pose w with
  | error fault => rfl
  | ok v => rw [ok_bind, ok_bind, huses (keepsSlots_poseAll hw.inOrder.sound hrun)]

/-- Inference runs first through the equations at inputs, then through those at uses, and ends
without a fault. -/
theorem exists_passes :
    ∃ (order : List BlockId) (v1 : Workspace) (ty : Option Ty) (v : Workspace),
      (∀ x, x ∈ order ↔ w.Below root x) ∧ order.reverse.foldlM unifyInputs w = .ok v1 ∧
      Posed (order.reverse.flatMap w.inputEquations) w v1 ∧
      Posed (order.flatMap fun b => (w.useEquation? b).toList) v1 v ∧
      w.infer root = .ok (ty, v) ∧ v.outputType? root = .ok ty := by
  obtain ⟨order, horder, -, hmem⟩ := hw.inOrder.exists_descendants hroot
  have hsound := hw.inOrder.sound
  obtain ⟨hinputs, huses⟩ := hw.passes_eq hroot fun x hx => (hmem x).1 hx
  obtain ⟨v1, h1, hfirst⟩ := exists_poseAll hsound fun e he => by
    obtain ⟨b, hb, he⟩ := List.mem_flatMap.1 he
    exact hw.knows ((hmem b).1 (List.mem_reverse.1 hb)) (.inl he)
  obtain ⟨v, hv, hsecond⟩ := exists_poseAll (hfirst.sound hsound) fun e he => by
    obtain ⟨b, hb, he⟩ := List.mem_flatMap.1 he
    exact hfirst.knows (hw.knows ((hmem b).1 hb) (.inr (Option.mem_toList.1 he)))
  rw [← huses hfirst.toKeepsSlots] at hv
  have hkept := hfirst.toKeepsSlots.trans hsecond.toKeepsSlots
  obtain ⟨ty, hty⟩ :=
    (hkept.askable hw).exists_outputType (by rw [hkept.retypes.sameGraph.blocks, hroot])
  refine ⟨order, v1, ty, v, hmem, hinputs.trans h1, hfirst, hsecond, ?_, hty⟩
  simp only [infer, htyped, Bool.not_true, Bool.false_eq_true, if_false, horder, ok_bind, hinputs,
    h1, hv, hty, pure_eq_ok]

/-- **Inference is the run through the equations of the tree.** -/
theorem exists_infer :
    ∃ order ty v, (∀ x, x ∈ order ↔ w.Below root x) ∧ w.infer root = .ok (ty, v) ∧
      v.outputType? root = .ok ty ∧ Posed (w.equations order) w v := by
  obtain ⟨order, v1, ty, v, hmem, -, hfirst, hsecond, hinfer, hty⟩ := hw.exists_passes htyped hroot
  exact ⟨order, ty, v, hmem, hinfer, hty, hfirst.trans hsecond hw.inOrder.sound⟩

end Askable

/-! ## Trees that have types throughout -/

/-- All that has a type below `root` has one that the table knows, and so does what uses are bound
to.  Uses may be bound to declarations elsewhere. -/
structure Poised (w : Workspace) (root : BlockId) : Prop extends w.Askable root where
  held : ∀ {a : Holder}, w.HolderBelow root a → ∃ ty, w.typeAt a = some ty ∧ w.types.Covers ty
  value : ∀ {b : BlockId} {c : ConnectionId} {x : VariableId}, w.Below root b → w.UseAt b c x →
    ∃ ty, w.boundType x = some ty ∧ w.types.Covers ty

theorem InOrder.poised (hw : w.InOrder)
    (layout : ∀ {b : BlockId} {block : Block}, w.Below root b → w.blocks[b]? = some block →
      w.KeepsLayout b block)
    (held : ∀ {a : Holder}, w.HolderBelow root a → ∃ ty, w.typeAt a = some ty ∧ w.types.Covers ty)
    (value : ∀ {b : BlockId} {c : ConnectionId} {x : VariableId}, w.Below root b → w.UseAt b c x →
      ∃ ty, w.boundType x = some ty ∧ w.types.Covers ty) : w.Poised root where
  inOrder := hw
  slot {c ty} hc hty := by
    obtain ⟨ty', hty', hcovers⟩ := held (a := .inl c) hc
    cases hty.symm.trans hty'
    exact hcovers
  use {b block} hbelow hblock hkind := by
    have hlayout := layout hbelow hblock
    obtain ⟨v, use, hown, huse, -⟩ := hlayout.ownVariable (.inr hkind)
    have hsome : block.output.isSome = true := by rw [hlayout.output, hkind]; rfl
    obtain ⟨c, hc⟩ := Option.isSome_iff_exists.1 hsome
    refine ⟨v, use, hown, huse, fun x hx => ?_⟩
    obtain ⟨found, hfound, hcovers⟩ :=
      value hbelow ⟨block, v, use, hblock, hkind, hc, hown, huse, hx⟩
    obtain ⟨declaration, hdeclaration, htype⟩ := Option.bind_eq_some_iff.1 hfound
    refine ⟨declaration, hdeclaration, fun ty hty => ?_⟩
    cases htype.symm.trans hty
    exact hcovers
  held := held
  value := value

theorem KeepsSlots.poised (h : KeepsSlots w v) (hw : w.Poised root) : v.Poised root where
  toAskable := h.askable hw.toAskable
  held {a} ha := by
    obtain ⟨ty, hty, hcovers⟩ := hw.held (h.retypes.sameGraph.symm.holderBelow ha)
    exact ⟨ty, (h.typeAt a).trans hty, h.covers hcovers⟩
  value {b c x} hbelow huse := by
    rw [h.retypes.sameGraph.below_eq] at hbelow
    obtain ⟨ty, hty, hcovers⟩ := hw.value hbelow (h.retypes.sameGraph.symm.useAt huse)
    exact ⟨ty, (h.boundType x).trans hty, h.covers hcovers⟩

/-- The resolved types of the tree. -/
theorem Poised.shows (hw : w.Poised root) : w.Shows root (w.reading w.types.image) :=
  shows_iff.2 fun a ha => by
    obtain ⟨ty, hty, hcovers⟩ := hw.held ha
    exact ⟨ty, hty, by rw [reading_typeAt hty, hw.inOrder.sound.resolve_eq hcovers]⟩

end Workspace

end BlockGraph
