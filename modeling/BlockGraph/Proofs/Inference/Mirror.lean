import BlockGraph.Proofs.Inference.Clearing
import BlockGraph.Proofs.Inference.Twins

/-!
# Two workspaces that are typed in step

While the types of a tree are made anew in two workspaces that are twins, `Workspace.Mirror` holds:
some of its connections and declarations have the same types and errors already, up to a renaming
`f` of type variables, and the first table has only got more variables since it was `t0`.

This file has what a block does to such a pair when its connections are cleared (`Mirror.wipe`) and
when it is given the types of its kind (`Mirror.declareTypes`).
-/

namespace BlockGraph

variable {c : ConnectionId} {a : Holder} {cs : List ConnectionId} {ty : Ty} {block : Block}
  {S : Nat → Prop} {f : Nat → Nat}

open Relation

/-! ## Types that agree -/

/-- The same type under `f`, or none on both sides. -/
def Ty.Matches (f : Nat → Nat) (S : Nat → Prop) (a b : Option Ty) : Prop :=
  b = a.map (Ty.rename f) ∧ ∀ ty, a = some ty → ty.Within S

/-- The same error under `f`, or none on both sides. -/
def TypeError.Matches (f : Nat → Nat) (S : Nat → Prop) (a b : Option TypeError) : Prop :=
  b = a.map (TypeError.rename f) ∧ ∀ e, a = some e → e.clash.Within S

section Matches

variable {f g : Nat → Nat} {S S' : Nat → Prop} (hg : ∀ v, S v → g v = f v) (hS : ∀ v, S v → S' v)

include hg hS

theorem Ty.Matches.extend {a b : Option Ty} (h : Ty.Matches f S a b) : Ty.Matches g S' a b := by
  refine ⟨?_, fun ty hty => (h.2 ty hty).mono hS⟩
  rw [h.1]
  cases a with
  | none => rfl
  | some ty => exact congrArg some (Ty.rename_congr fun v hv => (hg v (h.2 ty rfl v hv)).symm)

theorem TypeError.Matches.extend {a b : Option TypeError} (h : TypeError.Matches f S a b) :
    TypeError.Matches g S' a b := by
  refine ⟨?_, fun e he => (h.2 e he).mono hS⟩
  rw [h.1]
  cases a with
  | none => rfl
  | some e =>
    simp only [Option.map_some, TypeError.rename,
      Clash.rename_congr (h.2 e rfl) fun v hv => (hg v hv).symm]

end Matches

theorem eq_none_of_isSome {α : Type} {o o' : Option α} (h : o.isSome = o'.isSome) (ho : o' = none) :
    o = none := by
  simpa [ho] using h

theorem Ty.matches_none (f : Nat → Nat) (S : Nat → Prop) : Ty.Matches f S none none :=
  ⟨rfl, by simp⟩

theorem TypeError.matches_none (f : Nat → Nat) (S : Nat → Prop) : TypeError.Matches f S none none :=
  ⟨rfl, by simp⟩

theorem Ty.matches_some {a b : Ty} (ha : a.Within S) (hb : a.rename f = b) :
    Ty.Matches f S (some a) (some b) :=
  ⟨by rw [← hb]; rfl, fun ty hty => by cases hty; exact ha⟩

namespace Workspace

variable {w w' x x' y y' : Workspace} {r b : BlockId} {left right : Connection} {clear : Bool}

/-! ## Lookups after single updates -/

section ModifyConnection

variable {c : ConnectionId} {g : Connection → Connection} {old : Connection}
  (h : w.modifyConnection c g = .ok w') (hc : w.connections[c]? = some old)

include h hc

theorem slotType_modifyConnection (d : ConnectionId) :
    w'.slotType d = if d = c then (g old).type else w.slotType d := by
  obtain ⟨old', hc', rfl⟩ := modifyConnection_eq_ok.1 h
  cases hc.symm.trans hc'
  simp only [slotType, getElem?_insert_eq]
  split <;> rfl

theorem slotError_modifyConnection (d : ConnectionId) :
    w'.slotError d = if d = c then (g old).error else w.slotError d := by
  obtain ⟨old', hc', rfl⟩ := modifyConnection_eq_ok.1 h
  cases hc.symm.trans hc'
  simp only [slotError, getElem?_insert_eq]
  split <;> rfl

end ModifyConnection

theorem rest_modifyConnection {g : Connection → Connection}
    (h : w.modifyConnection c g = .ok w') : w'.types = w.types ∧ w'.vars = w.vars := by
  obtain ⟨_, -, rfl⟩ := modifyConnection_eq_ok.1 h
  exact ⟨rfl, rfl⟩

/-- Connections that may be cleared. -/
def wipe (clear : Bool) (cs : List ConnectionId) (w : Workspace) : Workspace :=
  if clear then cs.foldl clearConnection w else w

theorem retypes_wipe (clear : Bool) (cs : List ConnectionId) (w : Workspace) :
    Retypes w (w.wipe clear cs) := by
  unfold wipe
  split
  · exact retypes_clearConnections cs w
  · exact .refl w

/-! ## Typed in step -/

/-- The types of what is in `T` and the errors at connections in `E` are the same in `y` as in `x`
under `f`. -/
structure Mirror (r : BlockId) (t0 : Table) (f : Nat → Nat) (S : Nat → Prop) (T : Holder → Prop)
    (E : ConnectionId → Prop) (x y : Workspace) : Prop where
  twins : Twins r x y
  embeds : Table.Embeds f S x.types y.types
  carries : t0.Carries x.types
  fresh : ∀ v, S v → t0.size ≤ v
  type : ∀ a, T a → Ty.Matches f S (x.typeAt a) (y.typeAt a)
  error : ∀ c, E c → TypeError.Matches f S (x.slotError c) (y.slotError c)

namespace Mirror

variable {t0 : Table} {f g : Nat → Nat} {S S' : Nat → Prop} {T T' : Holder → Prop}
  {E E' : ConnectionId → Prop}

/-- A pair of steps: what is new agrees, and what agreed before is as it was. -/
theorem step (h : Mirror r t0 f S T E x y) (hx : Retypes x x') (hy : Retypes y y')
    (hembeds : Table.Embeds g S' x'.types y'.types) (hcarries : t0.Carries x'.types)
    (hg : ∀ v, S v → g v = f v) (hS : ∀ v, S v → S' v) (hfresh : ∀ v, S' v → t0.size ≤ v)
    (htype : ∀ a, T' a → (T a ∧ x'.typeAt a = x.typeAt a ∧ y'.typeAt a = y.typeAt a) ∨
      Ty.Matches g S' (x'.typeAt a) (y'.typeAt a))
    (herror : ∀ c, E' c → (E c ∧ x'.slotError c = x.slotError c ∧ y'.slotError c = y.slotError c) ∨
      TypeError.Matches g S' (x'.slotError c) (y'.slotError c)) :
    Mirror r t0 g S' T' E' x' y' where
  twins := h.twins.retypes hx hy
  embeds := hembeds
  carries := hcarries
  fresh := hfresh
  type a ha := by
    rcases htype a ha with ⟨hT, hleft, hright⟩ | hmatches
    · rw [hleft, hright]
      exact (h.type a hT).extend hg hS
    · exact hmatches
  error c hc := by
    rcases herror c hc with ⟨hE, hleft, hright⟩ | hmatches
    · rw [hleft, hright]
      exact (h.error c hE).extend hg hS
    · exact hmatches

theorem weaken (h : Mirror r t0 f S T E x y) (hT : ∀ a, T' a → T a) (hE : ∀ c, E' c → E c) :
    Mirror r t0 f S T' E' x y :=
  { h with
    type := fun a ha => h.type a (hT a ha)
    error := fun c hc => h.error c (hE c hc) }

/-! ### Clearing -/

/-- A connection is cleared on both sides.  Its types agree afterwards if it had one on both sides
or on none. -/
theorem clearConnection (h : Mirror r t0 f S T E x y) (hc : ¬ T (.inl c)) :
    ∃ g S', Mirror r t0 g S' (fun a => T a ∨ a = .inl c ∧ (x.typeAt a).isSome = (y.typeAt a).isSome)
      (fun d => E d ∨ d = c) (x.clearConnection c) (y.clearConnection c) := by
  have hx := forgets_clearConnection h.twins.left.sound c
  have hy := forgets_clearConnection h.twins.right.sound c
  have herror : ∀ {g : Nat → Nat} {S' : Nat → Prop}, ∀ d, E d ∨ d = c →
      (E d ∧ (x.clearConnection c).slotError d = x.slotError d ∧
        (y.clearConnection c).slotError d = y.slotError d) ∨
      TypeError.Matches g S' ((x.clearConnection c).slotError d)
          ((y.clearConnection c).slotError d) := by
    intro g S' d hd
    rw [hx.error, hy.error]
    by_cases hdc : d ∈ [c]
    · rw [if_pos hdc, if_pos hdc]
      exact .inr (TypeError.matches_none g S')
    · rw [if_neg hdc, if_neg hdc]
      exact .inl ⟨hd.resolve_right (List.mem_singleton.not.1 hdc), rfl, rfl⟩
  have hkept : ∀ {a}, a ≠ .inl c → (x.clearConnection c).typeAt a = x.typeAt a ∧
      (y.clearConnection c).typeAt a = y.typeAt a := fun {a} ha => by
    have hcs : ∀ d ∈ [c], a ≠ .inl d := fun d hd => List.mem_singleton.1 hd ▸ ha
    exact ⟨hx.kept hcs, hy.kept hcs⟩
  by_cases hboth : (x.slotType c).isSome = true ∧ (y.slotType c).isSome = true
  · -- a type variable of its own for the connection is made on both sides
    obtain ⟨-, ⟨hnone, -⟩ | ⟨-, htypesx, htypex⟩⟩ := clearConnection_lookups x c
    · simp [hnone] at hboth
    obtain ⟨-, ⟨hnone, -⟩ | ⟨-, htypesy, htypey⟩⟩ := clearConnection_lookups y c
    · simp [hnone] at hboth
    refine ⟨_, _, h.step hx.retypes hy.retypes (by rw [htypesx, htypesy]; exact h.embeds.fresh)
      (h.carries.trans hx.carries) (fun v hv => Function.update_of_ne (h.embeds.lt_size hv).ne _ _)
      (fun _ hv => Or.inl hv) ?_ (fun a ha => ?_) herror⟩
    · rintro v (hv | rfl)
      · exact h.fresh v hv
      · exact h.carries.size_le
    · by_cases hac : a = .inl c
      · rw [htypex, htypey, if_pos hac, if_pos hac]
        exact .inr (Ty.matches_some (Ty.within_var.2 (.inr rfl)) (by simp))
      · exact .inl ⟨ha.resolve_right fun ha => hac ha.1, hkept hac⟩
  · -- a variable that is made on one side has none to match it
    refine ⟨f, S, h.step hx.retypes hy.retypes
      ((h.embeds.carries_left hx.carries).carries_right hy.carries) (h.carries.trans hx.carries)
      (fun _ _ => rfl) (fun _ => id) h.fresh (fun a ha => ?_) herror⟩
    rcases ha with ha | ⟨rfl, hagree⟩
    · exact .inl ⟨ha, hkept fun hac => hc (hac ▸ ha)⟩
    · have hnone : x.typeAt (.inl c) = none :=
        Option.not_isSome_iff_eq_none.1 fun hsome => hboth ⟨hsome, hagree.symm.trans hsome⟩
      rw [eq_none_of_isSome (hx.typed _) hnone,
        eq_none_of_isSome ((hy.typed _).trans hagree.symm) hnone]
      exact .inr (Ty.matches_none f S)

theorem clearConnections (hnodup : cs.Nodup) :
    ∀ {x y : Workspace} {f : Nat → Nat} {S : Nat → Prop} {T : Holder → Prop}
      {E : ConnectionId → Prop}, Mirror r t0 f S T E x y → (∀ c ∈ cs, ¬ T (.inl c)) →
        ∃ g S', Mirror r t0 g S' (fun a => T a ∨ (∃ c ∈ cs, a = .inl c) ∧
          (x.typeAt a).isSome = (y.typeAt a).isSome)
        (fun d => E d ∨ d ∈ cs) (cs.foldl Workspace.clearConnection x)
        (cs.foldl Workspace.clearConnection y) := by
  induction cs with
  | nil => exact fun h _ => ⟨_, _, h.weaken (by simp) (by simp)⟩
  | cons c cs ih =>
    intro x y f S T E h hT
    obtain ⟨hnot, hnodup⟩ := List.nodup_cons.1 hnodup
    have hx := forgets_clearConnection h.twins.left.sound c
    have hy := forgets_clearConnection h.twins.right.sound c
    obtain ⟨g, S', hone⟩ := h.clearConnection (hT c List.mem_cons_self)
    obtain ⟨g', S'', hrest⟩ := ih hnodup hone fun d hd hTd =>
      hTd.elim (hT d (List.mem_cons_of_mem _ hd)) fun heq => hnot (Sum.inl.inj heq.1 ▸ hd)
    refine ⟨g', S'', hrest.weaken (fun a ha => ?_) fun d hd => ?_⟩
    · rcases ha with ha | ⟨⟨d, hd, rfl⟩, hagree⟩
      · exact .inl (.inl ha)
      · rcases List.mem_cons.1 hd with rfl | hd
        · exact .inl (.inr ⟨rfl, hagree⟩)
        · exact .inr ⟨⟨d, hd, rfl⟩, by rw [hx.typed, hy.typed, hagree]⟩
    · rw [List.mem_cons] at hd
      tauto

/-- Connections that are cleared on the right, and cleared or not on the left. -/
theorem wipe (h : Mirror r t0 f S T E x y) (hnodup : cs.Nodup) (hT : ∀ c ∈ cs, ¬ T (.inl c))
    (herror : clear = false → ∀ c ∈ cs, x.slotError c = none) : ∃ g S', Mirror r t0 g S'
      (fun a => T a ∨ (∃ c ∈ cs, a = .inl c) ∧ (x.typeAt a).isSome = (y.typeAt a).isSome ∧
        (clear = true ∨ x.typeAt a = none))
      (fun d => E d ∨ d ∈ cs) (x.wipe clear cs) (y.wipe true cs) := by
  cases clear with
  | true =>
    obtain ⟨g, S', hclear⟩ := h.clearConnections hnodup hT
    exact ⟨g, S', hclear.weaken (fun a ha => ha.imp id fun ha => ⟨ha.1, ha.2.1⟩) fun _ => id⟩
  | false =>
    -- the variables made on the right have none to match them
    have hy : Forgets y (y.wipe true cs) cs := forgets_clearConnections cs h.twins.right.sound
    refine ⟨f, S, h.step (.refl x) hy.retypes (h.embeds.carries_right hy.carries)
      h.carries (fun _ _ => rfl) (fun _ => id) h.fresh (fun a ha => ?_) fun d hd => ?_⟩
    · rcases ha with ha | ⟨-, hagree, hx⟩
      · exact .inl ⟨ha, rfl, hy.kept fun c hc hac => hT c hc (hac ▸ ha)⟩
      · have hx : x.typeAt a = none := hx.resolve_left nofun
        rw [eq_none_of_isSome ((hy.typed a).trans hagree.symm) hx,
          show (x.wipe false cs).typeAt a = none from hx]
        exact .inr (Ty.matches_none f S)
    · rw [hy.error]
      by_cases hmem : d ∈ cs
      · rw [if_pos hmem, show (x.wipe false cs).slotError d = none from herror rfl d hmem]
        exact .inr (TypeError.matches_none f S)
      · rw [if_neg hmem]
        exact .inl ⟨hd.resolve_right hmem, rfl, rfl⟩

/-! ### The types of a kind -/

/-- The same is given a type on both sides. -/
theorem assign (h : Mirror r t0 f S T E x y) (ha : y.Assignable a) (hty : ty.Within S)
    (hx : x.assign ty a = .ok x') : ∃ y', y.assign (ty.rename f) a = .ok y' ∧
      Mirror r t0 f S (fun a' => T a' ∨ a' = a) E x' y' := by
  obtain ⟨y', hy⟩ := (exists_assign_iff (ty.rename f)).2 ha
  obtain ⟨htypes, herror, htype⟩ := assign_lookups hx
  obtain ⟨htypes', herror', htype'⟩ := assign_lookups hy
  refine ⟨y', hy, h.step (retypes_assign hx) (retypes_assign hy)
    (by rw [htypes, htypes']; exact h.embeds) (by rw [htypes]; exact h.carries) (fun _ _ => rfl)
    (fun _ => id) h.fresh (fun a' ha' => ?_) fun c hc =>
      .inl ⟨hc, herror c, herror' c⟩⟩
  rw [htype, htype']
  by_cases haa : a' = a
  · rw [if_pos haa, if_pos haa]
    exact .inr (Ty.matches_some hty rfl)
  · rw [if_neg haa, if_neg haa]
    exact .inl ⟨ha'.resolve_right haa, rfl, rfl⟩

/-- One part of a block gets its type on both sides. -/
theorem grant (h : Mirror r t0 f S T E x y) (hb : x.Below r b) (hblock : x.blocks[b]? = some block)
    {e e' : Ty → Ty} {g : Seat × Ty} (hwithin : (e g.2).Within S)
    (hrename : (e g.2).rename f = e' g.2) (hx : x.grant b e g = .ok x') :
      ∃ y', y.grant b e' g = .ok y' ∧
      Mirror r t0 f S (fun a => T a ∨ block.holder? g.1 = some a) E x' y' := by
  obtain ⟨block', hblock', hinnards⟩ := h.twins.exists_block hb hblock
  obtain ⟨a, ha, hset⟩ := (grant_eq_ok hblock).1 hx
  obtain ⟨y', hy, hmirror⟩ :=
    h.assign (h.twins.assignable hb hblock ha ((exists_assign_iff _).1 ⟨_, hset⟩)) hwithin hset
  rw [hrename] at hy
  refine ⟨y', (grant_eq_ok hblock').2 ⟨a, by rw [Block.holder?_of_innards hinnards, ha], hy⟩,
    hmirror.weaken (fun a' => Or.imp_right fun ha' => ?_) fun _ => id⟩
  exact (Option.some.inj (ha.symm.trans ha')).symm

theorem grants {e e' : Ty → Ty} {l : List (Seat × Ty)} :
    ∀ {x x' y : Workspace} {T : Holder → Prop}, Mirror r t0 f S T E x y → x.Below r b →
      x.blocks[b]? = some block → (∀ g ∈ l, (e g.2).Within S ∧ (e g.2).rename f = e' g.2) →
      l.foldlM (Workspace.grant b e) x = .ok x' → ∃ y', l.foldlM (Workspace.grant b e') y = .ok y' ∧
        Mirror r t0 f S (fun a => T a ∨ ∃ g ∈ l, block.holder? g.1 = some a) E x' y' := by
  induction l with
  | nil =>
    intro x x' y T h _ _ _ hx
    cases hx
    exact ⟨y, rfl, h.weaken (by simp) fun _ => id⟩
  | cons g l ih =>
    intro x x' y T h hb hblock hl hx
    obtain ⟨x1, hx1, hx⟩ := bind_eq_ok.1 hx
    obtain ⟨hwithin, hrename⟩ := hl g List.mem_cons_self
    obtain ⟨y1, hy1, hone⟩ := h.grant hb hblock hwithin hrename hx1
    have hgraph := (retypes_grant hx1).sameGraph
    obtain ⟨y', hy', hrest⟩ :=
      ih hone (by rw [hgraph.below_eq]; exact hb) (by rw [hgraph.blocks]; exact hblock)
        (fun g' hg' => hl g' (List.mem_cons_of_mem _ hg')) hx
    refine ⟨y', by rw [List.foldlM_cons, hy1, ok_bind, hy'], hrest.weaken (fun a => ?_) fun _ => id⟩
    simp only [List.mem_cons, exists_eq_or_imp, or_assoc, imp_self]

end Mirror

/-- A type of a signature is over the variables made for it on either side. -/
theorem instantiate_rename {k : Kind} (h : k.Mentions ty) {base base' : Nat} {g : Nat → Nat}
    (hg : ∀ i < k.signature.fresh, g (base + i) = base' + i) :
    (instantiate base ty).Within (fun v => S v ∨ base ≤ v ∧ v < base + k.signature.fresh) ∧
      (instantiate base ty).rename g = instantiate base' ty := by
  have hlt := Kind.lt_fresh_of_mentions h
  constructor
  · intro u hu
    obtain ⟨v, hv, hu⟩ := Ty.mem_occurrences_subst.1 hu
    have := hlt v hv
    rw [Ty.mem_occurrences_var.1 hu]
    exact .inr ⟨by omega, by omega⟩
  · rw [Ty.rename, instantiate, Ty.subst_subst]
    exact Ty.subst_congr fun v hv => by
      rw [Ty.subst_var, hg v (hlt v hv)]

theorem Mirror.declareTypes {t0 : Table} {T : Holder → Prop} {E : ConnectionId → Prop}
    (h : Mirror r t0 f S T E x y) (hb : x.Below r b) (hblock : x.blocks[b]? = some block)
    (hx : x.declareTypes b = .ok x') :
    ∃ y' g S', y.declareTypes b = .ok y' ∧
    Mirror r t0 g S' (fun a => T a ∨ block.Given a) E x' y' := by
  obtain ⟨block', hblock', hinnards⟩ := h.twins.exists_block hb hblock
  obtain ⟨g, hold, hnew, hembeds⟩ := h.embeds.freshMany block.kind.signature.fresh
  have hsound : ∀ (w : Workspace), Retypes w
      { w with types := (w.types.freshMany block.kind.signature.fresh).2 } := fun w =>
    .of_types fun hw => hw.freshMany _
  have hstart : Mirror r t0 g _ T E _ _ := h.step (hsound x) (hsound y) hembeds
    (h.carries.trans (.freshMany _ _)) hold (fun _ hv => Or.inl hv)
    (fun v hv => hv.elim (h.fresh v) fun hv => h.carries.size_le.trans hv.1)
    (fun a ha => .inl ⟨ha, by cases a <;> rfl, by cases a <;> rfl⟩) fun c hc => .inl ⟨hc, rfl, rfl⟩
  rw [declareTypes_eq hblock] at hx
  obtain ⟨y', hy', hmirror⟩ := hstart.grants hb hblock
    (fun p hp => instantiate_rename (Block.mentions_of_mem_grants hp) hnew) hx
  refine ⟨y', g, _, ?_, hmirror.weaken (fun a => Or.imp_right ?_) fun _ => id⟩
  · rw [declareTypes_eq hblock', Block.grants_of_innards hinnards, Block.kind_of_innards hinnards,
      hy']
  · rintro ⟨ty, seat, hmem, hholder⟩
    exact ⟨(seat, ty), hmem, hholder⟩

end Workspace

end BlockGraph
