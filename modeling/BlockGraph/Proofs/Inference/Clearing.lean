import BlockGraph.Proofs.Inference.Declaring

/-!
# The clearing pass

Clearing a tree gives each of its blocks the types of its kind over variables of its own.
`Workspace.Cleared` says what holds once some of the blocks are done: their connections carry the
declared schemes over the variables that start at the block's base, their errors are forgotten, and
the variables are free: for any choice of types for the variables of each block there is a solution
of the type table that makes this choice.

Clearing one block touches neither the connections nor the variable of another, and allocates its
variables at the end of the table (`Renewed`).  So one block more keeps what has been reached
(`Cleared.clearBlock`), and the pass over a whole tree ends without a fault and leaves it cleared
(`exists_clearTypes`).
-/

namespace BlockGraph

theorem Table.Covers.mono {t t' : Table} {ty : Ty} (h : t.Covers ty) (hsize : t.size ≤ t'.size) :
    t'.Covers ty := fun v hv => (h v hv).trans_le hsize

/-- What clearing a block may give another type. -/
def Block.Reaches (block : Block) : Holder → Prop
  | .inl c => c ∈ block.connections
  | .inr v => block.Given (.inr v)

theorem Block.Given.reaches {block : Block} {a : Holder} (h : block.Given a) : block.Reaches a := by
  cases a with
  | inl c =>
    obtain ⟨ty, seat, -, hholder⟩ := h
    exact mem_connections_of_holder? hholder
  | inr v => exact h

namespace Workspace

variable {w w1 w' : Workspace} {block block' : Block} {b b' : BlockId} {c : ConnectionId}
  {a : Holder}

/-! ## Forgetting -/

/-- What clearing a connection does. -/
theorem clearConnection_lookups (w : Workspace) (c : ConnectionId) :
    (∀ d, (w.clearConnection c).slotError d = if d = c then none else w.slotError d) ∧
      ((w.slotType c = none ∧ (w.clearConnection c).types = w.types ∧
          ∀ a, (w.clearConnection c).typeAt a = w.typeAt a) ∨
        ((w.slotType c).isSome = true ∧ (w.clearConnection c).types = w.types.fresh.2 ∧
          ∀ a, (w.clearConnection c).typeAt a = if a =
            .inl c then some (.var w.types.size) else w.typeAt a)) := by
  cases hc : w.connections[c]? with
  | none =>
    rw [show w.clearConnection c = w by simp only [clearConnection, hc]]
    refine ⟨fun d => ?_, .inl ⟨by rw [slotType, hc]; rfl, rfl, fun _ => rfl⟩⟩
    split
    · next hdc => rw [hdc, slotError, hc]; rfl
    · rfl
  | some connection =>
    rw [show w.slotType c = connection.type by rw [slotType, hc]; rfl]
    cases htype : connection.type with
    | none =>
      rw [show w.clearConnection c =
          { w with connections := w.connections.insert c { connection with error := none } } by
        simp only [clearConnection, hc, htype]]
      refine ⟨fun d => ?_, .inl ⟨rfl, rfl, ?_⟩⟩
      · simp only [slotError, getElem?_insert_eq]
        split <;> rfl
      · rintro (d | v)
        · exact congr_getElem?_insert (Option.bind · Connection.type)
            (by simp only [hc, Option.bind_some]) d
        · rfl
    | some ty =>
      rw [show w.clearConnection c = { w with
          connections := w.connections.insert c
            { connection with type := some w.types.fresh.1, error := none }
          types := w.types.fresh.2 } by simp only [clearConnection, hc, htype, freshType]]
      refine ⟨fun d => ?_, .inr ⟨rfl, rfl, ?_⟩⟩
      · simp only [slotError, getElem?_insert_eq]
        split <;> rfl
      · rintro (d | v)
        · simp only [typeAt, slotType, getElem?_insert_eq, Sum.inl.injEq]
          split <;> rfl
        · rfl

/-- The errors at some connections are forgotten, and those of them that have a type get a variable
of their own. -/
structure Forgets (w w' : Workspace) (cs : List ConnectionId) : Prop where
  retypes : Retypes w w'
  baseline : w'.baseline = w.baseline
  types : w.types.Extends w'.types
  carries : w.types.Carries w'.types
  size : w'.types.size = w.types.size + (cs.filter fun c => (w.slotType c).isSome).length
  error : ∀ c, w'.slotError c = if c ∈ cs then none else w.slotError c
  kept : ∀ {a : Holder}, (∀ c ∈ cs, a ≠ .inl c) → w'.typeAt a = w.typeAt a
  typed : ∀ a, (w'.typeAt a).isSome = (w.typeAt a).isSome
  covers : ∀ c ∈ cs, ∀ ty, w'.slotType c = some ty → w'.types.Covers ty
  agree : ∀ {A : BlockId → Prop}, (∀ c ∈ cs, ∀ old, w.connections[c]? = some old → A old.block) →
    AgreeOff .all A w w'

namespace Forgets

theorem nil (w : Workspace) : Forgets w w [] where
  retypes := .refl w
  baseline := rfl
  types := .refl _
  carries := .refl _
  size := rfl
  error _ := rfl
  kept _ := rfl
  typed _ := rfl
  covers _ hc := absurd hc List.not_mem_nil
  agree _ := .refl _ _ w

theorem cons {cs : List ConnectionId} (h : Forgets w w1 [c]) (h' : Forgets w1 w' cs) :
    Forgets w w' (c :: cs) where
  retypes := h.retypes.trans h'.retypes
  baseline := h'.baseline.trans h.baseline
  types := h.types.trans h'.types
  carries := h.carries.trans h'.carries
  size := by
    have htyped : ∀ d, (w1.slotType d).isSome = (w.slotType d).isSome := fun d => h.typed (.inl d)
    rw [h'.size, h.size, Nat.add_assoc, ← List.length_append]
    simp only [htyped, ← List.filter_append, List.singleton_append]
  error d := by
    rw [h'.error, h.error]
    by_cases hd : d ∈ cs <;> simp [hd]
  kept ha := (h'.kept fun d hd => ha d (List.mem_cons_of_mem _ hd)).trans
    (h.kept fun d hd => ha d (List.mem_singleton.1 hd ▸ List.mem_cons_self))
  typed a := (h'.typed a).trans (h.typed a)
  covers d hd ty hty := by
    by_cases hmem : d ∈ cs
    · exact h'.covers d hmem ty hty
    · have hkept : w'.slotType d = w1.slotType d := h'.kept (a := .inl d) fun e he heq =>
        hmem (Sum.inl.inj heq ▸ he)
      rw [hkept] at hty
      exact (h.covers d (List.mem_singleton.2 ((List.mem_cons.1 hd).resolve_right hmem)) ty
        hty).mono h'.carries.size_le
  agree {A} hA := by
    refine (h.agree fun d hd old hold => ?_).trans (h'.agree fun d hd new hnew => ?_)
    · exact hA d (List.mem_singleton.1 hd ▸ List.mem_cons_self) old hold
    · obtain ⟨old, hold, hblock, -⟩ := h.retypes.sameGraph.symm.connection hnew
      exact hblock ▸ hA d (List.mem_cons_of_mem _ hd) old hold

end Forgets

theorem forgets_clearConnection (ht : w.types.Sound) (c : ConnectionId) :
    Forgets w (w.clearConnection c) [c] := by
  obtain ⟨herror, hcases⟩ := clearConnection_lookups w c
  have hbaseline : (w.clearConnection c).baseline = w.baseline := by
    unfold clearConnection
    split
    · split <;> rfl
    · rfl
  have hagree : ∀ {A : BlockId → Prop}, (∀ d ∈ [c], ∀ old, w.connections[d]? = some old →
      A old.block) → AgreeOff .all A w (w.clearConnection c) := by
    intro A hA
    have hinsert : ∀ new : Connection,
      AgreeOff .all A w { w with connections := w.connections.insert c new } :=
      fun _ => .insertConnection (hA c List.mem_cons_self)
    unfold clearConnection
    split
    · split
      · exact (hinsert _).trans (.of_eq rfl rfl rfl rfl rfl)
      · exact hinsert _
    · exact .refl _ A w
  have hretypes := retypes_clearConnection w c
  rcases hcases with ⟨hnone, htypes, htype⟩ | ⟨hsome, htypes, htype⟩
  · refine ⟨hretypes, hbaseline, htypes ▸ .refl _, htypes ▸ .refl _, by simp [htypes, hnone],
      by simpa using herror, fun _ => htype _, fun a => by rw [htype],
      fun d hd ty hty => ?_, hagree⟩
    have hty : w.typeAt (.inl d) = some ty := (htype (.inl d)).symm.trans hty
    rw [List.mem_singleton.1 hd] at hty
    cases hnone.symm.trans hty
  · refine ⟨hretypes, hbaseline, htypes ▸ Table.extends_fresh ht.forest, htypes ▸ .fresh _,
      by simp [htypes, hsome, Table.size_fresh], by simpa using herror, fun ha => ?_, fun a => ?_,
      fun d hd ty hty => ?_, hagree⟩
    · rw [htype, if_neg (ha c List.mem_cons_self)]
    · rw [htype]
      split
      · next hac => rw [hac]; exact hsome.symm
      · rfl
    · have hty : (w.clearConnection c).typeAt (.inl d) = some ty := hty
      rw [htype, if_pos (by rw [List.mem_singleton.1 hd])] at hty
      cases hty
      exact Table.covers_var (by simp [htypes, Table.size_fresh])

theorem forgets_clearConnections (cs : List ConnectionId) :
    ∀ {w : Workspace}, w.types.Sound → Forgets w (cs.foldl clearConnection w) cs := by
  induction cs with
  | nil => exact fun {w} _ => .nil w
  | cons c cs ih =>
    intro w ht
    have hone := forgets_clearConnection ht c
    exact hone.cons (ih (hone.retypes.sound ht))

/-! ## One block -/

/-- A block has been given the types of its kind over variables of its own, which start at `base`;
no other block has changed. -/
structure Renewed (w w' : Workspace) (block : Block) (base : Nat) : Prop where
  retypes : Retypes w w'
  given : ∀ {a : Holder} {ty : Ty}, block.Grants a ty → w'.typeAt a = some (instantiate base ty)
  error : ∀ c, w'.slotError c = if c ∈ block.connections then none else w.slotError c
  kept : ∀ {a : Holder}, ¬ block.Reaches a → w'.typeAt a = w.typeAt a
  after : w.types.size ≤ base
  size : w'.types.size = base + block.kind.signature.fresh
  /-- The new variables are free: a solution goes on to any choice of types for them. -/
  free : ∀ {θ : Nat → Ty}, w.types.Solution θ → ∀ σ : Nat → Ty, ∃ θ', w'.types.Solution θ' ∧
    (∀ v < w.types.size, θ' v = θ v) ∧ ∀ i, θ' (base + i) = σ i

theorem KeepsLayout.exists_clearBlock (h : w.KeepsLayout b block) (hw : w.InOrder)
    (hblock : w.blocks[b]? = some block) :
    ∃ w' base, w.clearBlock b = .ok w' ∧ Renewed w w' block base := by
  let w1 := block.connections.foldl clearConnection w
  have hforgets : Forgets w w1 block.connections :=
    forgets_clearConnections block.connections hw.sound
  have hw1 : w1.InOrder := hw.keeps hforgets.retypes.keeps
  obtain ⟨w2, h2, hdeclared⟩ := (h.retypes hforgets.retypes).exists_declareTypes hw1
    (by rw [hforgets.retypes.sameGraph.blocks, hblock])
  have hgrown : w1.types.Extends w2.types := by
    rw [hdeclared.types]
    exact hw1.sound.extends_freshMany _
  refine ⟨w2, w1.types.size, ?_, ?_⟩
  · simp only [Workspace.clearBlock, getBlock_eq_ok.2 hblock, ok_bind]
    exact h2
  refine ⟨hforgets.retypes.trans hdeclared.retypes, hdeclared.given, fun c => ?_, fun {a} ha => ?_,
    hforgets.types.size_le, by rw [hdeclared.types, Table.size_freshMany], fun {θ} hθ σ => ?_⟩
  · rw [hdeclared.error, hforgets.error]
  · rw [hdeclared.kept fun hgiven => ha hgiven.reaches, hforgets.kept]
    rintro c hc rfl
    exact ha hc
  · refine ⟨fun v => if v < w1.types.size then θ v else σ (v - w1.types.size), ?_, fun v hv => ?_,
      fun i => by simp⟩
    · refine hgrown.solution_iff.2
        ((hforgets.types.solution_iff.2 hθ).congr hw1.sound fun v hv => ?_)
      rw [if_pos hv]
    · exact if_pos (hv.trans_le hforgets.types.size_le)

/-! ## Block by block -/

/-- Some blocks have been given the types of their kinds, each over variables of its own. -/
structure Cleared (w w' : Workspace) (done : List BlockId) (base : BlockId → Nat) : Prop where
  retypes : Retypes w w'
  size : w.types.size ≤ w'.types.size
  given : ∀ {b : BlockId} {block : Block} {a : Holder} {ty : Ty}, b ∈ done →
    w.blocks[b]? = some block → block.Grants a ty → w'.typeAt a = some (instantiate (base b) ty)
  room : ∀ {b : BlockId} {block : Block}, b ∈ done → w.blocks[b]? = some block →
    base b + block.kind.signature.fresh ≤ w'.types.size
  error : ∀ {c : ConnectionId} {connection : Connection}, w.connections[c]? = some connection →
    connection.block ∈ done → w'.slotError c = none
  free : ∀ σ : BlockId → Nat → Ty, ∃ θ, w'.types.Solution θ ∧
    ∀ {b : BlockId} {block : Block} {i : Nat}, b ∈ done → w.blocks[b]? = some block →
      i < block.kind.signature.fresh → θ (base b + i) = σ b i

theorem Cleared.nil (hw : w.InOrder) : Cleared w w [] fun _ => 0 where
  retypes := .refl w
  size := le_rfl
  given h := absurd h List.not_mem_nil
  room h := absurd h List.not_mem_nil
  error _ h := absurd h List.not_mem_nil
  free _ := ⟨_, hw.sound.solution_image, fun h => absurd h List.not_mem_nil⟩

theorem InOrder.block_unique (hw : w.InOrder) (hblock : w.blocks[b]? = some block)
    (hblock' : w.blocks[b']? = some block') (hc : c ∈ block.connections)
    (hc' : c ∈ block'.connections) : b = b' := by
  obtain ⟨connection, hconnection, rfl⟩ := hw.structured.owned hblock hc
  obtain ⟨connection', hconnection', rfl⟩ := hw.structured.owned hblock' hc'
  cases hconnection.symm.trans hconnection'
  rfl

/-- No two blocks that keep their layout reach the same. -/
theorem KeepsLayout.block_unique (h : w.KeepsLayout b block) (h' : w.KeepsLayout b' block')
    (hw : w.InOrder) (hblock : w.blocks[b]? = some block) (hblock' : w.blocks[b']? = some block')
    (ha : block.Reaches a) (ha' : block'.Reaches a) : b = b' := by
  cases a with
  | inl c => exact hw.block_unique hblock hblock' ha ha'
  | inr v =>
    obtain ⟨hkind, hv⟩ := Block.given_inr_iff.1 ha
    obtain ⟨hkind', hv'⟩ := Block.given_inr_iff.1 ha'
    obtain ⟨u, own, hown, hu, rfl, -⟩ := h.ownVariable (Or.inl hkind)
    obtain ⟨u', own', hown', hu', rfl, -⟩ := h'.ownVariable (Or.inl hkind')
    cases hv.symm.trans ((ownVariable_eq_ok hblock).1 hown)
    cases hv'.symm.trans ((ownVariable_eq_ok hblock').1 hown')
    cases hu.symm.trans hu'
    rfl

/-- Clearing one block more. -/
theorem Cleared.clearBlock {done : List BlockId} {base : BlockId → Nat} (h : Cleared w w' done base)
    (hw : w.InOrder) (hblock : w.blocks[b]? = some block) (hb : b ∉ done)
    (hlayout : ∀ {x : BlockId} {X : Block}, x ∈ b :: done → w.blocks[x]? = some X →
      w.KeepsLayout x X) :
    ∃ w'' base', w'.clearBlock b = .ok w'' ∧ Cleared w w'' (b :: done) base' := by
  have hsame := h.retypes.sameGraph
  obtain ⟨w'', start, hclear, hnew⟩ :=
    ((hlayout List.mem_cons_self hblock).retypes h.retypes).exists_clearBlock
      (hw.keeps h.retypes.keeps) (by rw [hsame.blocks, hblock])
  have hsize : w'.types.size ≤ w''.types.size := by
    rw [hnew.size]
    exact hnew.after.trans (Nat.le_add_right _ _)
  -- nothing of a block done before is touched
  have hother : ∀ {x}, x ∈ done → x ≠ b := fun hx heq => hb (heq ▸ hx)
  have hapart : ∀ {x X a}, x ∈ done → w.blocks[x]? = some X → X.Reaches a → ¬ block.Reaches a := by
    intro x X a hx hX ha ha'
    exact hother hx ((hlayout (List.mem_cons_of_mem b hx) hX).block_unique
      (hlayout List.mem_cons_self hblock) hw hX hblock ha ha')
  refine ⟨w'', fun x => if x = b then start else base x, hclear, h.retypes.trans hnew.retypes,
    h.size.trans hsize, ?_, ?_, ?_, ?_⟩
  · intro x X a ty hx hX hty
    rcases List.mem_cons.1 hx with rfl | hx
    · cases hblock.symm.trans hX
      rw [if_pos rfl]
      exact hnew.given hty
    · rw [if_neg (hother hx), hnew.kept (hapart hx hX (Block.Given.reaches ⟨ty, hty⟩))]
      exact h.given hx hX hty
  · intro x X hx hX
    rcases List.mem_cons.1 hx with rfl | hx
    · cases hblock.symm.trans hX
      rw [if_pos rfl, hnew.size]
    · rw [if_neg (hother hx)]
      exact (h.room hx hX).trans hsize
  · intro c connection hc hmem
    rw [hnew.error]
    split
    · rfl
    · next hnot =>
      refine h.error hc ((List.mem_cons.1 hmem).resolve_left fun heq => hnot ?_)
      obtain ⟨X, hX, hcount, -⟩ := hw.structured.listed hc
      rw [heq] at hX
      cases hblock.symm.trans hX
      exact List.count_pos_iff.1 (by omega)
  · intro σ
    obtain ⟨θ, hθ, hchoice⟩ := h.free σ
    obtain ⟨θ', hθ', hold, hchosen⟩ := hnew.free hθ (σ b)
    refine ⟨θ', hθ', fun {x X i} hx hX hi => ?_⟩
    rcases List.mem_cons.1 hx with rfl | hx
    · rw [if_pos rfl]
      exact hchosen i
    · have hroom := h.room hx hX
      rw [if_neg (hother hx), hold _ (by omega)]
      exact hchoice hx hX hi

/-! ## The whole pass -/

theorem Cleared.foldlM (hw : w.InOrder) {order : List BlockId} :
    ∀ {w' : Workspace} {done : List BlockId} {base : BlockId → Nat}, Cleared w w' done base →
      (order ++ done).Nodup → (∀ b ∈ order, ∃ block, w.blocks[b]? = some block) →
      (∀ {b : BlockId} {block : Block}, b ∈ order ++ done → w.blocks[b]? = some block →
        w.KeepsLayout b block) →
      ∃ w'' base', order.foldlM Workspace.clearBlock w' = .ok w'' ∧
        Cleared w w'' (order.reverse ++ done) base' := by
  induction order with
  | nil =>
    intro w' done base h _ _ _
    exact ⟨w', base, rfl, h⟩
  | cons b order ih =>
    intro w' done base h hnodup hlive hlayout
    obtain ⟨hb, -⟩ := List.nodup_cons.1 hnodup
    obtain ⟨block, hblock⟩ := hlive b List.mem_cons_self
    have hperm : (order ++ b :: done).Perm (b :: order ++ done) := List.perm_middle
    obtain ⟨w1, base1, h1, hcleared⟩ :=
      h.clearBlock hw hblock (fun hmem => hb (List.mem_append_right _ hmem)) fun {x X} hx =>
        hlayout (hperm.mem_iff.1 (List.mem_append_right _ hx))
    obtain ⟨w2, base2, h2, hcleared2⟩ := ih hcleared (hperm.nodup_iff.2 hnodup)
      (fun x hx => hlive x (List.mem_cons_of_mem _ hx)) fun {x X} hx => hlayout (hperm.mem_iff.1 hx)
    refine ⟨w2, base2, ?_, ?_⟩
    · rw [List.foldlM_cons, h1, ok_bind, h2]
    · rwa [List.reverse_cons, List.append_assoc]

/-- Clearing a tree whose blocks keep their layout. -/
theorem exists_clearTypes (hw : w.InOrder) (htyped : w.isTyped = true) {root : BlockId}
    (hroot : w.blocks[root]? = some block)
    (hlayout : ∀ {b : BlockId} {block : Block}, w.Below root b → w.blocks[b]? = some block →
      w.KeepsLayout b block) :
    ∃ w' done base, w.clearTypes root = .ok w' ∧ (∀ b, b ∈ done ↔ w.Below root b) ∧
      Cleared w w' done base := by
  obtain ⟨order, horder, hnodup, hmem⟩ := hw.exists_descendants hroot
  obtain ⟨w', base, hfold, hcleared⟩ := Cleared.foldlM hw (Cleared.nil hw)
    (by rwa [List.append_nil]) (fun b hb => ((hmem b).1 hb).live hroot)
    fun {b block} hb => hlayout ((hmem b).1 (by rwa [List.append_nil] at hb))
  refine ⟨w', order.reverse ++ [], base, ?_, fun b => ?_, hcleared⟩
  · simp only [clearTypes, htyped, Bool.not_true, Bool.false_eq_true, if_false, horder, ok_bind]
    exact hfold
  · rw [List.append_nil, List.mem_reverse]
    exact hmem b

end Workspace

end BlockGraph
