import BlockGraph.Proofs.Upkeep.Links

/-!
# Disposal keeps trees up to date

Disposing of a block unplugs it, cuts the stack below it, and frees the rest of its tree block by
block.  `Workspace.Sheds` says what such a step can do to what remains: nothing, but that blocks
lose their parent and uses are released from declarations that are gone.  A use that is released
belongs to the tree that is taken apart, since no use is bound to another tree.  What remains of
that tree is the stack that was cut off, and that is refreshed (`Kept.dispose`).
-/

namespace BlockGraph

variable {a b r x : BlockId} {v : VariableId} {heal : Bool} {doomed : List BlockId}

open Relation

namespace Variable

theorem forget_cases (v : Variable) (gone : VariableId) :
    v.forget gone = v ∧ v.binding? ≠ some gone ∨
      v.forget gone = v.bindTo none ∧ v.binding? = some gone := by
  unfold forget
  split
  · exact .inr ⟨rfl, ‹_›⟩
  · exact .inl ⟨rfl, ‹_›⟩

theorem binding?_bindTo_none (v : Variable) : (v.bindTo none).binding? = none := by
  obtain ⟨name, block, role⟩ := v
  cases role <;> rfl

end Variable

namespace Workspace

variable {w w0 w1 w' w'' : Workspace} {Q : Block → Prop} {tracked : Prop}
  {stale A N G : BlockId → Prop} {l : List BlockId}

/-! ## What remains -/

/-- What is there in `w'` was there in `w`; blocks may have lost their parent and uses their
binding. -/
structure Sheds (w w' : Workspace) : Prop where
  options : w'.options = w.options
  count : w'.variableCount = w.variableCount
  block : ∀ {b : BlockId} {block' : Block}, w'.blocks[b]? = some block' →
    ∃ block, w.blocks[b]? = some block ∧ block'.innards = block.innards
  parentOf : ∀ {p b : BlockId}, w'.ParentOf p b → w.ParentOf p b
  var : ∀ {v : VariableId} {new : Variable}, w'.vars[v]? = some new →
    ∃ old, w.vars[v]? = some old ∧ new.block = old.block ∧ new.isReference = old.isReference ∧
      (new.binding? = old.binding? ∨ new.binding? = none)

namespace Sheds

theorem refl (w : Workspace) : Sheds w w :=
  ⟨rfl, rfl, fun h => ⟨_, h, rfl⟩, fun h => h, fun h => ⟨_, h, rfl, rfl, .inl rfl⟩⟩

theorem trans (h : Sheds w w') (h' : Sheds w' w'') : Sheds w w'' where
  options := h'.options.trans h.options
  count := h'.count.trans h.count
  block hb := by
    obtain ⟨block', hblock', hinnards'⟩ := h'.block hb
    obtain ⟨block, hblock, hinnards⟩ := h.block hblock'
    exact ⟨block, hblock, hinnards'.trans hinnards⟩
  parentOf hp := h.parentOf (h'.parentOf hp)
  var hv := by
    obtain ⟨mid, hmid, hb', hr', hbind'⟩ := h'.var hv
    obtain ⟨old, hold, hb, hr, hbind⟩ := h.var hmid
    refine ⟨old, hold, hb'.trans hb, hr'.trans hr, ?_⟩
    rcases hbind' with heq | hnone
    · rw [heq]
      exact hbind
    · exact .inr hnone

end Sheds

/-! ## Variables -/

/-- Variables go.  The others are what they were, but that uses of what goes are bound to
nothing. -/
structure Drops (G : VariableId → Prop) (w w' : Workspace) : Prop where
  rest : w' = { w with vars := w'.vars }
  gone : ∀ v : VariableId, w'.vars[v]? = none ↔ w.vars[v]? = none ∨ G v
  var : ∀ {v : VariableId} {new : Variable}, w'.vars[v]? = some new → ∃ old, w.vars[v]? = some old ∧
    (new = old ∨ new = old.bindTo none ∧ ∃ g, G g ∧ old.binding? = some g)
  freed : ∀ {u v : VariableId} {use value : Variable}, w'.vars[v]? = none →
    w.vars[v]? = some value → value.isReference = false → w'.vars[u]? = some use →
    use.binding? ≠ some v

namespace Drops

variable {G G' : VariableId → Prop}

theorem binding? (h : Drops G w w') {new : Variable} (hv : w'.vars[v]? = some new) :
    ∃ old, w.vars[v]? = some old ∧ new.block = old.block ∧ new.isReference = old.isReference ∧
      (new.binding? = old.binding? ∨ new.binding? = none) := by
  obtain ⟨old, hold, rfl | ⟨rfl, -⟩⟩ := h.var hv
  · exact ⟨new, hold, rfl, rfl, .inl rfl⟩
  · exact ⟨old, hold, by simp, by simp, .inr old.binding?_bindTo_none⟩

theorem trans (h : Drops G w w') (h' : Drops G' w' w'') : Drops (fun v => G v ∨ G' v) w w'' where
  rest := by rw [h'.rest, h.rest]
  gone v := by rw [h'.gone, h.gone, or_assoc]
  var hv := by
    obtain ⟨mid, hmid, hnew⟩ := h'.var hv
    obtain ⟨old, hold, rfl | ⟨rfl, g, hg, hbound⟩⟩ := h.var hmid
    · exact ⟨mid, hold, hnew.imp_right fun ⟨heq, g, hg, hbound⟩ => ⟨heq, g, .inr hg, hbound⟩⟩
    · refine ⟨old, hold, .inr ⟨?_, g, .inl hg, hbound⟩⟩
      rcases hnew with rfl | ⟨rfl, -⟩
      · rfl
      · exact Variable.bindTo_bindTo ..
  freed {u v use value} hgone hv hvalue huse hbound := by
    obtain ⟨mid, hmid, -, -, heq | hnone⟩ := h'.binding? huse
    · cases hmid' : w'.vars[v]? with
      | none => exact h.freed hmid' hv hvalue hmid (heq ▸ hbound)
      | some value' =>
        obtain ⟨old, hold, -, hreference, -⟩ := h.binding? hmid'
        cases hv.symm.trans hold
        exact h'.freed hgone hmid' (hreference.trans hvalue) huse hbound
    · cases hnone.symm.trans hbound

end Drops

theorem drops_disposeVariable (h : w.disposeVariable v = .ok w') : Drops (· = v) w w' := by
  simp only [disposeVariable, bind_eq_ok, getVariable_eq_ok] at h
  obtain ⟨found, hfound, h⟩ := h
  cases h
  have hgone : ∀ u : VariableId, ((if found.isReference then w.vars else w.vars.map fun _ other =>
      other.forget v).erase v)[u]? = none ↔ w.vars[u]? = none ∨ u = v := fun u => by
    rw [getElem?_erase_eq]
    split
    · simp [*]
    · split <;> simp [*, Std.ExtTreeMap.getElem?_map]
  refine ⟨rfl, hgone, fun {u new} hu => ?_, fun {u g use value} hg hvalue href huse => ?_⟩
  · simp only [getElem?_erase_eq] at hu
    split at hu
    · cases hu
    · split at hu
      · exact ⟨new, hu, .inl rfl⟩
      · rw [Std.ExtTreeMap.getElem?_map] at hu
        obtain ⟨old, hold, rfl⟩ := Option.map_eq_some_iff.1 hu
        exact ⟨old, hold, (old.forget_cases v).imp And.left fun ⟨heq, hbound⟩ =>
          ⟨heq, v, rfl, hbound⟩⟩
  · obtain rfl : g = v := ((hgone g).1 hg).resolve_left fun hnone => by
      cases hnone.symm.trans hvalue
    cases hfound.symm.trans hvalue
    simp only [getElem?_erase_eq, href, Bool.false_eq_true, if_false,
      Std.ExtTreeMap.getElem?_map] at huse
    split at huse
    · cases huse
    · obtain ⟨old, -, rfl⟩ := Option.map_eq_some_iff.1 huse
      rcases old.forget_cases g with ⟨heq, hne⟩ | ⟨heq, -⟩
      · rwa [heq]
      · rw [heq, old.binding?_bindTo_none]
        simp

theorem drops_disposeVariables {vs : List VariableId} :
    ∀ {w : Workspace}, vs.foldlM disposeVariable w = .ok w' → Drops (· ∈ vs) w w' := by
  induction vs with
  | nil =>
    intro w h
    cases h
    exact ⟨rfl, by simp, fun hv => ⟨_, hv, .inl rfl⟩, fun hgone hv => by cases hgone.symm.trans hv⟩
  | cons v vs ih =>
    intro w h
    simp only [List.foldlM_cons, bind_eq_ok] at h
    obtain ⟨w1, h1, h⟩ := h
    simpa using (drops_disposeVariable h1).trans (ih h)

/-- Nothing outside a part of the workspace is a parent in it or bound into it. -/
structure Enclosed (A : BlockId → Prop) (w : Workspace) : Prop where
  parent : ∀ {p b : BlockId}, w.ParentOf p b → A b → A p
  use : ∀ {v u : VariableId} {use value : Variable}, w.vars[v]? = some use →
    use.binding? = some u → w.vars[u]? = some value → A value.block → A use.block

theorem Sheds.enclosed (h : Sheds w w') (hA : Enclosed A w) : Enclosed A w' where
  parent hp := hA.parent (h.parentOf hp)
  use {v u use value} hv hbound hu hvalue := by
    obtain ⟨old, hold, hblock, -, hbinding⟩ := h.var hv
    obtain ⟨oldValue, holdValue, hvalueBlock, -⟩ := h.var hu
    rw [hblock]
    refine hA.use hold ?_ holdValue (hvalueBlock ▸ hvalue)
    rcases hbinding with heq | hnone
    · exact heq ▸ hbound
    · cases hnone.symm.trans hbound

theorem AgreeOff.drops {G : VariableId → Prop} (h : Drops G w w')
    (hG : ∀ {v : VariableId} {old : Variable}, G v → w.vars[v]? = some old → A old.block)
    (huse : ∀ {v u : VariableId} {use : Variable}, w.vars[v]? = some use →
      use.binding? = some u → G u → A use.block) : AgreeOff .all A w w' := by
  rw [h.rest]
  refine ⟨rfl, fun _ => rfl, fun hc _ => congrArg _ hc, fun {u found} hu hA => ?_, fun _ _ => .rfl⟩
  cases hnew : w'.vars[u]? with
  | none =>
    rcases (h.gone u).1 hnew with hnone | hgone
    · cases hnone.symm.trans hu
    · exact absurd (hG hgone hu) hA
  | some new =>
    obtain ⟨old, hold, heq⟩ := h.var hnew
    cases hu.symm.trans hold
    rcases heq with rfl | ⟨-, g, hg, hbound⟩
    · rfl
    · exact absurd (huse hu hbound hg) hA

/-! ## Releasing a block -/

/-- Some blocks are gone with their variables, and the rest is as before. -/
structure Released (G : BlockId → Prop) (w w' : Workspace) : Prop where
  sheds : Sheds w w'
  block : ∀ x, ¬ G x → w'.blocks[x]?.map Block.innards = w.blocks[x]?.map Block.innards
  gone : ∀ x, G x → w'.blocks[x]? = none
  parentOf : ∀ p x, w'.ParentOf p x ↔ ¬ G x ∧ w.ParentOf p x
  var : ∀ v : VariableId, w'.vars[v]? = none ↔ w.vars[v]? = none ∨ ∃ x, G x ∧ w.HeldBy v x
  freed : ∀ {u v : VariableId} {use value : Variable}, w'.vars[v]? = none →
    w.vars[v]? = some value → value.isReference = false → w'.vars[u]? = some use →
    use.binding? ≠ some v

namespace Released

variable {G G' : BlockId → Prop}

theorem refl (w : Workspace) : Released (fun _ => False) w w :=
  ⟨.refl w, fun _ _ => rfl, fun _ h => h.elim, fun _ _ => by simp, fun _ => by simp,
    fun hgone hv => by cases hgone.symm.trans hv⟩

variable (h : Released G w w')
include h

/-- What the blocks have that stay. -/
theorem exists_iff {P : Block → Prop}
    (hP : ∀ {block block' : Block}, block'.innards = block.innards → (P block' ↔ P block))
    (x : BlockId) :
    (∃ block, w'.blocks[x]? = some block ∧ P block) ↔ ¬ G x ∧ ∃ block, w.blocks[x]? = some block ∧
    P block := by
  constructor
  · rintro ⟨block', hblock', hp⟩
    obtain ⟨block, hblock, heq⟩ := h.sheds.block hblock'
    exact ⟨fun hG => (by cases (h.gone x hG).symm.trans hblock'), block, hblock, (hP heq).1 hp⟩
  · rintro ⟨hG, block, hblock, hp⟩
    obtain ⟨block', hblock', heq⟩ := exists_of_map_eq (h.block x hG) hblock
    exact ⟨block', hblock', (hP heq).2 hp⟩

theorem heldBy_iff : w'.HeldBy v x ↔ ¬ G x ∧ w.HeldBy v x :=
  h.exists_iff (fun heq => by rw [Block.vars_of_innards heq]) x

theorem trans (h' : Released G' w' w'') : Released (fun x => G x ∨ G' x) w w'' where
  sheds := h.sheds.trans h'.sheds
  block x hx := (h'.block x fun hG' => hx (.inr hG')).trans (h.block x fun hG => hx (.inl hG))
  gone x hx := by
    rcases hx with hG | hG'
    · cases hblock : w''.blocks[x]? with
      | none => rfl
      | some block =>
        obtain ⟨old, hold, -⟩ := h'.sheds.block hblock
        cases (h.gone x hG).symm.trans hold
    · exact h'.gone x hG'
  parentOf p x := by
    rw [h'.parentOf, h.parentOf, not_or]
    tauto
  var v := by
    rw [h'.var, h.var]
    simp only [h.heldBy_iff]
    grind
  freed {u v use value} hgone hv hvalue huse hbound := by
    obtain ⟨mid, hmid, -, -, heq | hnone⟩ := h'.sheds.var huse
    · cases hmid' : w'.vars[v]? with
      | none => exact h.freed hmid' hv hvalue hmid (heq ▸ hbound)
      | some value' =>
        obtain ⟨old, hold, -, hreference, -⟩ := h.sheds.var hmid'
        cases hv.symm.trans hold
        exact h'.freed hgone hmid' (hreference.trans hvalue) huse hbound
    · cases hnone.symm.trans hbound

theorem fire (event : Event) : Released G w (w'.fire event) :=
  ⟨⟨h.sheds.options, h.sheds.count, h.sheds.block, h.sheds.parentOf, h.sheds.var⟩, h.block, h.gone,
    h.parentOf, h.var, h.freed⟩

end Released

/-- A block is parted from its parent, if it has one. -/
theorem InOrder.severed (hw : w.InOrder) (h : w.sever b = .ok w') :
    Rewires (fun x => x = b ∨ w.ParentOf x b) w w' ∧ ∀ p x, w'.ParentOf p x ↔ x ≠ b ∧
    w.ParentOf p x := by
  rcases sever_cases h with ⟨hnone, rfl⟩ | ⟨block, s, ⟨parent, child⟩, hblock, hs, hunlink⟩
  · refine ⟨.refl _ w', fun p x => ⟨fun hp => ⟨fun heq => ?_, hp⟩, And.right⟩⟩
    exact hw.not_parentOf_of_parentConnection hnone p (heq ▸ hp)
  · have hunlinked := hw.unlinked hunlink
    rw [hw.eq_of_unlink_superior hblock hs hunlink] at hunlinked
    refine ⟨hunlinked.rewires.mono ?_, hunlinked.parentOf⟩
    rintro x (rfl | rfl)
    · exact .inr hunlinked.old
    · exact .inl rfl

theorem disposeConnections_spec {cs : List ConnectionId} :
    ∀ {w w' : Workspace}, (∀ c ∈ cs, ∀ old, w.connections[c]? = some old → A old.block) →
      cs.foldlM disposeConnection w = .ok w' → AgreeOff .all A w w' ∧
        w' = { w with connections := w'.connections, free := w'.free } := by
  induction cs with
  | nil =>
    intro w w' _ h
    cases h
    exact ⟨.refl _ _ w, rfl⟩
  | cons c cs ih =>
    intro w w' hcs h
    rw [List.foldlM_cons, bind_eq_ok] at h
    obtain ⟨w1, h1, h⟩ := h
    simp only [disposeConnection, bind_eq_ok, getConnection_eq_ok, require_eq_ok] at h1
    obtain ⟨connection, hc, _, -, h1⟩ := h1
    cases h1
    obtain ⟨hagree, heq⟩ := ih (fun d hd old hold => by
      refine hcs d (List.mem_cons_of_mem _ hd) old ?_
      change (w.connections.erase c)[d]? = some old at hold
      rw [getElem?_erase_eq] at hold
      split at hold
      · cases hold
      · exact hold) h
    refine ⟨.trans ?_ hagree, heq⟩
    have hfreed : AgreeOff .all A w (w.unregister c) := (Rewires.unregister c).agree
    exact hfreed.trans (.eraseConnection fun old hold => hcs c List.mem_cons_self old hold)

/-- Without the one variable that a block holds, and without the block, the rest is still tidy. -/
theorem Housed.released (ho : w.Housed) (hsheds : Sheds w w') (hgone : w'.blocks[b]? = none)
    (hkept : ∀ {v : VariableId} {found : Variable}, w.vars[v]? = some found → found.block ≠ b →
      ∃ new, w'.vars[v]? = some new)
    (hlost : ∀ {v : VariableId} {new : Variable}, w'.vars[v]? = some new → new.block ≠ b)
    (hblock : ∀ x, x ≠ b → w'.blocks[x]?.map Block.innards = w.blocks[x]?.map Block.innards) :
    w'.Housed where
  tidy hx := by
    obtain ⟨block, hblock, hinnards⟩ := hsheds.block hx
    exact (ho.tidy hblock).of_innards hinnards
  var {x block' v} hx hown := by
    obtain ⟨block, hblock, hinnards⟩ := hsheds.block hx
    rw [Block.own?_of_innards hinnards] at hown
    obtain ⟨found, hfound, rfl, hreference⟩ := ho.var hblock hown
    have hne : found.block ≠ b := by
      rintro rfl
      cases hgone.symm.trans hx
    obtain ⟨new, hnew⟩ := hkept hfound hne
    obtain ⟨old, hold, hnewBlock, hnewReference, -⟩ := hsheds.var hnew
    cases hold.symm.trans hfound
    exact ⟨new, hnew, hnewBlock, by rw [hnewReference, hreference, Block.kind_of_innards hinnards]⟩
  holder {v new} hv := by
    obtain ⟨old, hold, hnewBlock, -⟩ := hsheds.var hv
    obtain ⟨block, hholder, hown⟩ := ho.holder hold
    have hmap := hblock new.block (hlost hv)
    rw [hnewBlock, hholder] at hmap
    obtain ⟨block', hblock', hinnards⟩ := Option.map_eq_some_iff.1 hmap
    exact ⟨block', hnewBlock ▸ hblock', (Block.own?_of_innards hinnards).trans hown⟩
  index hv := by
    obtain ⟨old, hold, -⟩ := hsheds.var hv
    rw [hsheds.count]
    exact ho.index hold

/-- What is not added to is bound no more than before. -/
theorem Sheds.owned (hsheds : Sheds w w') (ho : w.Owned) (hw' : w'.Housed) : w'.Owned where
  toHoused := hw'
  unbound htyped _ _ hv := by
    obtain ⟨old, hold, -, -, hbinding⟩ := hsheds.var hv
    have hnone := ho.unbound (by rw [isTyped, ← hsheds.options]; exact htyped) hold
    rcases hbinding with heq | hnone'
    · exact heq.trans hnone
    · exact hnone'

theorem InOrder.released (hw : w.InOrder) (h : w.release b = .ok w') : Released (· = b) w w' := by
  simp only [Workspace.release, bind_eq_ok, getBlock_eq_ok] at h
  obtain ⟨w1, h1, block, hblock, w2, h2, w3, h3, h⟩ := h
  have hlast := Except.ok.inj h
  obtain ⟨hrewires, hparentOf⟩ := hw.severed h1
  have heq2 := (disposeConnections_spec (A := fun _ => True) (fun _ _ _ _ => trivial) h2).2
  have hdrops := drops_disposeVariables h3
  have hblocks2 : w2.blocks = w1.blocks := by rw [heq2]
  have hvars2 : w2.vars = w.vars := by
    rw [heq2]
    exact hrewires.vars
  have hvars : w'.vars = w3.vars := by rw [← hlast]; rfl
  have hblocks : ∀ x, w'.blocks[x]? = if x = b then none else w1.blocks[x]? := by
    intro x
    rw [← hlast]
    change (w3.blocks.erase b)[x]? = _
    rw [getElem?_erase_eq, hdrops.rest, hblocks2]
  obtain ⟨old, hold, hinnards⟩ := hrewires.innards.exists_block hblock
  have hparents : ∀ p x, w'.ParentOf p x ↔ x ≠ b ∧ w.ParentOf p x := by
    intro p x
    rw [← hparentOf p x]
    by_cases hx : x = b
    · rw [hx, hparentOf]
      simp [ParentOf, hblocks]
    · simp [ParentOf, hblocks, hx]
  refine ⟨⟨?_, ?_, fun {x block'} hx => ?_, fun hp => ((hparents _ _).1 hp).2, ?_⟩, fun x hx => ?_,
    fun x hx => by rw [hblocks, if_pos hx], hparents, fun v => ?_, ?_⟩
  · rw [← hlast]
    change w3.options = w.options
    rw [hdrops.rest, heq2]
    exact hrewires.innards.options
  · rw [← hlast]
    change w3.variableCount = w.variableCount
    rw [hdrops.rest, heq2]
    exact hrewires.innards.count
  · rw [hblocks] at hx
    split at hx
    · cases hx
    · exact hrewires.innards.exists_block hx
  · rw [hvars, ← hvars2]
    exact hdrops.binding?
  · rw [hblocks, if_neg hx, hrewires.innards.block]
  · rw [hvars, hdrops.gone, hvars2]
    simp [HeldBy, hold, Block.vars_of_innards hinnards]
  · rw [hvars, ← hvars2]
    exact hdrops.freed

theorem Owned.confined_release (ho : w.Owned) (hw : w.InOrder) (hA : Enclosed A w) (hb : A b)
    (h : w.release b = .ok w') : Confined .all A w w' := by
  simp only [Workspace.release, bind_eq_ok, getBlock_eq_ok] at h
  obtain ⟨w1, h1, block, hblock, w2, h2, w3, h3, h⟩ := h
  cases h
  obtain ⟨hrewires, -⟩ := hw.severed h1
  obtain ⟨hagree2, heq2⟩ := disposeConnections_spec (A := A) (fun c hc old hold => by
    obtain ⟨connection, hconnection, hown⟩ := (hw.sever h1).structured.owned hblock hc
    cases hold.symm.trans hconnection
    rwa [hown]) h2
  have hdrops := drops_disposeVariables h3
  have hvars2 : w2.vars = w.vars := by
    rw [heq2]
    exact hrewires.vars
  have hheld : ∀ v ∈ block.vars, ∃ found, w.vars[v]? = some found ∧ A found.block := fun v hv => by
    obtain ⟨found, hfound, heq⟩ := (ho.keeps hrewires.innards).exists_var ⟨block, hblock, hv⟩
    exact ⟨found, hrewires.vars ▸ hfound, by rwa [heq]⟩
  have hagree1 : AgreeOff .all A w w1 := hrewires.agree.mono fun x hx => by
    rcases hx with rfl | hp
    · exact hb
    · exact hA.parent hp hb
  have hagree3 : AgreeOff .all A w2 w3 := by
    refine .drops hdrops (fun {v old} hv hold => ?_) fun {v u use} hv hbound hu => ?_
    · obtain ⟨found, hfound, hblock⟩ := hheld v hv
      cases (hvars2 ▸ hold).symm.trans hfound
      exact hblock
    · obtain ⟨found, hfound, hblock⟩ := hheld u hu
      exact hA.use (hvars2 ▸ hv) hbound hfound hblock
  refine .of_types (((hagree1.trans hagree2).trans hagree3).trans
    ((AgreeOff.removeTop hb).trans (.eraseBlock hb))) ?_
  change w3.types = w.types
  rw [hdrops.rest, heq2]
  exact hrewires.types

theorem Housed.release (ho : w.Housed) (hw : w.InOrder) (h : w.release b = .ok w') : w'.Housed := by
  have hreleased := hw.released h
  refine ho.released hreleased.sheds (hreleased.gone b rfl) (fun {v found} hv hne => ?_)
    (fun {v new} hv hnew => ?_) hreleased.block
  · refine Option.ne_none_iff_exists'.1 fun hnone => ?_
    rcases (hreleased.var v).1 hnone with hnone | ⟨x, rfl, hx⟩
    · cases hnone.symm.trans hv
    · exact hne ((ho.heldBy_iff hv).1 hx)
  · obtain ⟨old, hold, hblock, -⟩ := hreleased.sheds.var hv
    have hnone := (hreleased.var v).2
      (.inr ⟨b, rfl, (ho.heldBy_iff hold).2 (hblock.symm.trans hnew)⟩)
    cases hnone.symm.trans hv

theorem Standing.release (hQ : Steady Q) (hs : Standing Q w) (hA : Enclosed A w) (hb : A b)
    (h : w.release b = .ok w') : Standing Q w' ∧ Confined .all A w w' ∧ Released (· = b) w w' := by
  have hreleased := hs.inOrder.released h
  have howned := hreleased.sheds.owned hs.owned (hs.owned.toHoused.release hs.inOrder h)
  refine ⟨⟨hs.inOrder.release h, howned, fun hx => ?_⟩,
    hs.owned.confined_release hs.inOrder hA hb h, hreleased⟩
  obtain ⟨old, hblock, hinnards⟩ := hreleased.sheds.block hx
  exact hQ.innards hinnards (hs.block hblock)

theorem InOrder.releasedAll :
    ∀ {w w' : Workspace}, w.InOrder → l.foldlM Workspace.release w = .ok w' →
    Released (· ∈ l) w w' := by
  induction l with
  | nil =>
    intro w w' _ h
    cases h
    simpa using Released.refl w
  | cons b l ih =>
    intro w w' hw h
    rw [List.foldlM_cons, bind_eq_ok] at h
    obtain ⟨w1, h1, h⟩ := h
    simpa using (hw.released h1).trans (ih (hw.release h1) h)

theorem Standing.releaseAll (hQ : Steady Q) :
    ∀ {w w' : Workspace}, Standing Q w → Enclosed A w → (∀ b ∈ l, A b) →
      l.foldlM Workspace.release w = .ok w' → Standing Q w' ∧ Confined .all A w w' := by
  induction l with
  | nil =>
    intro w w' hs _ _ h
    cases h
    exact ⟨hs, .refl _ _ w⟩
  | cons b l ih =>
    intro w w' hs hA hl h
    rw [List.foldlM_cons, bind_eq_ok] at h
    obtain ⟨w1, h1, h⟩ := h
    obtain ⟨hs1, hconfined1, hreleased1⟩ := hs.release hQ hA (hl b List.mem_cons_self) h1
    obtain ⟨hs', hconfined⟩ :=
      ih hs1 (hreleased1.sheds.enclosed hA) (fun x hx => hl x (List.mem_cons_of_mem _ hx)) h
    exact ⟨hs', hconfined1.trans hconfined⟩

/-! ## Disposal -/

/-- The stack below a block, if there is one, is parted from it. -/
structure Cut (b : BlockId) (below : Option BlockId) (w w' : Workspace) : Prop where
  inOrder : w'.InOrder
  rewires : Rewires (fun x => x = b ∨ below = some x) w w'
  old : ∀ {c : BlockId}, below = some c → w.ParentOf b c
  parentOf : ∀ p x, w'.ParentOf p x ↔ below ≠ some x ∧ w.ParentOf p x

theorem InOrder.cut (hw : w.InOrder) {below : Option BlockId}
    (h : w.cutBelow b = .ok (below, w')) : Cut b below w w' := by
  rcases cutBelow_cases h with ⟨-, rfl, rfl⟩ | ⟨next, previous, parent, child, hpair, h1, rfl⟩
  · exact ⟨hw, .refl _ w', nofun, fun p x => by simp⟩
  · obtain ⟨plug, -, heq⟩ := hw.unlinked_below hpair h1
    cases heq
    have hunlinked := hw.unlinked h1
    refine ⟨hunlinked.inOrder, hunlinked.rewires.mono ?_, ?_, fun p x => ?_⟩
    · rintro x (rfl | rfl)
      · exact .inl rfl
      · exact .inr rfl
    · rintro c ⟨⟩
      exact hunlinked.old
    · rw [hunlinked.parentOf, ne_comm, ne_eq, ne_eq, Option.some_inj]

/-- The two parts of a tree that is cut at its root. -/
theorem Cut.below_cases {below : Option BlockId} (h : Cut b below w w')
    (hx : w.Below b x) : w'.Below b x ∨ ∃ c, below = some c ∧ w'.Below c x := by
  induction hx with
  | refl => exact .inl .refl
  | @tail y z _ hstep ih =>
    by_cases hz : below = some z
    · exact .inr ⟨z, hz, .refl⟩
    · have hstep' := (h.parentOf y z).2 ⟨hz, hstep⟩
      rcases ih with hy | ⟨c, hc, hy⟩
      · exact .inl (hy.tail hstep')
      · exact .inr ⟨c, hc, hy.tail hstep'⟩

theorem Cut.sheds {below : Option BlockId} (h : Cut b below w w') : Sheds w w' where
  options := h.rewires.innards.options
  count := h.rewires.innards.count
  block hb := h.rewires.innards.exists_block hb
  parentOf hp := ((h.parentOf _ _).1 hp).2
  var hv := ⟨_, h.rewires.vars ▸ hv, rfl, rfl, .inl rfl⟩

/-- A tree is enclosed: nothing above it, and no use elsewhere is bound into it. -/
theorem Tended.enclosed {loose : BlockId → Prop} (h : Tended Q tracked loose stale w)
    (hloose : ∀ x, ¬ loose x) (hr : r ∈ w.top) : Enclosed (w.Below r) w where
  parent {p b} hp hb := by
    rcases ReflTransGen.cases_tail hb with rfl | ⟨q, hq, hstep⟩
    · obtain ⟨block, hblock, hparent⟩ := hp
      obtain ⟨block', hblock', hnone⟩ := (h.standing.inOrder.structured.top.2 _).1 hr
      cases hblock.symm.trans hblock'
      cases hnone.symm.trans hparent
    · rwa [hp.unique hstep]
  use {v u use value} hv hbound hu hvalue := by
    cases htyped : w.isTyped with
    | false => cases (h.standing.owned.unbound htyped hv).symm.trans hbound
    | true =>
      obtain ⟨block, hblock, -⟩ := h.standing.owned.holder hv
      obtain ⟨root, -, hroot, hbelow⟩ := h.standing.inOrder.exists_root hblock
      obtain ⟨value', hu', -, hin⟩ := h.here htyped root hroot (hloose root) hv hbelow hbound
      cases hu.symm.trans hu'
      rwa [h.standing.inOrder.root_unique hr hroot hvalue hin]

/-- Blocks of the trees under some roots are gone or stand alone, and the rest is as before. -/
structure Trimmed (G : BlockId → Prop) (w w' : Workspace) : Prop where
  block : ∀ {x : BlockId} {block' : Block}, w'.blocks[x]? = some block' →
    ∃ block, w.blocks[x]? = some block ∧ block'.innards = block.innards
  parentOf : ∀ p x, w'.ParentOf p x → w.ParentOf p x
  rest : ∀ x, (∀ g, G g → ¬ w.Below g x) →
      w'.blocks[x]?.map Block.innards = w.blocks[x]?.map Block.innards ∧ ∀ p, w.ParentOf p x →
      w'.ParentOf p x

namespace Trimmed

variable {G G' : BlockId → Prop}

theorem below (h : Trimmed G w w') (hb : w'.Below a b) : w.Below a b :=
  ReflTransGen.mono h.parentOf _ _ hb

/-- What stands above a block that is not in the trees stays above it. -/
theorem below_of_not (h : Trimmed G w w') (hb : ∀ g, G g → ¬ w.Below g b)
    (hbelow : w.Below a b) : w'.Below a b := by
  induction hbelow with
  | refl => exact .refl
  | @tail y z hy hstep ih =>
    refine (ih fun g hg hgy => hb g hg (hgy.tail hstep)).tail ?_
    exact (h.rest z hb).2 y hstep

end Trimmed

/-- No block is below two roots. -/
theorem Below.root_eq (ha : ∀ p, ¬ w.ParentOf p a) (hb : ∀ p, ¬ w.ParentOf p b) (hax : w.Below a x)
    (hbx : w.Below b x) : a = b := by
  rcases hax.total hbx with hab | hba
  · rcases ReflTransGen.cases_tail hab with heq | ⟨p, -, hp⟩
    · exact heq.symm
    · exact absurd hp (hb p)
  · rcases ReflTransGen.cases_tail hba with heq | ⟨p, -, hp⟩
    · exact heq
    · exact absurd hp (ha p)

/-- A tree that loses no block stays as it is. -/
theorem Released.below (h : Released G w w') (hG : ∀ z, w.Below a z → ¬ G z) (hx : w.Below a x) :
    w'.Below a x := by
  induction hx with
  | refl => exact .refl
  | @tail y z hy hstep ih => exact ih.tail ((h.parentOf y z).2 ⟨hG z (hy.tail hstep), hstep⟩)

/-- A root is cut off from the stack below it, and its tree is freed: what touched that tree is
below the stack that was cut off. -/
theorem Cut.touched {below : Option BlockId} (h : Cut b below w w') (hb : ∀ p, ¬ w.ParentOf p b)
    (hG : ∀ x, G x ↔ w'.Below b x) (hreleased : Released G w' w'') (hw'' : w''.InOrder)
    (hr : r ∈ w''.top) (htouched : w''.Touched (w.Below b) r) :
    ∃ c, below = some c ∧ w''.Below r c := by
  obtain ⟨x, hx, hbelow⟩ := htouched
  obtain ⟨block, hblock⟩ := hw''.live_of_top hr
  obtain ⟨block', hblock'⟩ := Below.live hblock hbelow
  have hroot : ∀ p, ¬ w'.ParentOf p b := fun p hp => hb p ((h.parentOf p b).1 hp).2
  rcases h.below_cases hx with hgone | ⟨c, hc, hcx⟩
  · cases (hreleased.gone x ((hG x).2 hgone)).symm.trans hblock'
  · have hctop : ∀ p, ¬ w'.ParentOf p c := fun p hp => ((h.parentOf p c).1 hp).1 hc
    have hcx' : w''.Below c x := by
      refine hreleased.below (fun z hz hGz => ?_) hcx
      obtain rfl := Below.root_eq hroot hctop ((hG z).1 hGz) hz
      exact hb _ (h.old hc)
    refine ⟨c, hc, ?_⟩
    rcases hbelow.total hcx' with hrc | hcr
    · exact hrc
    · rw [hw''.below_top hr hcr]
      exact .refl

/-- The tree of a block that stands alone is freed, but for the stack below the block. -/
structure Freed (Q : Block → Prop) (b : BlockId) (below : Option BlockId) (doomed : List BlockId)
    (w w1 w' : Workspace) : Prop where
  cut : Cut b below w w1
  tree : ∀ x, x ∈ doomed.reverse ↔ w1.Below b x
  released : Released (· ∈ doomed.reverse) w1 w'
  standing : Standing Q w'
  confined : Confined .all (w.Below b) w w'
  /-- What is left of the tree is below the stack. -/
  touched : ∀ r ∈ w'.top, w'.Touched (w.Below b) r → ∃ c, below = some c ∧ w'.Below r c

theorem Freed.fire (hQ : Steady Q) {below : Option BlockId} (h : Freed Q b below doomed w w1 w')
    (event : Event) : Freed Q b below doomed w w1 (w'.fire event) :=
  ⟨h.cut, h.tree, h.released.fire event, h.standing.fire hQ event,
    h.confined.trans ((Rewires.fire event).confined _), h.touched⟩

theorem Tended.freed (hQ : Steady Q) (h : Tended Q tracked (fun _ => False) stale w)
    (hb : b ∈ w.top) {below : Option BlockId} (hcut : w.cutBelow b = .ok (below, w1))
    (hdoomed : w1.descendants b = .ok doomed)
    (hrelease : doomed.reverse.foldlM Workspace.release w1 = .ok w') :
    Freed Q b below doomed w w1 w' := by
  have hw := h.standing.inOrder
  have hcut := hw.cut hcut
  have hs1 := hcut.rewires.standing hQ h.standing hcut.inOrder
  obtain ⟨block, hblock⟩ := hw.live_of_top hb
  have hdoomed' : ∀ x, x ∈ doomed.reverse ↔ w1.Below b x := by
    obtain ⟨block1, hblock1, -⟩ := hcut.rewires.innards.exists_block_after hblock
    obtain ⟨ids, hids, -, hmem⟩ := hcut.inOrder.exists_descendants hblock1
    cases hdoomed.symm.trans hids
    simpa using hmem
  have hsub : ∀ x, w1.Below b x → w.Below b x :=
    fun x hx => ReflTransGen.mono (fun _ _ hp => hcut.sheds.parentOf hp) _ _ hx
  have hreleased := hs1.inOrder.releasedAll hrelease
  obtain ⟨hs', hconfined⟩ := hs1.releaseAll hQ
    (hcut.sheds.enclosed (h.enclosed (fun _ => id) hb)) (fun x hx => hsub x ((hdoomed' x).1 hx))
    hrelease
  refine ⟨hcut, hdoomed', hreleased, hs', ((hcut.rewires.mono ?_).confined _).trans hconfined,
    fun r hr htouched => hcut.touched (not_parentOf_of_mem_top hw hb) hdoomed' hreleased
    hs'.inOrder hr
      htouched⟩
  rintro x (rfl | hx)
  · exact .refl
  · exact .single (hcut.old hx)

/-- A block that is unplugged stands alone. -/
theorem Unplugged.mem_top (h : Unplugged b heal w w') (hw' : w'.InOrder) {block : Block}
    (hblock : w.blocks[b]? = some block) : b ∈ w'.top := by
  obtain ⟨block', hblock', -⟩ := exists_of_map_eq (h.block b) hblock
  exact hw'.mem_top_of_root hblock' h.root

theorem Kept.dispose (hQ : Steady Q) (h : Kept Q tracked N w0 stale w) (hb : N b)
    (hrun : w.dispose b heal = .ok w') :
    Kept Q tracked N w0 stale w' ∧ w'.blocks[b]? = none ∧
    (heal = false → Trimmed (· = b) w w') := by
  simp only [Workspace.dispose, bind_eq_ok, getBlock_eq_ok] at hrun
  obtain ⟨block, hblock, w1, h1, ⟨below, w2⟩, h2, doomed, hdoomed, w3, h3, hrun⟩ := hrun
  obtain ⟨hk1, hunplugged⟩ := h.unplug hQ hb h1
  have hfreed := (hk1.tended.freed hQ (hunplugged.mem_top hk1.inOrder hblock) h2 hdoomed h3).fire hQ
    (.delete b doomed)
  have hcut := hfreed.cut
  have hreleased := hfreed.released
  have hparted := (hk1.parted.of_sub fun p x => hcut.sheds.parentOf).of_sub
    fun p x => hreleased.sheds.parentOf
  have hkept := hk1.editWithin hfreed.standing hfreed.confined
    (fun x hx => (hk1.parted.below hx).1 hb) hparted (fun r hr htouched => by
      obtain ⟨c, hc, hbelow⟩ := hfreed.touched r hr htouched
      exact ⟨c, by simp [hc], hbelow⟩)
    (fun c hc _ => by
      rcases List.mem_append.1 hc with hc | hc
      · exact (h.parted c b ⟨block, hblock, Option.mem_toList.1 hc⟩).2 hb
      · exact (hk1.parted b c (hcut.old (Option.mem_toList.1 hc))).1 hb) hrun
  have hkeeps := keeps_refresh hrun
  have hblocks := (rest_refresh hrun).2
  refine ⟨hkept.relax (fun r _ hr => hr.1) h.inside, ?_, fun hheal => ?_⟩
  · rw [hblocks]
    exact hreleased.gone b ((hfreed.tree b).2 .refl)
  have hsub : ∀ x, w2.Below b x → w.Below b x := fun x hx =>
    ReflTransGen.mono (fun p y hp => ((hunplugged.parentOf hheal p y).1 (hcut.sheds.parentOf hp)).2)
      _ _ hx
  refine ⟨fun {x block'} hx => ?_, fun p x hp => ?_, fun x hx => ?_⟩
  · rw [hblocks] at hx
    obtain ⟨block1, hblock1, hinnards1⟩ := (hcut.sheds.trans hreleased.sheds).block hx
    obtain ⟨old, hold, hinnards⟩ := exists_of_map_eq (hunplugged.block x).symm hblock1
    exact ⟨old, hold, hinnards1.trans hinnards.symm⟩
  · refine ((hunplugged.parentOf hheal p x).1 ?_).2
    exact hcut.sheds.parentOf (hreleased.sheds.parentOf (hkeeps.parentOf_iff.1 hp))
  · have hx : ¬ w.Below b x := hx b rfl
    have hnot : ¬ x ∈ doomed.reverse := fun hmem => hx (hsub x ((hfreed.tree x).1 hmem))
    refine ⟨?_, fun p hp => ?_⟩
    · rw [hblocks, hreleased.block x hnot, hcut.rewires.innards.block, hunplugged.block]
    · refine hkeeps.parentOf_iff.2
        ((hreleased.parentOf p x).2 ⟨hnot, (hcut.parentOf p x).2 ⟨fun hc => ?_, ?_⟩⟩)
      · exact hx (.single ((hunplugged.parentOf hheal b x).1 (hcut.old hc)).2)
      · refine (hunplugged.parentOf hheal p x).2 ⟨?_, hp⟩
        rintro rfl
        exact hx .refl

theorem Kept.delete (hQ : Steady Q) (h : Kept Q tracked N w0 stale w) (hb : N b)
    (hrun : w.delete b = .ok w') : Kept Q tracked N w0 stale w' :=
  (h.dispose hQ hb hrun).1

end Workspace

end BlockGraph
