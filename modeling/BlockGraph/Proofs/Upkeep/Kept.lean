import BlockGraph.Proofs.Upkeep.Tended
import BlockGraph.Proofs.Workspace.Making

/-!
# Edits within a region

`Workspace.Kept Q tracked N w0 stale w` is what the steps of an edit preserve: the trees outside
`stale` are up to date, no tree binds a use to another tree, and since `w0` nothing has changed
outside the blocks in `N`, types and errors apart.  No tree lies partly in `N`.  For an edit of its
own `N` holds of every block; for the steps of a load `N` holds of the blocks that the load makes.

* `Kept.edit`: a step that stays in some blocks, followed by a refresh of their trees.
* `Kept.grow`: a step without a refresh that takes nothing apart.
-/

namespace BlockGraph

open Relation

/-- All is seen if there are no types; if there are, all but the types and errors. -/
def View.kept (typed : Bool) : View := if typed then .shape else .all

/-- To whom a variable belongs and to what it is bound. -/
def Variable.tie (v : Variable) : BlockId × Bool × Option VariableId :=
  (v.block, v.isReference, v.binding?)

namespace Workspace

variable {w w0 w1 w' : Workspace} {r b : BlockId} {Q : Block → Prop} {tracked : Prop}
  {loose stale stale' A N : BlockId → Prop} {bs : List BlockId}

/-- A property that new blocks have and that blocks keep, also when items are added to a list or its
last item is taken away. -/
structure Steady (Q : Block → Prop) : Prop where
  innards : ∀ {b b' : Block}, b'.innards = b.innards → Q b → Q b'
  made : ∀ {w0 w : Workspace} {b : BlockId} {kind : Kind} {block : Block},
    Making w0 b kind kind.hasOutput kind.layout.inputs w block → Q block
  grown : ∀ {block : Block} (c : ConnectionId), block.kind = .listCreateWith →
    block.input? (Kind.itemName block.itemNames.length) = none → Q block →
    Q { block with inputs := block.inputs ++
      [{ name := Kind.itemName block.itemNames.length, kind := .value, connection := some c }] }
  shrunk : ∀ {block : Block} {index : Nat} {input : Input}, block.kind = .listCreateWith →
    block.inputs[index]? = some input → input.name = Kind.itemName (block.itemNames.length - 1) →
    0 < block.itemNames.length → Q block → Q { block with inputs := block.inputs.eraseIdx index }

theorem Standing.keepsInnards (hQ : Steady Q) (hs : Standing Q w) (hw' : w'.InOrder)
    (h : KeepsInnards w w') : Standing Q w' where
  inOrder := hw'
  owned := hs.owned.keeps h
  block hb := by
    obtain ⟨block, hblock, hinnards⟩ := h.exists_block hb
    exact hQ.innards hinnards (hs.block hblock)

theorem Standing.fire (hQ : Steady Q) (hs : Standing Q w) (event : Event) :
    Standing Q (w.fire event) :=
  hs.keepsInnards hQ (hs.inOrder.keeps (.of_fire w event)) (.of_eq rfl rfl rfl rfl)

/-- No tree lies partly in `N`. -/
def Parted (N : BlockId → Prop) (w : Workspace) : Prop := ∀ p b, w.ParentOf p b → (N p ↔ N b)

theorem Parted.below (h : Parted N w) {a : BlockId} (hb : w.Below a b) : N a ↔ N b := by
  induction hb with
  | refl => exact Iff.rfl
  | tail _ hp ih => exact ih.trans (h _ _ hp)

theorem Keeps.parted (h : Keeps w w') (hN : Parted N w) : Parted N w' := by
  intro p b hp
  refine hN p b ?_
  rw [← parentOf_skeleton, h.skeleton_eq] at hp
  exact parentOf_skeleton.1 hp

theorem parted_true (w : Workspace) : Parted (fun _ => True) w := fun _ _ _ => Iff.rfl

/-- Refreshing trees in `N` changes nothing outside, if the trees outside are up to date. -/
theorem Tended.agree_refresh (h : Tended Q tracked loose stale w) (ht : tracked)
    (hloose : ∀ r ∈ w.top, loose r → ∃ b ∈ bs, w.Below r b) (hN : Parted N w)
    (hstale : ∀ r ∈ w.top, stale r → N r)
    (hbs : ∀ b ∈ bs, (∃ block, w.blocks[b]? = some block) → N b) (hrun : w.refresh bs = .ok w') :
    AgreeOff (.kept w.isTyped) N w w' := by
  have hw := h.standing.inOrder
  rcases refresh_cases hrun with ⟨huntyped, rfl⟩ | ⟨htyped, roots, w1, hroots, hfold, hcompact⟩
  · exact .refl _ _ w'
  · rw [htyped]
    obtain ⟨-, hmem⟩ := hw.rootsOf_spec hroots List.nodup_nil
    obtain ⟨htended, hconfined⟩ :=
      h.refreshTrees htyped (fun r hr => by simpa using ((hmem r).1 hr).imp_right And.left) hfold
    have hkeeps : Keeps w w1 := .of_foldlM (fun _ _ _ => keeps_refreshTree) hfold
    have htyped1 : w1.isTyped = true := (isTyped_congr hconfined.agree.options).trans htyped
    have hlocal : ∀ r ∈ w1.top, w1.Local r := fun r hr => htended.here htyped1 r hr fun hl => by
      rw [hkeeps.top_eq] at hr
      exact hl.2 ((hmem r).2 (.inr ⟨hr, hloose r hr hl.1⟩))
    have hinside : ∀ b, (∃ r ∈ roots, w.Below r b) → N b := by
      rintro b ⟨r, hr, hb⟩
      rcases (hmem r).1 hr with hnil | ⟨hr, b', hb', hbelow⟩
      · cases hnil
      · obtain ⟨block, hblock⟩ := hw.live_of_top hr
        exact (hN.below hb).1 ((hN.below hbelow).2 (hbs b' hb' (hbelow.live hblock)))
    refine ((hconfined.agree.mono hinside).coarsen (View.coarser_all _)).trans
      ((retypes_compactTypes hcompact).agreeOff_shape fun {c connection} hc hnot => ?_)
    have hw1 := htended.standing.inOrder
    obtain ⟨block, hblock⟩ := hw1.block_of_connection hc
    obtain ⟨r, -, hr, hbelow⟩ := hw1.exists_root hblock
    have hNr : ¬ N r := fun hNr => hnot (((hkeeps.parted hN).below hbelow).1 hNr)
    obtain ⟨owner, howner⟩ := htended.current htyped1
    exact isSome_slotType_compactTypes hw1 htended.standing.owned htyped1 hlocal hr
      ((howner r hr fun hs => hNr (hstale r (hkeeps.top_eq ▸ hr) hs.1)).2 ht)
      ⟨connection, hc, hbelow⟩ hcompact

/-! ## Steps that take nothing apart -/

/-- If no block loses its parent, uses bound within their tree still are. -/
theorem local_of_grown (hw : w.InOrder) (ho : w.Owned) (hw' : w'.InOrder)
    (hvars : ∀ v : VariableId, w'.vars[v]?.map Variable.tie = w.vars[v]?.map Variable.tie)
    (hgrown : ∀ p b, w.ParentOf p b → w'.ParentOf p b) (h : ∀ r ∈ w.top, w.Local r) :
    ∀ r ∈ w'.top, w'.Local r := by
  intro r hr v u use hv hbelow hbound
  obtain ⟨use0, hv0, htie⟩ := exists_of_map_eq (hvars v).symm hv
  simp only [Variable.tie, Prod.mk.injEq] at htie
  obtain ⟨block, hblock, -⟩ := ho.holder hv0
  obtain ⟨r0, -, hr0, hbelow0⟩ := hw.exists_root hblock
  obtain ⟨value0, hu0, hdeclared, hvalue0⟩ := h r0 hr0 hv0 hbelow0 (htie.2.2.trans hbound)
  obtain ⟨value, hu, htie'⟩ := exists_of_map_eq (hvars u) hu0
  simp only [Variable.tie, Prod.mk.injEq] at htie'
  refine ⟨value, hu, htie'.2.1.trans hdeclared, ?_⟩
  have hroot : w'.Below r r0 := by
    have hbelow' : w'.Below r0 use.block := htie.1 ▸ ReflTransGen.mono hgrown _ _ hbelow0
    rcases Below.total hbelow hbelow' with hrr | hrr
    · exact hrr
    · rw [hw'.below_top hr hrr]
      exact .refl
  rw [htie'.1]
  exact hroot.trans (ReflTransGen.mono hgrown _ _ hvalue0)

theorem AgreeOff.block_eq {typed : Bool} (h : AgreeOff (.kept typed) A w w') (hb : ¬ A b) :
    w'.blocks[b]? = w.blocks[b]? := by
  cases typed <;> simpa [View.kept, View.all, View.shape] using h.block hb

/-- All trees outside `stale` are up to date, and since `w0` only what is in `N` has changed. -/
structure Kept (Q : Block → Prop) (tracked : Prop) (N : BlockId → Prop) (w0 : Workspace)
    (stale : BlockId → Prop) (w : Workspace) : Prop where
  tended : Tended Q tracked (fun _ => False) stale w
  options : w.options = w0.options
  old : ∀ {b : BlockId}, ¬ N b → w.blocks[b]? = w0.blocks[b]?
  agree : tracked → AgreeOff (.kept w0.isTyped) N w0 w
  parted : Parted N w
  inside : ∀ r, stale r → N r
  untyped : w0.isTyped = false → w.types = w0.types

namespace Kept

section

variable (h : Kept Q tracked N w0 stale w)
include h

theorem standing : Standing Q w := h.tended.standing

theorem inOrder : w.InOrder := h.standing.inOrder

theorem owned : w.Owned := h.standing.owned

theorem isTyped_eq : w.isTyped = w0.isTyped := by
  rw [isTyped, h.options, isTyped]

theorem relax (hstale : ∀ r ∈ w.top, stale r → stale' r) (hinside : ∀ r, stale' r → N r) :
    Kept Q tracked N w0 stale' w :=
  ⟨h.tended.relax (fun _ _ hr => hr) hstale, h.options, h.old, h.agree, h.parted, hinside,
    h.untyped⟩

end

theorem start (h : Tended Q tracked (fun _ => False) stale w) (hparted : Parted N w)
    (hinside : ∀ r, stale r → N r) : Kept Q tracked N w stale w :=
  ⟨h, rfl, fun _ => rfl, fun _ => .refl _ _ w, hparted, hinside, fun _ => rfl⟩

/-- A step that stays in some blocks, and a refresh of all trees that have such blocks. -/
theorem edit (h : Kept Q tracked N w0 stale w) (hs : Standing Q w1)
    (hconfined : Confined .sense A w w1) (hagree : AgreeOff (.kept w0.isTyped) N w w1)
    (hparted : Parted N w1) (htouched : ∀ r ∈ w1.top, w1.Touched A r → ∃ b ∈ bs, w1.Below r b)
    (hbs : ∀ b ∈ bs, (∃ block, w1.blocks[b]? = some block) → N b) (hrun : w1.refresh bs = .ok w') :
    Kept Q tracked N w0 (fun r => stale r ∧ ∀ b ∈ bs, ¬ w'.Below r b) w' := by
  have htended := h.tended.touch hs hconfined
  have hloose : ∀ r ∈ w1.top, (False ∨ w1.Touched A r) → ∃ b ∈ bs, w1.Below r b :=
    fun r hr ht => htouched r hr (ht.resolve_left id)
  have hkeeps := keeps_refresh hrun
  have hstale : ∀ r ∈ w1.top, (stale r ∨ w1.Touched A r) → N r := fun r hr ht => by
    by_cases htouch : w1.Touched A r
    · obtain ⟨b, hb, hbelow⟩ := htouched r hr htouch
      obtain ⟨block, hblock⟩ := hs.inOrder.live_of_top hr
      exact (hparted.below hbelow).2 (hbs b hb (hbelow.live hblock))
    · exact h.inside r (ht.resolve_right htouch)
  have hoptions : w1.options = w0.options := hconfined.agree.options.trans h.options
  have hrefreshed : ∀ r ∈ w'.top, (stale r ∨ w1.Touched A r) ∧ (∀ b ∈ bs, ¬ w'.Below r b) →
      stale r ∧ ∀ b ∈ bs, ¬ w'.Below r b := fun r hr hr' => by
    refine ⟨hr'.1.resolve_right fun ht => ?_, hr'.2⟩
    obtain ⟨b, hb, hbelow⟩ := htouched r (hkeeps.top_eq ▸ hr) ht
    exact hr'.2 b hb (hkeeps.below_iff.2 hbelow)
  refine ⟨(htended.refresh hloose hrun).relax (fun _ _ hr => hr) hrefreshed, ?_, fun hb => ?_,
    fun ht => ?_, hkeeps.parted hparted, fun r hr => h.inside r hr.1, fun hw0 => ?_⟩
  · exact (rest_refresh hrun).1.trans hoptions
  · rw [(rest_refresh hrun).2, hagree.block_eq hb, h.old hb]
  · have hagree' := htended.agree_refresh ht hloose hparted hstale hbs hrun
    rw [isTyped, hoptions, ← isTyped] at hagree'
    exact ((h.agree ht).trans hagree).trans hagree'
  · have hw : w.isTyped = false := h.isTyped_eq.trans hw0
    rw [refresh_of_untyped (hconfined.isTyped_eq.trans hw) hrun, hconfined.untyped hw,
      h.untyped hw0]

/-- A step after which the trees it touched are stale, but no use is bound to another tree. -/
theorem grow (h : Kept Q tracked N w0 stale w) (hs : Standing Q w')
    (hconfined : Confined .sense A w w') (hagree : AgreeOff (.kept w0.isTyped) N w w')
    (hparted : Parted N w') (hA : ∀ b, A b → N b)
    (hlocal : w'.isTyped = true → (∀ r ∈ w.top, w.Local r) → ∀ r ∈ w'.top, w'.Local r) :
    Kept Q tracked N w0 (fun r => stale r ∨ w'.Touched A r) w' := by
  have htended := h.tended.touch hs hconfined
  have htyped : w'.isTyped = w.isTyped := isTyped_congr hconfined.agree.options
  refine ⟨⟨hs, fun ht r hr _ => hlocal ht (fun x hx => ?_) r hr, htended.current, htended.covered⟩,
    hconfined.agree.options.trans h.options, fun hb => (hagree.block_eq hb).trans (h.old hb),
    fun ht => (h.agree ht).trans hagree, hparted, fun r hr => ?_, fun hw0 =>
      (hconfined.untyped (h.isTyped_eq.trans hw0)).trans (h.untyped hw0)⟩
  · exact h.tended.here (htyped ▸ ht) x hx id
  · rcases hr with hr | ⟨b, hb, hbelow⟩
    · exact h.inside r hr
    · exact (hparted.below hbelow).2 (hA b hb)

end Kept

end Workspace

end BlockGraph
