import BlockGraph.Proofs.Scope.Binding
import BlockGraph.Proofs.Upkeep.Current

/-!
# Keeping trees up to date

Between two edits every tree of a typed workspace is in order: its uses are bound to what their
names denote, and its types are up to date.  In the course of an edit some trees are not.
`Workspace.Tended` says which may be so: trees outside `stale` are as they should be, and in trees
outside `loose` at least no use is bound to a declaration of another tree.

* `Tended.touch`: a step that stays in some blocks concerns only the trees that have such blocks.
* `Tended.refresh`: `Workspace.refresh` mends the trees of the blocks it is given.  It may rebuild
  the type table, for which no tree may be loose.

`tracked` tells whether types are followed at all; where inputs are moved about, only scope is.
-/

namespace BlockGraph.Workspace

open Relation

variable {a b r' r : BlockId} {bs : List BlockId} {view : View} {w w' w'' x x' y y' : Workspace}
  {block : Block}

/-! ## Roots -/

namespace InOrder

variable (hw : w.InOrder)
include hw

theorem exists_rootWithin (height : Nat) :
    ∀ {b : BlockId} {block : Block}, w.blocks[b]? = some block →
      reachCount (Function.swap w.skeleton.ParentOf) w.liveBlocks b < height →
      ∃ r, w.rootWithin height b = .ok r ∧ r ∈ w.top ∧ w.Below r b := by
  induction height with
  | zero => intro b block _ hlt; exact absurd hlt (Nat.not_lt_zero _)
  | succ height ih =>
    intro b block hblock hlt
    cases hparent : block.parent with
    | none =>
      refine ⟨b, ?_, (hw.structured.top.2 b).2 ⟨block, hblock, hparent⟩, .refl⟩
      simp [rootWithin, getBlock_eq_ok.2 hblock, hparent]
    | some p =>
      have hp := (parentOf_iff hblock).2 hparent
      obtain ⟨f, hf⟩ := hw.formed.related.live hp
      obtain ⟨parent, hlive, -⟩ := frame_eq_some_iff.1 hf
      have hfewer := reachCount_lt hw.formed.acyclic.swap (x := b) hp
        (mem_liveBlocks.2 ⟨parent, hlive⟩)
      obtain ⟨r, hr, htop, hbelow⟩ := ih hlive (by omega)
      refine ⟨r, ?_, htop, hbelow.tail (parentOf_skeleton.1 hp)⟩
      simp [rootWithin, getBlock_eq_ok.2 hblock, hparent, hr]

/-- Every block has a root. -/
theorem exists_root (hblock : w.blocks[b]? = some block) :
    ∃ r, w.root b = .ok r ∧ r ∈ w.top ∧ w.Below r b := by
  refine hw.exists_rootWithin _ hblock ?_
  have hlt := reachCount_lt_card hw.formed.acyclic.swap (mem_liveBlocks.2 ⟨block, hblock⟩)
  rw [card_liveBlocks] at hlt
  simp only [depthBound]
  omega

theorem mem_top_of_root (hblock : w.blocks[b]? = some block) (hroot : ∀ p, ¬ w.ParentOf p b) :
    b ∈ w.top :=
  (hw.structured.top.2 b).2 ⟨block, hblock,
    Option.eq_none_iff_forall_not_mem.2 fun p hp => hroot p ⟨block, hblock, hp⟩⟩

theorem live_of_top (hr : r ∈ w.top) : ∃ block, w.blocks[r]? = some block := by
  obtain ⟨block, hblock, -⟩ := (hw.structured.top.2 r).1 hr
  exact ⟨block, hblock⟩

theorem below_top (hr : r ∈ w.top) (h : w.Below a r) : a = r := by
  rcases h.cases_tail with heq | ⟨p, -, hp⟩
  · exact heq.symm
  · exact absurd hp (not_parentOf_of_mem_top hw hr p)

/-- A block is in one tree only. -/
theorem root_unique (hr : r ∈ w.top) (hr' : r' ∈ w.top) (h : w.Below r b) (h' : w.Below r' b) :
    r = r' := by
  rcases h.total h' with hbelow | hbelow
  · exact hw.below_top hr' hbelow
  · exact (hw.below_top hr hbelow).symm

theorem rootsOf_spec :
    ∀ {roots out : List BlockId}, w.rootsOf bs roots = .ok out → roots.Nodup →
      out.Nodup ∧ ∀ r, r ∈ out ↔ r ∈ roots ∨ r ∈ w.top ∧ ∃ b ∈ bs, w.Below r b := by
  induction bs with
  | nil =>
    intro roots out h hnodup
    cases h
    exact ⟨hnodup, by simp⟩
  | cons b bs ih =>
    intro roots out h hnodup
    unfold rootsOf at h
    split at h
    · rename_i hgone
      obtain ⟨hout, hmem⟩ := ih h hnodup
      have hnone := containsBlock_eq_false_iff.1 (by simpa using hgone)
      refine ⟨hout, fun r => (hmem r).trans (or_congr_right (and_congr_right fun hr => ?_))⟩
      obtain ⟨block, hblock⟩ := hw.live_of_top hr
      have hnot : ¬ w.Below r b := fun hbelow => by
        obtain ⟨block', hblock'⟩ := hbelow.live hblock
        rw [hnone] at hblock'
        cases hblock'
      simp [hnot]
    · rename_i hlive
      obtain ⟨block, hblock⟩ : ∃ block, w.blocks[b]? = some block :=
        containsBlock_iff.1 (by simpa using hlive)
      obtain ⟨root, hroot, htop, hbelow⟩ := hw.exists_root hblock
      simp only [hroot, ok_bind] at h
      have hiff : ∀ r, r ∈ w.top ∧ w.Below r b ↔ r = root := fun r =>
        ⟨fun hr => hw.root_unique hr.1 htop hr.2 hbelow, by rintro rfl; exact ⟨htop, hbelow⟩⟩
      obtain ⟨hout, hmem⟩ := ih h (by
        split
        · exact hnodup
        · rename_i hnew
          rw [List.contains_iff_mem] at hnew
          exact List.nodup_append.2 ⟨hnodup, List.nodup_singleton root, fun a ha b hb heq => by
            rw [List.mem_singleton.1 hb] at heq
            exact hnew (heq ▸ ha)⟩)
      refine ⟨hout, fun r => (hmem r).trans ?_⟩
      have hroots : r ∈ (if roots.contains root then roots else roots ++ [root]) ↔ r ∈ roots ∨
          r = root := by
        split
        · rename_i hin
          have hin := List.contains_iff_mem.1 hin
          exact ⟨Or.inl, by rintro (h | rfl) <;> assumption⟩
        · simp
      rw [hroots, ← hiff r]
      simp only [List.mem_cons, exists_eq_or_imp]
      tauto

end InOrder

/-! ## Trees in order -/

variable {Q : Block → Prop} {tracked : Prop} {loose loose' stale stale' A : BlockId → Prop}

/-- The structure and the variables are in order, and every block has the property `Q`. -/
structure Standing (Q : Block → Prop) (w : Workspace) : Prop where
  inOrder : w.InOrder
  owned : w.Owned
  block : ∀ {b : BlockId} {block : Block}, w.blocks[b]? = some block → Q block

/-- Trees outside `loose` bind no use to another tree; trees outside `stale` are up to date.  Types
that are not followed are at least types of the table. -/
structure Tended (Q : Block → Prop) (tracked : Prop) (loose stale : BlockId → Prop)
    (w : Workspace) :
    Prop where
  standing : Standing Q w
  here : w.isTyped = true → ∀ r ∈ w.top, ¬ loose r → w.Local r
  current : w.isTyped = true → ∃ owner : Nat → BlockId, ∀ r ∈ w.top, ¬ stale r →
    w.Scoped r ∧ (tracked → w.UpToDate r (owner · = r))
  covered : w.isTyped = true → ∀ r ∈ w.top, ¬ stale r → w.Covered r

theorem AgreeOff.isTyped_of (h : AgreeOff view A w w') (htyped : w'.isTyped = true) :
    w.isTyped = true := by
  rw [isTyped, ← h.options]
  exact htyped

theorem AgreeOff.twins (h : AgreeOff view A w w') (hview : view.Coarser .graph) (hw : w.InOrder)
    (ho : w.Owned) (hw' : w'.InOrder) (ho' : w'.Owned) (hr : ¬ w.Touched A r) : Twins r w w' :=
  ⟨hw, hw', ho, ho', (h.same hw hw' hr).coarsen hview⟩

/-- A tree without blocks of the step was there before, and is the same. -/
theorem AgreeOff.untouched_tree (h : AgreeOff .sense A w w') (hs : Standing Q w)
    (hs' : Standing Q w') (hr : r ∈ w'.top) (hnot : ¬ w'.Touched A r) : r ∈ w.top ∧ Twins r w w' ∧
    Same .sense w w' r :=
  have hnot' := h.untouched hs.inOrder hs'.inOrder hnot
  ⟨h.mem_top_of_untouched hr hnot,
    h.twins View.sense_graph hs.inOrder hs.owned hs'.inOrder hs'.owned hnot',
    h.same hs.inOrder hs'.inOrder hnot'⟩

namespace Tended

/-- Without types there is nothing to keep up to date. -/
theorem of_untyped (hs : Standing Q w) (h : w.isTyped = false) : Tended Q tracked loose stale w :=
  have hfalse {p : Prop} (htyped : w.isTyped = true) : p := absurd htyped (by simp [h])
  ⟨hs, hfalse, hfalse, hfalse⟩

variable (h : Tended Q tracked loose stale w)
include h

theorem relax (hloose : ∀ r ∈ w.top, loose r → loose' r)
    (hstale : ∀ r ∈ w.top, stale r → stale' r) : Tended Q tracked loose' stale' w where
  standing := h.standing
  here htyped r hr hnot := h.here htyped r hr fun hl => hnot (hloose r hr hl)
  current htyped := by
    obtain ⟨owner, howner⟩ := h.current htyped
    exact ⟨owner, fun r hr hnot => howner r hr fun hs => hnot (hstale r hr hs)⟩
  covered htyped r hr hnot := h.covered htyped r hr fun hs => hnot (hstale r hr hs)

/-- A step that stays in some blocks concerns only trees with such blocks. -/
theorem touch (hs : Standing Q w') (hconfined : Confined .sense A w w') :
    Tended Q tracked (fun r => loose r ∨ w'.Touched A r) (fun r => stale r ∨
      w'.Touched A r) w' := by
  have hold := hconfined.agree.isTyped_of
  refine ⟨hs, fun htyped r hr hnot => ?_, fun htyped => ?_, fun htyped r hr hnot => ?_⟩
  · obtain ⟨hr', htwins, -⟩ := hconfined.agree.untouched_tree h.standing hs hr fun ht =>
      hnot (.inr ht)
    exact Local.same (h.here (hold htyped) r hr' fun hl => hnot (.inl hl)) htwins.same
      h.standing.owned hs.owned
  · obtain ⟨owner, howner⟩ := h.current (hold htyped)
    refine ⟨owner, fun r hr hnot => ?_⟩
    obtain ⟨hr', htwins, hsame⟩ := hconfined.agree.untouched_tree h.standing hs hr fun ht =>
      hnot (.inr ht)
    obtain ⟨hscoped, hcurrent⟩ := howner r hr' fun hl => hnot (.inl hl)
    exact ⟨hscoped.same htwins (not_parentOf_of_mem_top h.standing.inOrder hr'), fun ht =>
      (hcurrent ht).same hsame hconfined.carries⟩
  · obtain ⟨hr', htwins, hsame⟩ := hconfined.agree.untouched_tree h.standing hs hr fun ht =>
      hnot (.inr ht)
    exact (h.covered (hold htyped) r hr' fun hl => hnot (.inl hl)).same htwins hsame
      hconfined.carries

/-- A step that stays in one tree and leaves it up to date.  The variables it made belong to the
tree. -/
theorem settle (hs : Standing Q w') (hconfined : Confined .sense A w w')
    (honly : ∀ x ∈ w'.top, w'.Touched A x → x = r) (hr : r ∈ w'.top)
    (hscoped : w'.isTyped = true → w'.Scoped r)
    (hcurrent : w'.isTyped = true → ∀ O : Nat → Prop, (∀ v, w.types.size ≤ v → O v) →
      w'.UpToDate r O) :
    Tended Q tracked (fun x => loose x ∧ x ≠ r) (fun x => stale x ∧ x ≠ r) w' := by
  have hold := hconfined.agree.isTyped_of
  refine ⟨hs, fun htyped x hx hnot => ?_, fun htyped => ?_, fun htyped x hx hnot => ?_⟩
  · by_cases hne : x = r
    · subst hne
      exact (hscoped htyped).isLocal hs.owned (not_parentOf_of_mem_top hs.inOrder hx)
    · obtain ⟨hx', htwins, -⟩ := hconfined.agree.untouched_tree h.standing hs hx fun ht =>
        hne (honly x hx ht)
      exact Local.same (h.here (hold htyped) x hx' fun hl => hnot ⟨hl, hne⟩) htwins.same
        h.standing.owned hs.owned
  · obtain ⟨owner, howner⟩ := h.current (hold htyped)
    refine ⟨fun v => if v < w.types.size then owner v else r, fun x hx hnot => ?_⟩
    by_cases hne : x = r
    · subst hne
      exact ⟨hscoped htyped, fun _ => hcurrent htyped _ fun v hle => if_neg (Nat.not_lt.2 hle)⟩
    · obtain ⟨hx', htwins, hsame⟩ :=
        hconfined.agree.untouched_tree h.standing hs hx fun ht => hne (honly x hx ht)
      obtain ⟨hscopedx, hcurrentx⟩ := howner x hx' fun hs => hnot ⟨hs, hne⟩
      refine ⟨hscopedx.same htwins (not_parentOf_of_mem_top h.standing.inOrder hx'), fun ht => ?_⟩
      exact ((hcurrentx ht).mono fun v hv heq => (if_pos hv).trans heq).same hsame hconfined.carries
  · by_cases hne : x = r
    · subst hne
      exact (hcurrent htyped (fun _ => True) fun _ _ => trivial).covered hs.inOrder hs.owned
    · obtain ⟨hx', htwins, hsame⟩ :=
        hconfined.agree.untouched_tree h.standing hs hx fun ht => hne (honly x hx ht)
      exact (h.covered (hold htyped) x hx' fun hs => hnot ⟨hs, hne⟩).same htwins hsame
        hconfined.carries

end Tended

/-! ## Passes over single trees -/

theorem AgreeOff.touched_below (hw : w.InOrder) (hr : r ∈ w.top) (hr' : r' ∈ w.top)
    (h : w.Touched (w.Below r) r') : r' = r := by
  obtain ⟨b, hb, hb'⟩ := h
  exact hw.root_unique hr' hr hb' hb

theorem settled_of_reinferTree (hw : w.InOrder) (ho : w.Owned) (htyped : w.isTyped = true)
    (hr : r ∈ w.top) (hlocal : w.Local r) (h : w.reinferTree r = .ok w') : Settled true r w w' := by
  obtain ⟨p, hp, h⟩ := bind_eq_ok.1 h
  cases h
  exact ⟨hw, ho, htyped, hw.live_of_top hr, hlocal, nofun, nofun, (settles_iff htyped).2 ⟨p.1, hp⟩⟩

/-- Other trees are left alone. -/
theorem Settled.same_of_ne {clear : Bool} (h : Settled clear r x x') (hr : r ∈ x.top)
    (hr' : r' ∈ x.top) (hne : r' ≠ r) : Same .all x x' r' :=
  h.retypesIn.agree.same h.inOrder h.inOrder' fun ht =>
    hne (AgreeOff.touched_below h.inOrder hr hr' ht)

theorem Standing.retypes (hs : Standing Q w) (h : Retypes w w') : Standing Q w' where
  inOrder := hs.inOrder.keeps h.keeps
  owned := hs.owned.keeps h.keepsInnards
  block hb := hs.block (by rw [h.sameGraph.blocks] at hb; exact hb)

theorem Standing.rebinds (hs : Standing Q w) (h : Rebinds A w w') (htyped : w.isTyped = true) :
    Standing Q w' where
  inOrder := h.inOrder hs.inOrder
  owned := h.owned hs.owned htyped
  block hb := hs.block (by rw [h.rest] at hb; exact hb)

theorem Keeps.top_eq (h : Keeps w w') : w'.top = w.top := congrArg Skeleton.top h.skeleton_eq

theorem Keeps.below_iff (h : Keeps w w') : w'.Below a b ↔ w.Below a b := by
  have hparent : w'.ParentOf = w.ParentOf := by
    funext p b
    rw [← propext parentOf_skeleton, h.skeleton_eq, propext parentOf_skeleton]
  rw [Below, hparent, Below]

/-- Binding and inferring one tree mends it and leaves the others alone. -/
theorem Tended.refreshTree (h : Tended Q tracked loose stale w) (htyped : w.isTyped = true)
    (hr : r ∈ w.top) (hrun : w.refreshTree r = .ok w') :
    Tended Q tracked (fun x => loose x ∧ x ≠ r) (fun x => stale x ∧ x ≠ r) w' ∧
      Confined .all (w.Below r) w w' := by
  have hw := h.standing.inOrder
  have ho := h.standing.owned
  have hkeeps := keeps_refreshTree hrun
  have htop : w'.top = w.top := hkeeps.top_eq
  simp only [Workspace.refreshTree, bind_eq_ok] at hrun
  obtain ⟨⟨all, w1⟩, hresolve, hrun⟩ := hrun
  obtain ⟨hrebinds, hscoped⟩ := resolveReferences_spec hw ho hr hresolve
  have hs1 := h.standing.rebinds hrebinds htyped
  have htyped1 : w1.isTyped = true := by
    rw [hrebinds.rest]
    exact htyped
  have hr1 : r ∈ w1.top := by
    rw [hrebinds.rest]
    exact hr
  have hroot1 := not_parentOf_of_mem_top hs1.inOrder hr1
  have hsettled := settled_of_reinferTree hs1.inOrder hs1.owned htyped1 hr1
    (hscoped.isLocal hs1.owned hroot1) hrun
  have hs' := hs1.retypes hsettled.retypesIn.retypes
  have hbelow : w1.Below r = w.Below r := funext fun b => propext hrebinds.below_iff
  have hagree : AgreeOff .all (w.Below r) w w' :=
    hrebinds.agreeOff.trans (hbelow ▸ hsettled.retypesIn.agree)
  have htypes : w1.types = w.types := by rw [hrebinds.rest]
  have hcarries : w.types.Carries w'.types := htypes ▸ hsettled.carries
  have hconfined : Confined .all (w.Below r) w w' :=
    ⟨hagree, hcarries, fun huntyped => absurd htyped (by simp [huntyped])⟩
  refine ⟨h.settle hs' (hconfined.coarsen (View.coarser_all _)) (fun x hx ht => ?_) (htop ▸ hr)
    (fun _ => hscoped.same hsettled.twins hroot1)
    (fun _ O hO => hsettled.upToDate fun v hle _ => ?_), hconfined⟩
  · obtain ⟨b, hb, hbelow⟩ := ht
    exact hw.root_unique (htop ▸ hx) hr (hkeeps.below_iff.1 hbelow) hb
  · exact hO v (htypes ▸ hle)

/-! ## Rebuilding the table -/

/-- The table, the counters and the events are not part of a tree. -/
theorem Same.of_eq (hoptions : w'.options = w.options) (hblocks : w'.blocks = w.blocks)
    (hconnections : w'.connections = w.connections) (hvars : w'.vars = w.vars) (r : BlockId) :
    Same view w w' r := by
  have hparent : w'.ParentOf = w.ParentOf := by
    funext p b
    rw [ParentOf, hblocks, ParentOf]
  have hbelow : w'.Below = w.Below := by
    funext a b
    rw [Below, hparent, Below]
  exact ⟨hoptions, by rw [hbelow], fun _ => by rw [hblocks],
    fun h _ => by rw [hconnections, h]; rfl, fun h _ => by rw [hvars, h]; rfl⟩

theorem rebuild_spec {l : List BlockId} :
    ∀ {y y' : Workspace}, y.InOrder → y.Owned → y.isTyped = true → l.Nodup → (∀ r ∈ l, r ∈ y.top) →
      (∀ r ∈ y.top, y.Local r) → l.foldlM reinferTree y = .ok y' →
      Retypes y y' ∧ y.types.Carries y'.types ∧ (∀ r ∈ y.top, r ∉ l → Same .all y y' r) ∧
        ∃ owner : Nat → BlockId, ∀ r ∈ l, ∃ y0 y1, Same .all y y0 r ∧
          Inferred true r (fun v => y.types.size ≤ v ∧ owner v = r) y0 y1 y' := by
  induction l with
  | nil =>
    intro y y' _ _ _ _ _ _ h
    cases h
    exact ⟨.refl y, .refl y.types, fun r _ _ => .refl _ y r, fun _ => default, by simp⟩
  | cons r l ih =>
    intro y y' hy ho htyped hnodup htop hlocal h
    obtain ⟨hnot, hnodup⟩ := List.nodup_cons.1 hnodup
    obtain ⟨y1, hstep, h⟩ := bind_eq_ok.1 h
    have hr : r ∈ y.top := htop r List.mem_cons_self
    have hsettled := settled_of_reinferTree hy ho htyped hr (hlocal r hr) hstep
    have hretypes := hsettled.retypesIn.retypes
    have htop1 : y1.top = y.top := hretypes.keeps.top_eq
    obtain ⟨hretypes', hcarries', hsame', owner, howner⟩ := ih hsettled.inOrder' hsettled.owned'
      (by rw [isTyped, hretypes.rest]; exact htyped) hnodup
      (fun x hx => htop1 ▸ htop x (List.mem_cons_of_mem r hx))
      (fun x hx => Local.same (hlocal x (htop1 ▸ hx))
        (hretypes.sameGraph.same (by rw [hretypes.rest]) x) ho hsettled.owned') h
    refine ⟨hretypes.trans hretypes', hsettled.carries.trans hcarries', fun x hx hnotx => ?_,
      fun v => if v < y1.types.size then r else owner v, fun x hx => ?_⟩
    · obtain ⟨hne, hnotl⟩ := List.ne_and_not_mem_of_not_mem_cons hnotx
      exact (hsettled.same_of_ne hr hx hne).trans (hsame' x (htop1 ▸ hx) hnotl)
    · rcases List.mem_cons.1 hx with rfl | hxl
      · exact ⟨y, y1, .refl _ y x, hsettled,
          (hsame' x (htop1 ▸ hr) hnot).coarsen (View.coarser_all _), hcarries', fun v hle hlt =>
          ⟨hle, if_pos hlt⟩⟩
      · obtain ⟨z0, z1, hz, hinferred⟩ := howner x hxl
        have hne : x ≠ r := fun heq => hnot (heq ▸ hxl)
        refine ⟨z0, z1, (hsettled.same_of_ne hr (htop x hx) hne).trans hz, hinferred.settled,
          hinferred.same, hinferred.carries, fun v hle hlt => ?_⟩
        obtain ⟨hsize, heq⟩ := hinferred.owns v hle hlt
        exact ⟨hsettled.carries.size_le.trans hsize, (if_neg (Nat.not_lt.2 hsize)).trans heq⟩

/-- A rebuild infers every tree again, as it stands. -/
theorem exists_inferred_of_rebuildTypes (hw : w.InOrder) (ho : w.Owned) (htyped : w.isTyped = true)
    (hlocal : ∀ r ∈ w.top, w.Local r) (h : w.rebuildTypes = .ok w') :
    ∃ owner : Nat → BlockId, ∀ r ∈ w.top, ∃ y0 y1, Same .all w y0 r ∧
      Inferred true r (owner · = r) y0 y1 w' := by
  obtain ⟨z, hz, h⟩ := bind_eq_ok.1 h
  cases h
  have hkeeps : Keeps w { w with types := .empty } := ⟨rfl, fun _ => Table.sound_empty⟩
  have hinnards : KeepsInnards w { w with types := .empty } := .of_eq rfl rfl rfl rfl
  have hsame : ∀ r, Same .all w { w with types := .empty } r := .of_eq rfl rfl rfl rfl
  obtain ⟨-, -, -, owner, howner⟩ := rebuild_spec (hw.keeps hkeeps) (ho.keeps hinnards) htyped
    hw.structured.top.1 (fun _ hr => hr)
    (fun r hr => Local.same (hlocal r hr) ((hsame r).coarsen (View.coarser_all _)) ho
      (ho.keeps hinnards)) hz
  refine ⟨owner, fun r hr => ?_⟩
  obtain ⟨y0, y1, hy, hinferred⟩ := howner r hr
  have hbaseline : Same .sense z { z with baseline := z.types.size } r := by
    apply Same.of_eq <;> rfl
  exact ⟨y0, y1, (hsame r).trans hy, hinferred.settled, hinferred.same.trans hbaseline,
    hinferred.carries, fun v hle hlt => (hinferred.owns v hle hlt).2⟩

theorem compactTypes_cases (h : w.compactTypes = .ok w') : w' = w ∨ w.rebuildTypes = .ok w' := by
  unfold compactTypes at h
  split at h
  · cases h
    exact .inl rfl
  · exact .inr h

section Rebuild

variable (h : Tended Q tracked loose stale w) (htyped : w.isTyped = true)
  (hlocal : ∀ r ∈ w.top, w.Local r)

include h htyped hlocal

theorem Tended.rebuildTypes (hrun : w.rebuildTypes = .ok w') :
    Tended Q tracked (fun _ => False) stale w' := by
  have hw := h.standing.inOrder
  have ho := h.standing.owned
  have hretypes := retypes_rebuildTypes hrun
  have hs' := h.standing.retypes hretypes
  have htop : w'.top = w.top := hretypes.keeps.top_eq
  have hgraph : ∀ r, Same .graph w w' r := hretypes.sameGraph.same (by rw [hretypes.rest])
  obtain ⟨owner, howner⟩ := h.current htyped
  obtain ⟨owner', howner'⟩ := exists_inferred_of_rebuildTypes hw ho htyped hlocal hrun
  refine ⟨hs', fun _ r hr _ => Local.same (hlocal r (htop ▸ hr)) (hgraph r) ho hs'.owned,
    fun _ => ⟨owner', fun r hr hnot => ?_⟩, fun _ r hr _ => ?_⟩
  · rw [htop] at hr
    obtain ⟨y0, y1, -, hinferred⟩ := howner' r hr
    exact ⟨(howner r hr hnot).1.same ⟨hw, hs'.inOrder, ho, hs'.owned, hgraph r⟩
      (not_parentOf_of_mem_top hw hr), fun _ => ⟨true, y0, y1, hinferred⟩⟩
  · obtain ⟨y0, y1, -, hinferred⟩ := howner' r (htop ▸ hr)
    exact UpToDate.covered ⟨true, y0, y1, hinferred⟩ hs'.inOrder hs'.owned

theorem Tended.compactTypes (hrun : w.compactTypes = .ok w') :
    Tended Q tracked (fun _ => False) stale w' := by
  rcases compactTypes_cases hrun with rfl | hrun
  · exact ⟨h.standing, fun _ r hr _ => hlocal r hr, h.current, h.covered⟩
  · exact h.rebuildTypes htyped hlocal hrun

end Rebuild

/-! ## Refreshing -/

theorem refresh_cases (h : w.refresh bs = .ok w') :
    w.isTyped = false ∧ w' = w ∨ w.isTyped = true ∧ ∃ roots w1, w.rootsOf bs [] = .ok roots ∧
      roots.foldlM Workspace.refreshTree w = .ok w1 ∧ w1.compactTypes = .ok w' := by
  unfold refresh at h
  split at h
  · rename_i huntyped
    cases h
    exact .inl ⟨by simpa using huntyped, rfl⟩
  · rename_i htyped
    simp only [bind_eq_ok] at h
    obtain ⟨roots, hroots, w1, hfold, hcompact⟩ := h
    exact .inr ⟨by simpa using htyped, roots, w1, hroots, hfold, hcompact⟩

theorem refresh_of_untyped (huntyped : w.isTyped = false) (h : w.refresh bs = .ok w') : w' = w := by
  rcases refresh_cases h with ⟨-, heq⟩ | ⟨htyped, -⟩
  · exact heq
  · simp [huntyped] at htyped

theorem Tended.refreshTrees {roots : List BlockId} :
    ∀ {w w1 : Workspace} {loose stale : BlockId → Prop}, Tended Q tracked loose stale w →
      w.isTyped = true → (∀ r ∈ roots, r ∈ w.top) → roots.foldlM Workspace.refreshTree w = .ok w1 →
      Tended Q tracked (fun r => loose r ∧ r ∉ roots) (fun r => stale r ∧ r ∉ roots) w1 ∧
        Confined .all (fun b => ∃ r ∈ roots, w.Below r b) w w1 := by
  induction roots with
  | nil =>
    intro w w1 loose stale h _ _ hrun
    cases hrun
    exact ⟨by simpa using h, .refl _ _ w⟩
  | cons r roots ih =>
    intro w w1 loose stale h htyped htop hrun
    obtain ⟨z, hz, hrun⟩ := bind_eq_ok.1 hrun
    have hkeeps := keeps_refreshTree hz
    obtain ⟨htended, hconfined⟩ := h.refreshTree htyped (htop r List.mem_cons_self) hz
    obtain ⟨htended', hconfined'⟩ := ih htended
      ((isTyped_congr hconfined.agree.options).trans htyped)
      (fun x hx => hkeeps.top_eq ▸ htop x (List.mem_cons_of_mem r hx)) hrun
    refine ⟨htended'.relax (fun x _ hx => ⟨hx.1.1, ?_⟩) fun x _ hx => ⟨hx.1.1, ?_⟩,
      (hconfined.mono fun b hb => ⟨r, List.mem_cons_self, hb⟩).trans (hconfined'.mono ?_)⟩
    · simpa using ⟨hx.1.2, hx.2⟩
    · simpa using ⟨hx.1.2, hx.2⟩
    · rintro b ⟨x, hx, hb⟩
      exact ⟨x, List.mem_cons_of_mem r hx, hkeeps.below_iff.1 hb⟩

/-- `refresh` mends the trees of the blocks it is given.  Every tree that is loose must be among
them. -/
theorem Tended.refresh (h : Tended Q tracked loose stale w)
    (hloose : ∀ r ∈ w.top, loose r → ∃ b ∈ bs, w.Below r b) (hrun : w.refresh bs = .ok w') :
    Tended Q tracked (fun _ => False) (fun r => stale r ∧ ∀ b ∈ bs, ¬ w'.Below r b) w' := by
  have hkeeps := keeps_refresh hrun
  rcases refresh_cases hrun with ⟨huntyped, rfl⟩ | ⟨htyped, roots, w1, hroots, hfold, hcompact⟩
  · exact .of_untyped h.standing huntyped
  · obtain ⟨-, hmem⟩ := h.standing.inOrder.rootsOf_spec hroots List.nodup_nil
    obtain ⟨htended, hconfined⟩ :=
      h.refreshTrees htyped (fun r hr => by simpa using ((hmem r).1 hr).imp_right And.left) hfold
    have hkeeps1 : Keeps w w1 := .of_foldlM (fun _ _ _ => keeps_refreshTree) hfold
    have htyped1 : w1.isTyped = true := (isTyped_congr hconfined.agree.options).trans htyped
    refine (htended.compactTypes htyped1 (fun r hr => htended.here htyped1 r hr ?_) hcompact).relax
      (fun _ _ hr => hr) fun r hr hs => ⟨hs.1, fun b hb hbelow => hs.2 ?_⟩
    · rintro ⟨hl, hnot⟩
      rw [hkeeps1.top_eq] at hr
      exact hnot ((hmem r).2 (.inr ⟨hr, hloose r hr hl⟩))
    · rw [hkeeps.top_eq] at hr
      exact (hmem r).2 (.inr ⟨hr, b, hb, hkeeps.below_iff.1 hbelow⟩)

/-! ## What refreshing leaves alone -/

/-- Giving types to connections that had types, and taking none away, keeps the shape. -/
theorem Retypes.agreeOff_shape (h : Retypes w w')
    (hslots : ∀ {c : ConnectionId} {connection : Connection}, w.connections[c]? = some connection →
      ¬ A connection.block → (w'.slotType c).isSome = (w.slotType c).isSome) :
    AgreeOff .shape A w w' := by
  refine ⟨by rw [h.rest], fun _ => by rw [h.rest], fun {c connection} hc hA => ?_,
    fun {v found} hv _ => ?_, fun _ _ => by rw [h.rest]⟩
  · have hjoint := h.joint c
    have hsome := hslots hc hA
    rw [hc] at hjoint
    obtain ⟨new, hnew, hj⟩ := Option.map_eq_some_iff.1 hjoint
    rw [slotType, slotType, hnew, hc, Option.bind_some, Option.bind_some] at hsome
    rw [hnew, Option.map_some]
    obtain ⟨block, kind, check, type, target, error⟩ := connection
    obtain ⟨block', kind', check', type', target', error'⟩ := new
    simp only [Connection.joint, Joint.mk.injEq] at hj
    obtain ⟨rfl, rfl, rfl, rfl⟩ := hj
    cases type <;> cases type' <;> first | rfl | cases hsome
  · have huntyped := h.untyped v
    rwa [hv] at huntyped

section Slots

variable (hw : w.InOrder) (ho : w.Owned) (htyped : w.isTyped = true)
  (hlocal : ∀ r ∈ w.top, w.Local r) (hr : r ∈ w.top) {O : Nat → Prop} (hcurrent : w.UpToDate r O)
  {c : ConnectionId} (hc : w.OfTree r c)

include hw ho htyped hlocal hr hcurrent hc

/-- A rebuild of the table gives a type to each connection that had one, in trees that are up to
date. -/
theorem isSome_slotType_rebuildTypes (h : w.rebuildTypes = .ok w') :
    (w'.slotType c).isSome = (w.slotType c).isSome := by
  obtain ⟨owner, howner⟩ := exists_inferred_of_rebuildTypes hw ho htyped hlocal h
  obtain ⟨y0, y1, hsame, hinferred⟩ := howner r hr
  have hsettled := hinferred.settled
  have hsense : Same .sense w y0 r := hsame.coarsen (View.coarser_all _)
  obtain ⟨ty, y, t0, f, S, hreinfer, -, hmirror⟩ := hcurrent.replay hw ho hsettled.inOrder
    hsettled.owned (hsense.coarsen View.sense_graph) fun d hd => by rw [hsense.slotType_eq hd]
  obtain ⟨ty', hreinfer'⟩ := (settles_iff hsettled.typed).1 hsettled.settles
  cases hreinfer.symm.trans hreinfer'
  rw [hinferred.same.slotType_eq (hmirror.twins.holderIn (a := .inl c) hc),
    hmirror.isSome_slotType hc]

theorem isSome_slotType_compactTypes (h : w.compactTypes = .ok w') :
    (w'.slotType c).isSome = (w.slotType c).isSome := by
  rcases compactTypes_cases h with rfl | h
  · rfl
  · exact isSome_slotType_rebuildTypes hw ho htyped hlocal hr hcurrent hc h

end Slots

end BlockGraph.Workspace
