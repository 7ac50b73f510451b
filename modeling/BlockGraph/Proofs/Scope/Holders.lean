import BlockGraph.Proofs.Upkeep.Adequacy

/-!
# Bindings after a refresh

`InOrder.rebound_refresh`: a refresh decides the uses in the trees of the blocks it is given, shared
ones included (`Workspace.Rebound`).  `InOrder.boundAt_of_refresh`: of these trees the last has the
last word.
-/

namespace BlockGraph

open Relation

namespace Variable

theorem bare_of_untyped {v v' : Variable} (h : v'.untyped = v.untyped) : v'.bare = v.bare := by
  have hbare := congrArg bare h
  simpa only [bare, name_untyped, block_untyped, isReference_untyped] using hbare

end Variable

namespace Workspace

variable {w w' : Workspace} {r b : BlockId} {u : VariableId} {bs : List BlockId}

namespace Rebound

/-- Inference binds nothing. -/
theorem of_retypes (h : Retypes w w') : Rebound (fun _ _ => False) w w' where
  blocks := h.sameGraph.blocks
  skeleton := h.retouches.skeleton_eq
  bare v := map_eq_of_map_eq Variable.bare_of_untyped (h.untyped v)
  kept u := by
    have heq := congrArg (Option.bind · Variable.binding?) (h.untyped u)
    simp only [Option.bind_map, Function.comp_def, Variable.binding?_untyped] at heq
    exact .inl heq
  decided hb := hb.elim

end Rebound

/-! ## Refreshing -/

theorem InOrder.rebound_refreshTree (hw : w.InOrder) (hr : r ∈ w.top)
    (h : w.refreshTree r = .ok w') :
    Rebound (fun u b => w.HeldBy u b ∧ w.Below r b) w w' := by
  obtain ⟨⟨all, w1⟩, hbind, hinfer⟩ := bind_eq_ok.1 h
  exact ((hw.rebound_resolveReferences hr hbind).trans
    (.of_retypes (retypes_reinferTree hinfer))).congr (by simp)

theorem InOrder.rebound_refreshTrees {roots : List BlockId} :
    ∀ {w w' : Workspace}, w.InOrder → (∀ r ∈ roots, r ∈ w.top) →
      roots.foldlM refreshTree w = .ok w' →
      Rebound (fun u b => w.HeldBy u b ∧ ∃ r ∈ roots, w.Below r b) w w' := by
  induction roots with
  | nil =>
    intro w w' _ _ h
    cases h
    exact (Rebound.refl w).congr (by simp)
  | cons r roots ih =>
    intro w w' hw hroots h
    obtain ⟨w1, hstep, h⟩ := bind_eq_ok.1 h
    have hone := hw.rebound_refreshTree (hroots r List.mem_cons_self) hstep
    have hkeeps := keeps_refreshTree hstep
    have hmore := ih (hw.keeps hkeeps)
      (fun x hx => hkeeps.top_eq ▸ hroots x (List.mem_cons_of_mem r hx)) h
    refine (hone.trans hmore).congr fun u b => ?_
    simp only [hone.heldBy_iff, hone.below_iff, List.mem_cons, exists_eq_or_imp]
    tauto

/-- `refresh` decides the uses in the trees of the blocks it is given, if there are types. -/
theorem InOrder.rebound_refresh (hw : w.InOrder) (h : w.refresh bs = .ok w') :
    Rebound (fun u x => w.isTyped = true ∧ w.HeldBy u x ∧ ∃ r ∈ w.top, w.Below r x ∧
      ∃ b ∈ bs, w.Below r b) w w' := by
  rcases refresh_cases h with ⟨huntyped, rfl⟩ | ⟨htyped, roots, w1, hroots, hfold, hcompact⟩
  · exact (Rebound.refl w').congr (by simp [huntyped])
  · have hmem := (hw.rootsOf_spec hroots List.nodup_nil).2
    have hone := InOrder.rebound_refreshTrees hw
      (fun r hr => by simpa using ((hmem r).1 hr).imp_right And.left) hfold
    refine (hone.trans (.of_retypes (retypes_compactTypes hcompact))).congr fun u x => ?_
    simp only [hmem, htyped, List.not_mem_nil, false_or, or_false, true_and]
    refine and_congr_right fun _ => exists_congr fun r => ?_
    tauto

/-- `refresh` changes nothing about variables but types and bindings. -/
theorem keepsBare_refresh (h : w.refresh bs = .ok w') : KeepsBare w w' := by
  rcases refresh_cases h with ⟨-, rfl⟩ | ⟨-, roots, w1, -, hfold, hcompact⟩
  · exact fun _ => rfl
  · have htrees : KeepsBare w w1 := by
      refine foldlM_induction (P := KeepsBare w) (fun r _ v v' hv hstep => ?_) (fun _ => rfl) hfold
      obtain ⟨⟨all, v1⟩, hbind, hinfer⟩ := bind_eq_ok.1 hstep
      have hbinds := (binds_resolveReferences hbind).bare
      exact fun u => ((Rebound.of_retypes (retypes_reinferTree hinfer)).bare u).trans
        ((hbinds u).trans (hv u))
    exact fun u => ((Rebound.of_retypes (retypes_compactTypes hcompact)).bare u).trans (htrees u)

/-- Where variables are housed, a use below a block that is refreshed is bound to what its name
denotes. -/
theorem Housed.boundAt_of_refresh (ho : w.Housed) (hw : w.InOrder) (htyped : w.isTyped = true)
    (h : w.refresh bs = .ok w') {x : BlockId} {block : Block} (hx : x ∈ bs)
    (hblock : w.blocks[x]? = some block) {use : Variable} (hu : w.vars[u]? = some use)
    (hbelow : w.Below x use.block) : w'.BoundAt u use.block := by
  obtain ⟨r, -, hr, hrx⟩ := hw.exists_root hblock
  obtain ⟨b', ⟨-, hheld, -⟩, hbound⟩ := (hw.rebound_refresh h).decided
    ⟨htyped, (ho.heldBy_iff hu).2 rfl, r, hr, hrx.trans hbelow, x, hx, hrx⟩
  rwa [(ho.heldBy_iff hu).1 hheld]

/-- The tree that is refreshed last decides on the uses that it holds. -/
theorem InOrder.boundAt_of_refresh (hw : w.InOrder) (htyped : w.isTyped = true)
    {front : List BlockId} (hroots : w.rootsOf bs [] = .ok (front ++ [r]))
    (h : w.refresh bs = .ok w') (hheld : w.HeldBy u b) (hb : w.Below r b) : ∃ b', w.Below r b' ∧
    w.HeldBy u b' ∧ w'.BoundAt u b' := by
  rcases refresh_cases h with ⟨huntyped, -⟩ | ⟨-, roots, w1, hroots', hfold, hcompact⟩
  · cases huntyped.symm.trans htyped
  · cases hroots.symm.trans hroots'
    have hmem := (hw.rootsOf_spec hroots List.nodup_nil).2
    have htop : ∀ x ∈ front ++ [r], x ∈ w.top := fun x hx => by
      simpa using ((hmem x).1 hx).imp_right And.left
    simp only [List.foldlM_append, List.foldlM_cons, List.foldlM_nil, bind_eq_ok] at hfold
    obtain ⟨y, hfront, z, hlast, hz⟩ := hfold
    cases hz
    have hkeeps : Keeps w y := .of_foldlM (fun _ _ _ => keeps_refreshTree) hfront
    have hy := hw.keeps hkeeps
    have hone := InOrder.rebound_refreshTrees hw (fun x hx => htop x (List.mem_append_left _ hx))
      hfront
    have htwo := (hy.rebound_refreshTree (hkeeps.top_eq ▸ htop r (by simp)) hlast).trans
      (.of_retypes (retypes_compactTypes hcompact))
    obtain ⟨b', hb', hbound⟩ := htwo.decided (.inl ⟨hone.heldBy_iff.2 hheld, hone.below_iff.2 hb⟩)
    obtain ⟨hheld', hbelow'⟩ := hb'.resolve_right id
    exact ⟨b', hone.below_iff.1 hbelow', hone.heldBy_iff.1 hheld', hbound⟩

end Workspace

end BlockGraph
