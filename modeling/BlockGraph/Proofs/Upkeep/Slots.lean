import BlockGraph.Proofs.Upkeep.Adequacy

/-!
# Which connections have types

A kind gives types to the connections for values, and inference gives a type to nothing else.  So in
a workspace that is up to date every value connection has a type (`Upheld.isSome_slotType`), and of
the others `refresh` leaves those with a type that had one (`KeepsPlain.refresh`).
-/

namespace BlockGraph.Workspace

variable {w w1 w' w'' : Workspace} {Q : Block → Prop} {r : BlockId} {c : ConnectionId}

/-- A kind gives types to value connections only. -/
theorem InOrder.isValue_of_given (hw : w.InOrder) {b : BlockId} {block : Block}
    (hblock : w.blocks[b]? = some block) (hkeeps : w.KeepsLayout b block)
    (hgiven : block.Given (.inl c)) :
    ∃ connection, w.connections[c]? = some connection ∧ connection.kind.isValue = true := by
  obtain ⟨ty, hty⟩ := hgiven
  obtain ⟨connection, hc, hvalue, -⟩ := hkeeps.holderBelow hw hblock (.refl : w.Below b b) hty
  exact ⟨connection, hc, hvalue⟩

section Laid

variable (hlaid : ∀ {block : Block}, Q block → block.Laid)
include hlaid

/-- In a tree that is up to date, every value connection has a type. -/
theorem Upheld.isSome_slotType (h : Upheld Q True w) (htyped : w.isTyped = true)
    {connection : Connection} (hc : w.connections[c]? = some connection)
    (hvalue : connection.kind.isValue = true) :
    (w.slotType c).isSome = true := by
  have hw := h.standing.inOrder
  obtain ⟨block, hblock⟩ := hw.block_of_connection hc
  obtain ⟨r, -, hr, hbelow⟩ := hw.exists_root hblock
  have hkeeps := h.standing.keepsTree hlaid (h.here htyped r hr id)
  obtain ⟨ty, w', π, hreinfer, hagree⟩ := h.exists_reinfer htyped hr
  obtain ⟨x, done, base, -, -, hready, hsolving⟩ :=
    exists_solving_of_reinfer hw htyped (hw.live_of_top hr) hkeeps hreinfer
  have hsocket : w'.SocketBelow r c :=
    (retypes_reinfer hreinfer).sameGraph.socketBelow ⟨connection, hc, hvalue, hbelow⟩
  obtain ⟨ty', htype, htype'⟩ := hagree.type c ⟨connection, hc, hbelow⟩
  have hshown := Except.ok.inj (htype'.symm.trans ((hready.shows hsolving).socket hsocket))
  obtain ⟨t, rfl, -⟩ := Option.map_eq_some_iff.1 hshown
  obtain ⟨expr, hslot, -⟩ := slotType_of_typeOf? htype
  rw [hslot, Option.isSome_some]

/-- So the same connections have types, if of the others the same have. -/
theorem Upheld.isSome_slotType_eq (h : Upheld Q True w) (h' : Upheld Q True w')
    (htyped : w.isTyped = true) (hoptions : w'.options = w.options)
    (hjoint : w'.skeleton.joint = w.skeleton.joint)
    (hplain : ∀ old, w.connections[c]? = some old → old.kind.isValue = false →
      (w'.slotType c).isSome = (w.slotType c).isSome) :
    (w'.slotType c).isSome = (w.slotType c).isSome := by
  have hsame : w'.connections[c]?.map Connection.joint = w.connections[c]?.map Connection.joint :=
    congrFun hjoint c
  cases hold : w.connections[c]? with
  | none =>
    rw [hold] at hsame
    rw [slotType, slotType, hold, Option.map_eq_none_iff.1 hsame]
  | some old =>
    by_cases hvalue : old.kind.isValue = true
    · obtain ⟨new, hnew, hkind⟩ := exists_of_map_eq hsame hold
      rw [h.isSome_slotType hlaid htyped hold hvalue,
        h'.isSome_slotType hlaid ((isTyped_congr hoptions).trans htyped) hnew]
      exact (congrArg (fun j : Joint => j.kind.isValue) hkind).trans hvalue
    · exact hplain old hold (by simpa using hvalue)

/-- Of connections that are not for values, none comes to have a type and none loses it. -/
structure KeepsPlain (Q : Block → Prop) (w w' : Workspace) : Prop where
  standing : Standing Q w'
  options : w'.options = w.options
  skeleton : w'.skeleton = w.skeleton
  plain : ∀ {c : ConnectionId} {j : Joint}, w.skeleton.joint c = some j → j.kind.isValue = false →
    (w'.slotType c).isSome = (w.slotType c).isSome

omit hlaid in
theorem KeepsPlain.refl (hs : Standing Q w) : KeepsPlain Q w w := ⟨hs, rfl, rfl, fun _ _ => rfl⟩

omit hlaid in
theorem KeepsPlain.trans (h : KeepsPlain Q w w') (h' : KeepsPlain Q w' w'') :
    KeepsPlain Q w w'' where
  standing := h'.standing
  options := h'.options.trans h.options
  skeleton := h'.skeleton.trans h.skeleton
  plain hj hplain := (h'.plain (h.skeleton ▸ hj) hplain).trans (h.plain hj hplain)

theorem KeepsPlain.reinferTree (hs : Standing Q w) (htyped : w.isTyped = true) (hr : r ∈ w.top)
    (h : w.reinferTree r = .ok w') : KeepsPlain Q w w' := by
  obtain ⟨p, hp, h⟩ := bind_eq_ok.1 h
  cases h
  have hw := hs.inOrder
  have hretypes := ((settles_iff htyped).2 ⟨p.1, hp⟩).retypesIn hw hs.owned htyped
    (hw.live_of_top hr)
  refine ⟨hs.retypes hretypes.retypes, hretypes.agree.options, hretypes.retypes.keeps.skeleton_eq,
    fun {c j} hj hplain => hretypes.slots c ?_⟩
  rintro ⟨b, block, hb, hblock, hgiven⟩
  obtain ⟨connection, hc, hvalue⟩ := hw.isValue_of_given hblock
    (hs.owned.keepsLayout hblock (hlaid (hs.block hblock))) hgiven
  cases hj.symm.trans (joint_of_connection hc)
  exact absurd (hvalue.symm.trans hplain) (by simp)

theorem KeepsPlain.refreshTree (hs : Standing Q w) (htyped : w.isTyped = true) (hr : r ∈ w.top)
    (h : w.refreshTree r = .ok w') : KeepsPlain Q w w' := by
  simp only [Workspace.refreshTree, bind_eq_ok] at h
  obtain ⟨⟨all, w1⟩, hresolve, h⟩ := h
  obtain ⟨hrebinds, -⟩ := resolveReferences_spec hs.inOrder hs.owned hr hresolve
  have hbound : KeepsPlain Q w w1 := by
    refine ⟨hs.rebinds hrebinds htyped, by rw [hrebinds.rest], by rw [hrebinds.rest]; rfl,
      fun _ _ => ?_⟩
    rw [hrebinds.rest]
    rfl
  refine hbound.trans (.reinferTree hlaid hbound.standing ?_ ?_ h)
  · rw [hrebinds.rest]
    exact htyped
  · rw [hrebinds.rest]
    exact hr

omit hlaid in
/-- A pass over each of some trees. -/
theorem KeepsPlain.foldlM {F : Workspace → BlockId → Except Fault Workspace}
    (hF : ∀ {v v' : Workspace} {r : BlockId}, Standing Q v → v.isTyped = true → r ∈ v.top →
      F v r = .ok v' → KeepsPlain Q v v')
    (hs : Standing Q w) (htyped : w.isTyped = true) {roots : List BlockId}
    (hroots : ∀ r ∈ roots, r ∈ w.top) (h : roots.foldlM F w = .ok w') : KeepsPlain Q w w' := by
  refine foldlM_induction (P := KeepsPlain Q w) (fun r hr v v' hv hstep => hv.trans ?_) (.refl hs) h
  refine hF hv.standing ?_ ?_ hstep
  · rw [isTyped, hv.options]
    exact htyped
  · have htop : v.top = w.top := congrArg Skeleton.top hv.skeleton
    exact htop ▸ hroots r hr

theorem KeepsPlain.refresh (hs : Standing Q w) {bs : List BlockId} (h : w.refresh bs = .ok w') :
    KeepsPlain Q w w' := by
  rcases refresh_cases h with ⟨-, rfl⟩ | ⟨htyped, roots, w1, hroots, hfold, hcompact⟩
  · exact .refl hs
  · have hmem := (hs.inOrder.rootsOf_spec hroots List.nodup_nil).2
    have htrees := KeepsPlain.foldlM (.refreshTree hlaid) hs htyped
      (fun r hr => by simpa using ((hmem r).1 hr).imp_right And.left) hfold
    rcases compactTypes_cases hcompact with rfl | hrebuild
    · exact htrees
    · obtain ⟨z, hz, hrebuild⟩ := bind_eq_ok.1 hrebuild
      cases hrebuild
      have hs1 := htrees.standing
      have hempty : Standing Q { w1 with types := .empty } :=
        ⟨hs1.inOrder.keeps ⟨rfl, fun _ => Table.sound_empty⟩,
          hs1.owned.keeps (.of_eq rfl rfl rfl rfl), hs1.block⟩
      have hagain := KeepsPlain.foldlM (.reinferTree hlaid) hempty
        (by rw [isTyped]; exact (congrArg Options.typed htrees.options).trans htyped)
        (fun _ => id) hz
      refine htrees.trans ⟨?_, hagain.options, hagain.skeleton, hagain.plain⟩
      have hsz := hagain.standing
      exact ⟨hsz.inOrder.keeps ⟨rfl, id⟩, hsz.owned.keeps (.of_eq rfl rfl rfl rfl), hsz.block⟩

end Laid

end BlockGraph.Workspace
