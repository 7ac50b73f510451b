import BlockGraph.Proofs.Workspace.Rewire

/-!
# Adding and removing blocks and places

A connection that is made or freed is joined to nothing at that moment.  All that is joined is then
the same before and after (`SameJoined`), and with it every attachment; what remains to be seen is
that connections and places still correspond.

One lemma for each change: `Formed.addPlace`, `Formed.reframe`, `Formed.removePlace`,
`Formed.addBlock` and `Formed.removeBlock`, each put together from what the change does to the
wiring and to the families.  A check that is replaced (`Formed.recheck`) changes neither
(`SameLinks`).
-/

namespace BlockGraph.Skeleton

variable {b p x : BlockId} {c : ConnectionId} {k : ConnectionKind} {f f' g : Frame} {j : Joint}
  {cs : List ConnectionId} {s s' : Skeleton} {new : Option Joint}

/-! ## What is joined -/

/-- The same connections are joined, and to the same. -/
def SameJoined (s s' : Skeleton) : Prop := ∀ c j, j.target ≠ none →
  (s'.joint c = some j ↔ s.joint c = some j)

theorem SameJoined.target (h : s.SameJoined s') (hs : s.Wired) {t : ConnectionId}
    (hj : s'.joint c = some j) (ht : j.target = some t) : ∃ j', s'.joint t = some j' ∧
      j'.target = some c ∧ j'.kind = j.kind.opposite ∧ j'.block ≠ j.block := by
  have hjoined : j.target ≠ none := by simp [ht]
  obtain ⟨j', hj', hback, hkind, hblock⟩ := hs.target ((h c j hjoined).1 hj) ht
  exact ⟨j', (h t j' (by simp [hback])).2 hj', hback, hkind, hblock⟩

theorem SameJoined.attached_iff (h : s.SameJoined s') (hs : s.Wired) (b p : BlockId) :
    s'.Attached b p ↔ s.Attached b p := by
  constructor
  · rintro ⟨c, j, t, j', hj, hblock, hk, ht, hj', rfl⟩
    have hj0 := (h c j (by simp [ht])).1 hj
    obtain ⟨j0, htj, hback, -⟩ := hs.target hj0 ht
    -- the target is joined too, so both skeletons know it by the same joint
    have hsame := (h t j0 (by simp [hback])).2 htj
    rw [hj'] at hsame
    cases hsame
    exact ⟨c, j, t, j', hj0, hblock, hk, ht, htj, rfl⟩
  · rintro ⟨c, j, t, j', hj, hblock, hk, ht, hj', rfl⟩
    have hback := hs.target_back hj ht hj'
    exact ⟨c, j, t, j', (h c j (by simp [ht])).2 hj, hblock, hk, ht,
      (h t j' (by simp [hback])).2 hj', rfl⟩

theorem Checked.of_sameJoined (hc : s.Checked) (hs : s.Wired) (h : s.SameJoined s') :
    s'.Checked := by
  intro c t j j' hj ht hj'
  have hj0 := (h c j (by simp [ht])).1 hj
  obtain ⟨j0, htj, hback, -⟩ := hs.target hj0 ht
  have hsame := (h t j0 (by simp [hback])).2 htj
  rw [hj'] at hsame
  cases hsame
  exact hc c t j _ hj0 ht htj

/-- A connection that is joined to nothing may come, go or be replaced. -/
theorem sameJoined_update (hold : ∀ j, s.joint c = some j → j.target = none)
    (hnew : ∀ j, new = some j → j.target = none)
    (hjoint : s'.joint = Function.update s.joint c new) : s.SameJoined s' := by
  intro x j hj
  rw [hjoint, Function.update_apply]
  split
  · rename_i hx
    subst hx
    exact ⟨fun h => absurd (hnew j h) hj, fun h => absurd (hold j h) hj⟩
  · rfl

/-! ## Places of one block -/

theorem sameFamilies_update (hf : s.frame b = some f) (hfamily : family f' = family f)
    (hframe : s'.frame = Function.update s.frame b (some f'))
    (htop : s'.top = s.top) : s.SameFamilies s' := by
  refine ⟨fun x => ?_, htop⟩
  rw [hframe, Function.update_apply]
  split
  · rename_i hx
    rw [hx, hf, Option.map_some, Option.map_some, hfamily]
  · rfl

/-- What holds of every frame holds after one has been replaced, if it holds of the new one. -/
theorem forall_frame_update {P : Frame → Prop}
    (hs : ∀ {x : BlockId} {g : Frame}, s.frame x = some g → P g) (hf : P f)
    (hframe : s'.frame = Function.update s.frame b (some f)) (hg : s'.frame x = some g) : P g := by
  rw [hframe, Function.update_apply] at hg
  split at hg
  · cases hg
    exact hf
  · exact hs hg

/-- Gives a block another frame and makes a free connection for it. -/
def addPlace (s : Skeleton) (b : BlockId) (f : Frame) (c : ConnectionId) (j : Joint) : Skeleton :=
  { s with
    frame := Function.update s.frame b (some f)
    joint := Function.update s.joint c (some j)
    free := Function.update s.free c true
    count := s.count + 1 }

theorem sameJoined_addPlace (hs : s.Wired) (hc : c.index = s.count)
    (hj : j.target = none) : s.SameJoined (s.addPlace b f c j) := by
  refine sameJoined_update (fun j' hj' => ?_) (fun j' hj' => ?_) rfl
  · have := hs.index hj'
    omega
  · cases hj'
    exact hj

theorem Wired.joint_fresh (hs : s.Wired) (hc : c.index = s.count) : s.joint c = none := by
  by_contra hne
  obtain ⟨j, hj⟩ := Option.ne_none_iff_exists'.1 hne
  have := hs.index hj
  omega

/-- No place lists a connection that does not exist. -/
theorem Wired.not_mem_places (hs : s.Wired) (hc : s.joint c = none) (hf : s.frame b = some f)
    (k : ConnectionKind) : (c, k) ∉ f.places := by
  intro hmem
  obtain ⟨j, hj, -⟩ := hs.joint_of_frame hf hmem
  rw [hc] at hj
  cases hj

theorem Wired.addPlace (hs : s.Wired) (hf : s.frame b = some f) (hc : c.index = s.count)
    (hb : j.block = b) (hj : j.target = none) (hplaces : f'.places.Perm ((c, j.kind) :: f.places))
    (hfit : ∀ x ∈ f'.slots, x.Fitted)
    (hstem : f'.output = none ∨ f'.previous = none) : (s.addPlace b f' c j).Wired where
  listed {x d k} := by
    have hfresh := hs.joint_fresh hc
    simp only [Skeleton.addPlace, Function.update_apply]
    by_cases hd : d = c
    · subst hd
      by_cases hx : x = b
      · subst hx
        simp [hplaces.mem_iff, hs.not_mem_places hfresh hf, hb, eq_comm]
      · have hjx : j.block ≠ x := fun h => hx (h.symm.trans hb)
        simp only [if_neg hx, if_true, Option.some.injEq]
        constructor
        · rintro ⟨g, hg, hmem⟩
          exact absurd hmem (hs.not_mem_places hfresh hg k)
        · rintro ⟨_, rfl, h, -⟩
          exact absurd h hjx
    · rw [if_neg hd, ← hs.listed]
      by_cases hx : x = b
      · subst hx
        simp [hplaces.mem_iff, hd, hf]
      · simp [hx]
  nodup := by
    refine forall_frame_update hs.nodup ?_ rfl
    rw [(hplaces.map Prod.fst).nodup_iff, List.map_cons, List.nodup_cons]
    refine ⟨fun hmem => ?_, hs.nodup hf⟩
    obtain ⟨⟨d, k⟩, hplace, rfl⟩ := List.mem_map.1 hmem
    exact hs.not_mem_places (hs.joint_fresh hc) hf k hplace
  fitted := forall_frame_update hs.fitted hfit rfl
  stem := forall_frame_update hs.stem hstem rfl
  index {d j'} hj' := by
    simp only [Skeleton.addPlace, Function.update_apply] at hj' ⊢
    split at hj'
    · rename_i hd
      rw [hd, hc]
      omega
    · have := hs.index hj'
      omega
  free {d} := by
    simp only [Skeleton.addPlace, Function.update_apply]
    by_cases hd : d = c
    · simp [hd, hj]
    · simp [hd, hs.free]
  target := (sameJoined_addPlace hs hc hj).target hs

theorem Formed.addPlace (hs : s.Formed) (hf : s.frame b = some f) (hc : c.index = s.count)
    (hb : j.block = b) (hj : j.target = none) (hplaces : f'.places.Perm ((c, j.kind) :: f.places))
    (hfamily : family f' = family f) (hfit : ∀ x ∈ f'.slots, x.Fitted)
    (hstem : f'.output = none ∨ f'.previous = none) : (s.addPlace b f' c j).Formed :=
  hs.of_wired (sameFamilies_update hf hfamily rfl rfl)
    (hs.wired.addPlace hf hc hb hj hplaces hfit hstem)
    ((sameJoined_addPlace hs.wired hc hj).attached_iff hs.wired)

/-- Another frame for a block, with the same places in another order. -/
theorem Formed.reframe (hs : s.Formed) (hf : s.frame b = some f) (hplaces : f'.places.Perm f.places)
    (hfamily : family f' = family f) (hfit : ∀ x ∈ f'.slots, x.Fitted)
    (hstem : f'.output = none ∨ f'.previous = none) : (s.setFrame b (some f')).Formed := by
  have hw := hs.wired
  refine hs.of_wired (sameFamilies_update hf hfamily rfl rfl)
    ⟨?_, ?_, ?_, ?_, hw.index, hw.free, hw.target⟩ fun _ _ => Iff.rfl
  · intro x d k
    refine Iff.trans ?_ hw.listed
    simp only [setFrame, Function.update_apply]
    by_cases hx : x = b
    · subst hx
      simp [hf, hplaces.mem_iff]
    · simp [hx]
  · exact forall_frame_update hw.nodup ((hplaces.map Prod.fst).nodup_iff.2 (hw.nodup hf)) rfl
  · exact forall_frame_update hw.fitted hfit rfl
  · exact forall_frame_update hw.stem hstem rfl

/-- Gives a block another frame and frees a connection. -/
def removePlace (s : Skeleton) (b : BlockId) (f : Frame) (c : ConnectionId) : Skeleton :=
  { s with
    frame := Function.update s.frame b (some f)
    joint := Function.update s.joint c none
    free := Function.update s.free c false }

theorem sameJoined_removePlace
    (hc : ∀ j, s.joint c = some j → j.target = none) : s.SameJoined (s.removePlace b f c) :=
  sameJoined_update hc (by simp) rfl

theorem Wired.removePlace (hs : s.Wired) (hf : s.frame b = some f)
    (hc : ∀ j, s.joint c = some j → j.target = none) (hplaces : f.places.Perm ((c, k) :: f'.places))
    (hfit : ∀ x ∈ f'.slots, x.Fitted)
    (hstem : f'.output = none ∨ f'.previous = none) : (s.removePlace b f' c).Wired := by
  have hnodup : c ∉ f'.places.map Prod.fst ∧ (f'.places.map Prod.fst).Nodup := by
    have := (hplaces.map Prod.fst).nodup_iff.1 (hs.nodup hf)
    rwa [List.map_cons, List.nodup_cons] at this
  -- only `b` lists the connection
  obtain ⟨jc, hjc, hjb, hjk⟩ := hs.joint_of_frame hf (hplaces.mem_iff.2 List.mem_cons_self)
  refine ⟨?_, forall_frame_update hs.nodup hnodup.2 rfl, forall_frame_update hs.fitted hfit rfl,
    forall_frame_update hs.stem hstem rfl, ?_, ?_, (sameJoined_removePlace hc).target hs⟩
  · intro x d k'
    simp only [Skeleton.removePlace, Function.update_apply]
    by_cases hd : d = c
    · subst hd
      have hnone : ∀ g, (if x = b then some f' else s.frame x) = some g → (d, k') ∉ g.places := by
        intro g hg hmem
        split at hg
        · cases hg
          exact hnodup.1 (List.mem_map.2 ⟨_, hmem, rfl⟩)
        · rename_i hx
          obtain ⟨j', hj', hj'b, -⟩ := hs.joint_of_frame hg hmem
          rw [hjc] at hj'
          cases hj'
          exact hx (hj'b.symm.trans hjb)
      simp only [if_true]
      constructor
      · rintro ⟨g, hg, hmem⟩
        exact absurd hmem (hnone g hg)
      · rintro ⟨j', hj', -⟩
        cases hj'
    · rw [if_neg hd, ← hs.listed]
      by_cases hx : x = b
      · subst hx
        simp [hf, hplaces.mem_iff, hd]
      · simp [hx]
  · intro d j' hj'
    simp only [Skeleton.removePlace, Function.update_apply] at hj'
    split at hj'
    · cases hj'
    · exact hs.index hj'
  · intro d
    simp only [Skeleton.removePlace, Function.update_apply]
    by_cases hd : d = c
    · simp [hd]
    · simp [hd, hs.free]

theorem Formed.removePlace (hs : s.Formed) (hf : s.frame b = some f)
    (hc : ∀ j, s.joint c = some j → j.target = none) (hplaces : f.places.Perm ((c, k) :: f'.places))
    (hfamily : family f' = family f) (hfit : ∀ x ∈ f'.slots, x.Fitted)
    (hstem : f'.output = none ∨ f'.previous = none) : (s.removePlace b f' c).Formed :=
  hs.of_wired (sameFamilies_update hf hfamily rfl rfl)
    (hs.wired.removePlace hf hc hplaces hfit hstem)
    ((sameJoined_removePlace hc).attached_iff hs.wired)

/-! ## Whole blocks -/

/-- Adds a block without connections that stands alone. -/
def addBlock (s : Skeleton) (b : BlockId) (kind : Kind) : Skeleton :=
  { s with
    frame := Function.update s.frame b (some { kind })
    top := s.top ++ [b] }

section AddBlock

variable {b : BlockId} (kind : Kind)

theorem frame_addBlock : (s.addBlock b kind).frame = Function.update s.frame b (some { kind }) :=
  rfl

theorem frame_addBlock_of_frame (hb : s.frame b = none)
    (hg : s.frame x = some g) : (s.addBlock b kind).frame x = some g := by
  rw [frame_addBlock, Function.update_apply, if_neg, hg]
  rintro rfl
  rw [hb] at hg
  cases hg

theorem parentOf_addBlock_iff (hb : s.frame b = none) :
    (s.addBlock b kind).ParentOf p x ↔ s.ParentOf p x := by
  unfold ParentOf
  rw [frame_addBlock, Function.update_apply]
  split
  · rename_i hx
    simp [hx, hb]
  · rfl

theorem Wired.addBlock (hs : s.Wired) (hb : s.frame b = none) : (s.addBlock b kind).Wired where
  listed {x d k} := by
    refine Iff.trans ⟨?_, ?_⟩ hs.listed
    · rintro ⟨g, hg, hmem⟩
      rw [frame_addBlock, Function.update_apply] at hg
      split at hg
      · cases hg
        simp [Frame.places] at hmem
      · exact ⟨g, hg, hmem⟩
    · rintro ⟨g, hg, hmem⟩
      exact ⟨g, frame_addBlock_of_frame kind hb hg, hmem⟩
  nodup := forall_frame_update hs.nodup (by simp [Frame.places]) (frame_addBlock kind)
  fitted := forall_frame_update hs.fitted (by simp) (frame_addBlock kind)
  stem := forall_frame_update hs.stem (Or.inl rfl) (frame_addBlock kind)
  index := hs.index
  free := hs.free
  target := hs.target

theorem Related.addBlock (hs : s.Related) (hb : s.frame b = none) :
    (s.addBlock b kind).Related where
  live hx := by
    obtain ⟨f, hf⟩ := hs.live ((parentOf_addBlock_iff kind hb).1 hx)
    exact ⟨f, frame_addBlock_of_frame kind hb hf⟩
  children_nodup := forall_frame_update hs.children_nodup (by simp) (frame_addBlock kind)
  mem_children {p x f} hf := by
    rw [frame_addBlock, Function.update_apply] at hf
    rw [parentOf_addBlock_iff kind hb]
    split at hf
    · rename_i hp
      cases hf
      -- a block that was not there is nobody's parent
      simp only [List.not_mem_nil, false_iff, hp]
      intro hx
      obtain ⟨g, hg⟩ := hs.live hx
      rw [hb] at hg
      cases hg
    · exact hs.mem_children hf
  top_nodup := by
    refine List.Nodup.append hs.top_nodup (by simp) ?_
    simp only [List.disjoint_singleton]
    intro hmem
    obtain ⟨f, hf, -⟩ := hs.mem_top.1 hmem
    rw [hb] at hf
    cases hf
  mem_top {x} := by
    simp only [Skeleton.addBlock, Function.update_apply, List.mem_append, List.mem_singleton,
      hs.mem_top]
    by_cases hx : x = b <;> simp [hx]

theorem Formed.addBlock (hs : s.Formed) (hb : s.frame b = none) : (s.addBlock b kind).Formed where
  wired := hs.wired.addBlock kind hb
  related := hs.related.addBlock kind hb
  parent {x p f} hf := by
    rw [frame_addBlock, Function.update_apply] at hf
    refine Iff.trans ?_ (Iff.rfl : s.Attached x p ↔ _)
    split at hf
    · rename_i hx
      cases hf
      simp only [reduceCtorEq, false_iff]
      rintro ⟨c, j, t, j', hj, hjb, -⟩
      obtain ⟨g, hg, -⟩ := hs.wired.frame_of_joint hj
      rw [hjb, hx, hb] at hg
      cases hg
    · exact hs.parent hf
  acyclic := hs.acyclic.mono fun _ _ hx => (parentOf_addBlock_iff kind hb).1 hx

end AddBlock

/-- Removes a block and the connections it lists. -/
def removeBlock (s : Skeleton) (b : BlockId) (cs : List ConnectionId) : Skeleton :=
  { s with
    frame := Function.update s.frame b none
    joint := fun c => if c ∈ cs then none else s.joint c
    free := fun c => if c ∈ cs then false else s.free c
    top := (s.top.reverse.erase b).reverse }

theorem sameJoined_removeBlock (hfree : ∀ c ∈ cs, ∀ j, s.joint c = some j → j.target = none) :
    s.SameJoined (s.removeBlock b cs) := by
  intro c j hj
  simp only [removeBlock]
  by_cases hc : c ∈ cs
  · simp only [if_pos hc, reduceCtorEq, false_iff]
    exact fun h => hj (hfree c hc j h)
  · rw [if_neg hc]

theorem frame_removeBlock_iff : (s.removeBlock b cs).frame x = some g ↔ x ≠ b ∧
    s.frame x = some g := by
  simp only [Skeleton.removeBlock, Function.update_apply]
  by_cases hx : x = b <;> simp [hx]

section RemoveBlock

variable {b : BlockId} {f : Frame}

theorem Wired.removeBlock (hs : s.Wired) (hf : s.frame b = some f)
    (hfree : ∀ c ∈ f.connections, ∀ j, s.joint c = some j → j.target = none) :
    (s.removeBlock b f.connections).Wired where
  listed {x d k} := by
    have hmem : ∀ {j : Joint}, s.joint d = some j → (d ∈ f.connections ↔ j.block = b) := by
      intro j hj
      rw [hs.mem_connections hf]
      simp [hj]
    simp only [frame_removeBlock_iff, and_assoc, exists_and_left, hs.listed]
    simp only [Skeleton.removeBlock]
    constructor
    · rintro ⟨hx, j, hj, rfl, rfl⟩
      refine ⟨j, ?_, rfl, rfl⟩
      rw [if_neg (fun h => hx ((hmem hj).1 h)), hj]
    · rintro ⟨j, hj, rfl, rfl⟩
      split at hj
      · cases hj
      · rename_i hd
        exact ⟨fun h => hd ((hmem hj).2 h), j, hj, rfl, rfl⟩
  nodup hg := hs.nodup (frame_removeBlock_iff.1 hg).2
  fitted hg := hs.fitted (frame_removeBlock_iff.1 hg).2
  stem hg := hs.stem (frame_removeBlock_iff.1 hg).2
  index {d j} hj := by
    simp only [Skeleton.removeBlock] at hj
    split at hj
    · cases hj
    · exact hs.index hj
  free {d} := by
    simp only [Skeleton.removeBlock]
    by_cases hd : d ∈ f.connections
    · simp [hd]
    · simp [hd, hs.free]
  target := (sameJoined_removeBlock hfree).target hs

/-- A block whose connections are all free stands alone. -/
theorem Formed.parent_eq_none (hs : s.Formed) (hf : s.frame b = some f)
    (hfree : ∀ c ∈ f.connections, ∀ j, s.joint c = some j → j.target = none) : f.parent = none := by
  cases hp : f.parent with
  | none => rfl
  | some p =>
    obtain ⟨c, j, t, j', hj, hjb, -, ht, -⟩ := (hs.parent hf).1 hp
    rw [hfree c ((hs.wired.mem_connections hf).2 ⟨j, hj, hjb⟩) j hj] at ht
    cases ht

/-- A block whose connections are all free has no children. -/
theorem Formed.not_parentOf (hs : s.Formed) (hf : s.frame b = some f)
    (hfree : ∀ c ∈ f.connections, ∀ j, s.joint c = some j → j.target = none) (x : BlockId) :
    ¬ s.ParentOf b x := by
  rintro ⟨g, hg, hp⟩
  obtain ⟨c, j, t, j', hj, -, -, ht, hj', hj'b⟩ := (hs.parent hg).1 hp
  have hback := hs.wired.target_back hj ht hj'
  rw [hfree t ((hs.wired.mem_connections hf).2 ⟨j', hj', hj'b⟩) j' hj'] at hback
  cases hback

theorem parentOf_removeBlock_iff (hf : s.frame b = some f) (horphan : f.parent = none) :
    (s.removeBlock b cs).ParentOf p x ↔ s.ParentOf p x := by
  constructor
  · rintro ⟨g, hg, hp⟩
    exact ⟨g, (frame_removeBlock_iff.1 hg).2, hp⟩
  · rintro ⟨g, hg, hp⟩
    refine ⟨g, frame_removeBlock_iff.2 ⟨?_, hg⟩, hp⟩
    rintro rfl
    cases hf.symm.trans hg
    rw [horphan] at hp
    cases hp

theorem Related.removeBlock (hs : s.Related) (hf : s.frame b = some f) (horphan : f.parent = none)
    (hchildless : ∀ x, ¬ s.ParentOf b x) : (s.removeBlock b cs).Related where
  live {p x} hx := by
    rw [parentOf_removeBlock_iff hf horphan] at hx
    obtain ⟨g, hg⟩ := hs.live hx
    exact ⟨g, frame_removeBlock_iff.2 ⟨fun hp => hchildless x (hp ▸ hx), hg⟩⟩
  children_nodup hg := hs.children_nodup (frame_removeBlock_iff.1 hg).2
  mem_children hg := by
    rw [parentOf_removeBlock_iff hf horphan]
    exact hs.mem_children (frame_removeBlock_iff.1 hg).2
  top_nodup := List.nodup_reverse.2 ((List.nodup_reverse.2 hs.top_nodup).erase _)
  mem_top {x} := by
    simp only [frame_removeBlock_iff, and_assoc, exists_and_left]
    simp only [Skeleton.removeBlock, mem_erase_reverse hs.top_nodup, hs.mem_top]

/-- A block whose connections are all free can be removed. -/
theorem Formed.removeBlock (hs : s.Formed) (hf : s.frame b = some f)
    (hfree : ∀ c ∈ f.connections, ∀ j, s.joint c = some j → j.target = none) :
    (s.removeBlock b f.connections).Formed where
  wired := hs.wired.removeBlock hf hfree
  related := hs.related.removeBlock hf (hs.parent_eq_none hf hfree) (hs.not_parentOf hf hfree)
  parent hg := by
    rw [(sameJoined_removeBlock hfree).attached_iff hs.wired]
    exact hs.parent (frame_removeBlock_iff.1 hg).2
  acyclic := hs.acyclic.mono fun _ _ hx =>
    (parentOf_removeBlock_iff hf (hs.parent_eq_none hf hfree)).1 hx

end RemoveBlock

/-! ## Checks -/

/-- What a connection says apart from its check. -/
def link (j : Joint) : BlockId × ConnectionKind × Option ConnectionId := (j.block, j.kind, j.target)

/-- Two skeletons differ in the checks of their connections only. -/
structure SameLinks (s s' : Skeleton) : Prop where
  joint : ∀ c, (s'.joint c).map link = (s.joint c).map link
  frame : s'.frame = s.frame
  free : s'.free = s.free
  top : s'.top = s.top
  count : s'.count = s.count

namespace SameLinks

variable (h : s.SameLinks s')
include h

theorem symm : s'.SameLinks s :=
  ⟨fun c => (h.joint c).symm, h.frame.symm, h.free.symm, h.top.symm, h.count.symm⟩

theorem exists_joint (hj : s.joint c = some j) :
    ∃ j', s'.joint c = some j' ∧ j'.block = j.block ∧ j'.kind = j.kind ∧ j'.target = j.target := by
  have hlink := h.joint c
  rw [hj, Option.map_some, Option.map_eq_some_iff] at hlink
  obtain ⟨j', hj', heq⟩ := hlink
  simp only [link, Prod.mk.injEq] at heq
  exact ⟨j', hj', heq⟩

theorem attached (hb : s.Attached b p) : s'.Attached b p := by
  obtain ⟨c, j, t, j1, hj, rfl, hk, ht, hj1, rfl⟩ := hb
  obtain ⟨j', hj', hb', hk', ht'⟩ := h.exists_joint hj
  obtain ⟨j1', hj1', hb1', -⟩ := h.exists_joint hj1
  exact ⟨c, j', t, j1', hj', hb', hk' ▸ hk, ht'.trans ht, hj1', hb1'⟩

theorem wired (hs : s.Wired) : s'.Wired where
  listed {b c k} := by
    rw [h.frame]
    refine hs.listed.trans ⟨?_, ?_⟩
    · rintro ⟨j, hj, rfl, rfl⟩
      obtain ⟨j', hj', hb, hk, -⟩ := h.exists_joint hj
      exact ⟨j', hj', hb, hk⟩
    · rintro ⟨j', hj', rfl, rfl⟩
      obtain ⟨j, hj, hb, hk, -⟩ := h.symm.exists_joint hj'
      exact ⟨j, hj, hb, hk⟩
  nodup hf := hs.nodup (h.frame ▸ hf)
  fitted hf := hs.fitted (h.frame ▸ hf)
  stem hf := hs.stem (h.frame ▸ hf)
  index hj' := by
    obtain ⟨j, hj, -⟩ := h.symm.exists_joint hj'
    rw [h.count]
    exact hs.index hj
  free {c} := by
    rw [h.free]
    refine hs.free.trans ⟨?_, ?_⟩
    · rintro ⟨j, hj, ht⟩
      obtain ⟨j', hj', -, -, ht'⟩ := h.exists_joint hj
      exact ⟨j', hj', ht'.trans ht⟩
    · rintro ⟨j', hj', ht'⟩
      obtain ⟨j, hj, -, -, ht⟩ := h.symm.exists_joint hj'
      exact ⟨j, hj, ht.trans ht'⟩
  target hj' ht' := by
    obtain ⟨j, hj, hb, hk, ht⟩ := h.symm.exists_joint hj'
    obtain ⟨j1, hj1, hback, hkind, hblock⟩ := hs.target hj (ht.trans ht')
    obtain ⟨j1', hj1', hb1, hk1, ht1⟩ := h.exists_joint hj1
    exact ⟨j1', hj1', ht1.trans hback, by rw [hk1, hkind, hk], by rwa [hb1, ← hb]⟩

theorem formed (hs : s.Formed) : s'.Formed :=
  hs.of_wired ⟨fun _ => by rw [h.frame], h.top⟩ (h.wired hs.wired) fun _ _ =>
    ⟨h.symm.attached, h.attached⟩

end SameLinks

/-- Replacing a check keeps a skeleton formed, though not its checks passed. -/
theorem Formed.recheck (hs : s.Formed) (hj : s.joint c = some j)
    (check : Check) : (s.setJoint c (some { j with check })).Formed := by
  have hlinks : s.SameLinks (s.setJoint c (some { j with check })) := by
    refine ⟨fun d => ?_, rfl, rfl, rfl, rfl⟩
    simp only [setJoint, Function.update_apply]
    split
    · rename_i hd
      rw [hd, hj]
      rfl
    · rfl
  exact hlinks.formed hs

/-- Pairs that do not touch the connection pass as before. -/
theorem Checked.recheck_of_ne (hs : s.Checked) :
    ∀ d t j j', d ≠ c → t ≠ c → (s.setJoint c new).joint d = some j → j.target = some t →
      (s.setJoint c new).joint t = some j' → Check.intersects j.check j'.check = true := by
  intro d t j j' hd ht hj htarget hj'
  simp only [setJoint, Function.update_apply, if_neg hd] at hj
  simp only [setJoint, Function.update_apply, if_neg ht] at hj'
  exact hs d t j j' hj htarget hj'

/-- All pairs pass if the connection passes with its new check. -/
theorem Checked.recheck (hs : s.Checked) (hw : s.Wired) (hj : s.joint c = some j) {check : Check}
    (hnew : ∀ t j', j.target = some t → s.joint t = some j' →
      Check.intersects check j'.check = true) :
    (s.setJoint c (some { j with check })).Checked := by
  have hne : ∀ t, j.target = some t → t ≠ c := by
    rintro t ht rfl
    exact hw.target_ne_self hj ht
  intro d t j1 j2 hj1 ht hj2
  by_cases hd : d = c
  · subst hd
    simp only [setJoint, Function.update_self, Option.some.injEq] at hj1
    subst hj1
    simp only [setJoint, Function.update_apply, if_neg (hne t ht)] at hj2
    exact hnew t j2 ht hj2
  · by_cases htc : t = c
    · subst htc
      simp only [setJoint, Function.update_self, Option.some.injEq] at hj2
      subst hj2
      simp only [setJoint, Function.update_apply, if_neg hd] at hj1
      exact (Check.intersects_comm ..).trans (hnew d j1 (hw.target_back hj1 ht hj) hj1)
    · exact hs.recheck_of_ne d t j1 j2 hd htc hj1 ht hj2

end BlockGraph.Skeleton
