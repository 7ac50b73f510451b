import BlockGraph.Proofs.Events.Edits
import BlockGraph.Proofs.Upkeep.Loading

/-!
# What loading tells

A record is built in one batch: its blocks are made, each standing alone, and then plugged in one by
one.  A block that waits to be plugged in waits once and stands alone until then
(`Workspace.Waiting`), so the move that is fired for it starts from where it is.  A record that is
refused is told to its end, too: first what was built of it, then the deletions.
-/

namespace BlockGraph.Workspace

variable {w w' : Workspace} {b x p child : BlockId} {error : Option RecordError}
  {saved : SavedBlock} {record : Record}

/-! ## Families as they show -/

theorem parentOf_iff_entryOf? :
    w.ParentOf p x ↔ ∃ entry, w.entryOf? x = some entry ∧ entry.parent = some p := by
  constructor
  · rintro ⟨block, hblock, hp⟩
    exact ⟨_, by rw [entryOf?, hblock]; rfl, hp⟩
  · rintro ⟨entry, hentry, hp⟩
    obtain ⟨block, hblock, rfl⟩ := Option.map_eq_some_iff.1 hentry
    exact ⟨block, hblock, hp⟩

theorem InOrder.mem_top_iff_entryOf? (hw : w.InOrder) :
    x ∈ w.top ↔ ∃ entry, w.entryOf? x = some entry ∧ entry.parent = none := by
  rw [hw.structured.top.2 x]
  constructor
  · rintro ⟨block, hblock, hp⟩
    exact ⟨_, by rw [entryOf?, hblock]; rfl, hp⟩
  · rintro ⟨entry, hentry, hp⟩
    obtain ⟨block, hblock, rfl⟩ := Option.map_eq_some_iff.1 hentry
    exact ⟨block, hblock, hp⟩

theorem InOrder.not_plugs_of_mem_top (hw : w.InOrder) (hx : x ∈ w.top) (c : ConnectionId) :
    ¬ w.Plugs x c := by
  intro hc
  obtain ⟨connection, hconnection, -⟩ := hw.connection_of_plugs hc
  exact not_parentOf_of_mem_top hw hx _ (hw.parentOf_of_plugs hc hconnection)

theorem SameScene.parentOf_iff (h : SameScene w w') (hw : w.InOrder) (hw' : w'.InOrder) :
    w'.ParentOf p x ↔ w.ParentOf p x := by
  rw [parentOf_iff_entryOf?, parentOf_iff_entryOf?, h.entryOf?_eq hw hw']

/-! ## A list block without children -/

namespace InOrder

variable (hw : w.InOrder) (hleaf : ∀ y, ¬ w.ParentOf b y)
include hw hleaf

/-- An input that holds nothing goes silently. -/
theorem sameScene_removeInput_of_leaf {name : String} (h : w.removeInput b name = .ok w') :
    w'.InOrder ∧ SameScene w w' := by
  simp only [Workspace.removeInput, inputTarget?, inputConnection?, bind_eq_ok, getBlock_eq_ok] at h
  obtain ⟨index, -, target, ⟨socket, ⟨block, hblock, hsocket⟩, htarget⟩, stack, hstack, w1, h1,
    block1, hblock1, w2, h2, w3, h3, h⟩ := h
  cases hsocket
  have hnone : target = none := by
    cases target with
    | none => rfl
    | some y =>
      exact absurd (hw.parentOf_of_occupant? hblock (fun d hd => Block.mem_inferiors_of_socket? hd)
        htarget) (hleaf y)
  subst hnone
  cases hstack
  cases h1
  obtain ⟨hw', -, hscene⟩ := hw.sameScene_removeInput hblock1 h2 h3 h
  exact ⟨hw', hscene⟩

/-- A list block without children gets and loses items silently. -/
theorem sameScene_setItemCount {count : Nat} (h : w.setItemCount b count = .ok w') :
    SameScene w w' := by
  simp only [Workspace.setItemCount, bind_eq_ok] at h
  obtain ⟨block, -, _, -, w1, h1, w2, h2, h⟩ := h
  have hs1 : w1.InOrder ∧ SameScene w w1 := by
    refine foldlM_induction (P := fun v => v.InOrder ∧ SameScene w v) (fun _ _ v v' hv hstep => ?_)
      ⟨hw, .refl w⟩ h1
    obtain ⟨⟨index, v'⟩, happend, hstep⟩ := bind_eq_ok.1 hstep
    cases hstep
    exact ⟨hv.1.appendInput happend, hv.2.trans (hv.1.sameScene_appendInput happend)⟩
  have hs2 : w2.InOrder ∧ SameScene w w2 := by
    refine foldlM_induction (P := fun v => v.InOrder ∧ SameScene w v)
      (fun _ _ v v' hv hstep => ?_) hs1 h2
    obtain ⟨hv', hscene⟩ := hv.1.sameScene_removeInput_of_leaf
      (fun y hy => hleaf y ((hv.2.parentOf_iff hw hv.1).1 hy)) hstep
    exact ⟨hv', hv.2.trans hscene⟩
  exact hs2.2.trans (.of_keeps (keeps_refresh h))

theorem sameScene_loadState {kind : Kind} {state : Option Json}
    (h : w.loadState b kind state = .ok w') : SameScene w w' := by
  unfold Workspace.loadState at h
  split at h
  · split at h
    · exact hw.sameScene_setItemCount hleaf h
    · cases h
      exact .refl w
  · cases h
    exact .refl w

end InOrder

/-! ## Building -/

/-- Making one block of a record adds one entry, of a block that stands alone. -/
theorem InOrder.entryOf?_build {s s' : Loading} (hs : s.workspace.InOrder)
    (h : s.build saved = .ok (error, s')) :
    Tells s.workspace s'.workspace ∧ s'.pending = s.pending ∧ ((s' = s ∧ error ≠ none) ∨
      ∃ kind, s.workspace.blocks[saved.id]? = none ∧ ∀ x, s'.workspace.entryOf? x =
        if x = saved.id then some { kind } else s.workspace.entryOf? x) := by
  rcases Loading.build_cases h with ⟨rfl, herror⟩ | ⟨kind, w1, w2, w3, w4, -, hnone, h1, h2,
    h3, h4, rfl⟩
  · exact ⟨.refl hs, rfl, .inl ⟨rfl, herror⟩⟩
  obtain ⟨-, hentry⟩ := hs.entryOf?_newBlockWithId h1
  have ht1 := hs.tells_newBlockWithId h1
  have hw1 := ht1.inOrder
  -- nothing is below a block that was not there
  have hleaf : ∀ y, ¬ w1.ParentOf saved.id y := by
    intro y hy
    obtain ⟨entry, hy, hp⟩ := parentOf_iff_entryOf?.1 hy
    rw [hentry] at hy
    split at hy
    · cases hy
      cases hp
    · obtain ⟨f, hf⟩ :=
        hs.formed.related.live (parentOf_skeleton.2 (parentOf_iff_entryOf?.2 ⟨entry, hy, hp⟩))
      obtain ⟨above, habove, -⟩ := frame_eq_some_iff.1 hf
      exact absurd (hnone.symm.trans habove) (by simp)
  have ht2 := loadState_induction (fun h hrun => (inputClosed_tells w1).setItemCount h hrun)
    (.refl hw1) h2
  have ht3 : Tells w2 w3 := .of_keeps ht2.inOrder (keeps_loadFields h3) (quiet_loadFields h3)
  obtain ⟨ht4, hkeeps⟩ : Tells w3 w4 ∧ Keeps w3 w4 := by
    rcases h4 with ⟨-, h4⟩ | ⟨-, rfl⟩
    · exact ⟨.of_keeps ht3.inOrder (keeps_loadProperties h4) (quiet_loadProperties h4),
        keeps_loadProperties h4⟩
    · exact ⟨.refl ht3.inOrder, .refl w4⟩
  have hscene : SameScene w1 w4 :=
    (hw1.sameScene_loadState hleaf h2).trans (.of_keeps ((keeps_loadFields h3).trans hkeeps))
  refine ⟨ht1.trans (ht2.trans (ht3.trans ht4)), rfl, .inr ⟨kind, hnone, fun x => ?_⟩⟩
  rw [← hentry, ← hscene.entryOf?_eq hw1 ht4.inOrder]

/-- The blocks that wait to be plugged in wait once, and stand alone. -/
structure Waiting (s : Loading) : Prop where
  inOrder : s.workspace.InOrder
  nodup : (s.pending.map Prod.snd).Nodup
  top : ∀ p ∈ s.pending, p.2 ∈ s.workspace.top

namespace Waiting

variable {s s' : Loading}

/-- A block that has been made does not wait yet, and stands alone. -/
theorem build (h : Waiting s)
    (hrun : s.build saved = .ok (error, s')) : Waiting s' ∧ Tells s.workspace s'.workspace ∧
      (error = none → saved.id ∈ s'.workspace.top ∧ saved.id ∉ s'.pending.map Prod.snd) := by
  obtain ⟨htells, hpending, ⟨rfl, herror⟩ | ⟨kind, hnone, hentry⟩⟩ := h.inOrder.entryOf?_build hrun
  · exact ⟨h, htells, fun h => absurd h herror⟩
  · have hlive : ∀ p ∈ s.pending, p.2 ≠ saved.id := by
      rintro p hp heq
      obtain ⟨block, hblock, -⟩ := (h.inOrder.structured.top.2 p.2).1 (h.top p hp)
      rw [heq, hnone] at hblock
      cases hblock
    refine ⟨⟨htells.inOrder, by rw [hpending]; exact h.nodup, fun p hp => ?_⟩, htells,
      fun _ => ⟨?_, ?_⟩⟩
    · rw [hpending] at hp
      rw [htells.inOrder.mem_top_iff_entryOf?, hentry, if_neg (hlive p hp),
        ← h.inOrder.mem_top_iff_entryOf?]
      exact h.top p hp
    · rw [htells.inOrder.mem_top_iff_entryOf?, hentry, if_pos rfl]
      exact ⟨_, rfl, rfl⟩
    · rw [hpending]
      intro hmem
      obtain ⟨p, hp, heq⟩ := List.mem_map.1 hmem
      exact hlive p hp heq

theorem await (h : Waiting s) (htop : child ∈ s.workspace.top)
    (hnew : child ∉ s.pending.map Prod.snd) (socket : Option ConnectionId) :
    Waiting (s.await socket child) := by
  cases socket with
  | none => exact h
  | some c =>
    refine ⟨h.inOrder, List.nodup_cons.2 ⟨hnew, h.nodup⟩, fun p hp => ?_⟩
    rcases List.mem_cons.1 hp with rfl | hp
    · exact htop
    · exact h.top p hp

/-- Blocks wait as they should, and what was made has been told. -/
theorem builds (w : Workspace) : Loading.Builds (fun s => Waiting s ∧ Tells w s.workspace)
    (fun s => Waiting s ∧ Tells w s.workspace) (fun _ => True) fun _ _ _ => True where
  weaken := id
  build h hrun := by
    obtain ⟨hs, htells, -⟩ := h.1.build hrun
    exact ⟨hs, h.2.trans htells⟩
  await {_ _ _ socket} h hrun _ := by
    obtain ⟨hs, htells, hmade⟩ := h.1.build hrun
    exact ⟨⟨hs.await (hmade rfl).1 (hmade rfl).2 socket, by simpa using h.2.trans htells⟩, trivial⟩
  fits _ _ _ _ := trivial

end Waiting

/-! ## Plugging in -/

/-- Plugging in a block that stands alone leaves the others where they are. -/
theorem InOrder.tells_attach (hw : w.InOrder) {socket : ConnectionId} (htop : child ∈ w.top)
    (h : w.attach socket child = .ok (error, w')) :
    Tells w w' ∧ ∀ x, x ≠ child → w'.entryOf? x = w.entryOf? x := by
  rcases hw.attach_cases h with ⟨-, rfl⟩ | ⟨-, superior, _, _, hgate, horient, hpair, rfl, hlink⟩
  · exact ⟨.refl hw, fun _ _ => rfl⟩
  · obtain ⟨i, o, inferior, plug, horient', hpair', hcheck, hcycle⟩ := hw.linkable hgate
    cases horient.symm.trans horient'
    cases hpair.plug_eq.symm.trans hpair'.plug_eq
    have htells := hw.tells_link hpair' hcheck hcycle (fun c => hw.not_plugs_of_mem_top htop c)
      hlink
    exact ⟨htells, fun x hx => hw.entryOf?_link htells.inOrder hpair' hlink hx⟩

theorem InOrder.tells_attachAll {pending : List (ConnectionId × BlockId)} :
    ∀ {w w' : Workspace} {error : Option RecordError}, w.InOrder → (pending.map Prod.snd).Nodup →
      (∀ p ∈ pending, p.2 ∈ w.top) → w.attachAll pending = .ok (error, w') → Tells w w' := by
  induction pending with
  | nil =>
    intro w w' error hw _ _ h
    cases h
    exact .refl hw
  | cons p rest ih =>
    intro w w' error hw hnodup htop h
    obtain ⟨socket, child⟩ := p
    simp only [Workspace.attachAll, bind_eq_ok] at h
    obtain ⟨⟨first, w1⟩, h1, h⟩ := h
    obtain ⟨ht1, hentry⟩ := hw.tells_attach (htop _ List.mem_cons_self) h1
    split at h
    · rename_i heq
      cases heq
      rw [List.map_cons, List.nodup_cons] at hnodup
      refine ht1.trans (ih ht1.inOrder hnodup.2 (fun q hq => ?_) h)
      have hne : q.2 ≠ child := fun heq => hnodup.1 (List.mem_map.2 ⟨q, hq, heq⟩)
      rw [ht1.inOrder.mem_top_iff_entryOf?, hentry _ hne, ← hw.mem_top_iff_entryOf?]
      exact htop q (List.mem_cons_of_mem _ hq)
    · cases h
      exact ht1

theorem InOrder.tells_assemble (hw : w.InOrder) {created : List BlockId}
    (h : w.assemble record = .ok (error, created, w')) : Tells w w' := by
  simp only [Workspace.assemble, bind_eq_ok] at h
  obtain ⟨⟨refused, s⟩, hbuild, h⟩ := h
  have hstart : Waiting { workspace := w } := ⟨hw, List.nodup_nil, by simp⟩
  obtain ⟨⟨hs, ht⟩, -⟩ := (Waiting.builds w).buildTree ⟨hstart, .refl hw⟩ trivial hbuild
  split at h
  · cases h
    exact ht
  · obtain ⟨⟨refused, w1⟩, hattach, h⟩ := bind_eq_ok.1 h
    cases h
    exact ht.trans (InOrder.tells_attachAll hs.inOrder hs.nodup hs.top hattach)

/-! ## Records -/

/-- The events of a record are told in one batch, which is closed before the types are brought up to
date. -/
theorem InOrder.exists_batch_fromRecord (hw : w.InOrder) {answer : Except RecordError BlockId}
    (h : w.fromRecord record = .ok (answer, w')) :
    ∃ w1 w2, Tells w.beginBatch.2 w1 ∧ w1.endBatch w.beginBatch.1 = .ok w2 ∧ Tells w2 w' := by
  have hbegin : w.beginBatch.2.InOrder := ⟨hw.formed, hw.checked, hw.sound⟩
  obtain ⟨error, created, w1, w2, h1, ⟨-, -, h2, h⟩ | ⟨_, -, -, h2, h⟩⟩ := fromRecord_cases h
  · have ht1 := hbegin.tells_assemble h1
    exact ⟨w1, w2, ht1, h2, (Tells.refl (ht1.inOrder.keeps (keeps_endBatch h2))).refresh h⟩
  · have ht2 := (inputClosed_tells _).discard (hbegin.tells_assemble h1) h2
    exact ⟨w2, w', ht2, h, .refl (ht2.inOrder.keeps (keeps_endBatch h))⟩

end BlockGraph.Workspace
