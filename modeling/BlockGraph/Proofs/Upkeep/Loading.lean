import BlockGraph.Proofs.Upkeep.Creation
import BlockGraph.Proofs.Upkeep.Extending

/-!
# Loading keeps trees up to date

While a record is built, its blocks are those that the workspace did not have before
(`Workspace.Absent`).  Nothing else changes, no block of the record is joined to another block, and
only trees of the record can be behind.  A record that is accepted leaves one tree, which is
refreshed; a record that is refused leaves none, since every block made for it is disposed of.
-/

namespace BlockGraph.Workspace

open Relation

variable {child parent b : BlockId} {c : ConnectionId} {created : List BlockId}
  {error : Option RecordError} {record : Record} {pending : List (ConnectionId × BlockId)}
  {w w0 w' v v' : Workspace} {Q : Block → Prop} {tracked : Prop} {stale N : BlockId → Prop}
  {saved : SavedBlock} {socket : Option ConnectionId}

/-! ## What is new -/

/-- The block is not in the workspace. -/
def Absent (w : Workspace) (b : BlockId) : Prop := w.blocks[b]? = none

theorem InOrder.parted_absent (hw : w.InOrder) : Parted w.Absent w := by
  rintro p b ⟨block, hblock, hparent⟩
  obtain ⟨c, connection, t, other, -, -, -, hother, rfl⟩ := (hw.structured.parent hblock).1 hparent
  obtain ⟨above, habove, -⟩ := hw.structured.listed hother
  exact iff_of_false (fun hp => by cases hp.symm.trans habove) fun hb => by
    cases hb.symm.trans hblock

/-! ## Fields and state -/

theorem Kept.loadState (hQ : Steady Q) (h : Kept Q tracked N w0 stale w) (hb : N b) {kind : Kind}
    {state : Option Json} {block : Block} (hblock : w.blocks[b]? = some block)
    (hrun : w.loadState b kind state = .ok w') :
    Kept Q tracked N w0 stale w' ∧ (∃ block, w'.blocks[b]? = some block) ∧
      ∀ x, ¬ w.Below b x → w'.blocks[x]?.map Block.innards = w.blocks[x]?.map Block.innards := by
  unfold Workspace.loadState at hrun
  split at hrun
  · split at hrun
    · exact h.setItemCount hQ hb hrun
    · cases hrun
      exact ⟨h, ⟨block, hblock⟩, fun _ _ => rfl⟩
  · cases hrun
    exact ⟨h, ⟨block, hblock⟩, fun _ _ => rfl⟩

theorem Kept.loadField (hQ : Steady Q) (h : Kept Q tracked N w0 N w) (hb : N b) {name : String}
    {value : Json} (hrun : w.loadField b name value = .ok (error, w')) :
    Kept Q tracked N w0 N w' := by
  rcases loadField_cases hrun with
    rfl | ⟨block, hblock, ⟨v, text, hheld, h1⟩ | ⟨loaded, hloaded, hold, h1⟩⟩
  · exact h
  · have hkept := h.rename hQ hb (fun found => h.owned.block_of_held hblock hheld) h1
    refine hkept.relax (fun r _ hr => ?_) fun _ => id
    exact hr.elim id fun hbelow => (hkept.parted.below hbelow).2 hb
  · refine h.restyle hQ hb h1 fun block' hblock' => ?_
    cases hblock.symm.trans hblock'
    exact ⟨Block.essence_setField hloaded hold, block.frame_setField name loaded⟩

theorem Kept.loadFields (hQ : Steady Q) (hb : N b) {fields : List (String × Json)}
    (h : Kept Q tracked N w0 N w) (hrun : w.loadFields b fields = .ok (error, w')) :
    Kept Q tracked N w0 N w' :=
  loadFields_induction (fun hkept => hkept.loadField hQ hb) h hrun

theorem Kept.loadProperties (hQ : Steady Q) (h : Kept Q tracked N w0 stale w) (hb : N saved.id)
    (hrun : w.loadProperties saved = .ok w') : Kept Q tracked N w0 stale w' :=
  h.restyle hQ hb hrun fun _ _ => ⟨rfl, rfl⟩

/-! ## Building -/

/-- The blocks that are there stay, and keep their connections. -/
def Persists (w w' : Workspace) : Prop :=
  ∀ (b : BlockId) (block : Block), w.blocks[b]? = some block →
    ∃ block', w'.blocks[b]? = some block' ∧ block'.connections = block.connections

theorem Persists.trans (h : Persists w w') (h' : Persists w' v) : Persists w v := by
  intro b block hblock
  obtain ⟨block', hblock', heq⟩ := h b block hblock
  obtain ⟨block'', hblock'', heq'⟩ := h' b block' hblock'
  exact ⟨block'', hblock'', heq'.trans heq⟩

/-- The connection belongs to a block of `N`. -/
def Sprouts (N : BlockId → Prop) (w : Workspace) (c : ConnectionId) : Prop :=
  ∃ b block, N b ∧ w.blocks[b]? = some block ∧ c ∈ block.connections

theorem Persists.sprouts (h : Persists w w') (hc : w.Sprouts N c) : w'.Sprouts N c := by
  obtain ⟨b, block, hb, hblock, hmem⟩ := hc
  obtain ⟨block', hblock', heq⟩ := h b block hblock
  exact ⟨b, block', hb, hblock', heq ▸ hmem⟩

/-- Blocks of `N` wait to be plugged into sockets of others. -/
def Seated (N : BlockId → Prop) (w : Workspace) (pending : List (ConnectionId × BlockId)) : Prop :=
  ∀ p ∈ pending, w.Sprouts N p.1 ∧ N p.2 ∧ ∃ block, w.blocks[p.2]? = some block

theorem Persists.seated (h : Persists w w') (hp : w.Seated N pending) : w'.Seated N pending := by
  intro p hmem
  obtain ⟨hsocket, hchild, block, hblock⟩ := hp p hmem
  obtain ⟨block', hblock', -⟩ := h _ _ hblock
  exact ⟨h.sprouts hsocket, hchild, block', hblock'⟩

/-- A tree under construction: the blocks that are new are those made for it, and only they wait to
be plugged in. -/
structure Building (Q : Block → Prop) (tracked : Prop) (w0 : Workspace) (s : Loading) : Prop where
  kept : Kept Q tracked w0.Absent w0 w0.Absent s.workspace
  created : ∀ b ∈ s.created, w0.Absent b
  made : ∀ {b : BlockId} {block : Block}, s.workspace.blocks[b]? = some block → w0.Absent b →
    b ∈ s.created
  seated : s.workspace.Seated w0.Absent s.pending

/-- Every block made waits to be plugged in, but for the root. -/
def Awaited (root : BlockId) (s : Loading) : Prop := ∀ b ∈ s.created, b = root ∨
  ∃ c, (c, b) ∈ s.pending

theorem Awaited.await {root : BlockId} {s s' : Loading} (h : Awaited root s)
    (hpending : s'.pending = s.pending) (hcreated : s'.created = child :: s.created)
    (hroot : socket = none → child = root) : Awaited root (s'.await socket child) := by
  intro b hb
  have hmem : b ∈ child :: s.created := by
    cases socket <;> exact hcreated ▸ hb
  have hsub : ∀ p ∈ s.pending, p ∈ (s'.await socket child).pending := by
    intro p hp
    rw [← hpending] at hp
    cases socket with
    | none => exact hp
    | some c => exact List.mem_cons_of_mem _ hp
  rcases List.mem_cons.1 hmem with rfl | hb
  · cases socket with
    | none => exact .inl (hroot rfl)
    | some c => exact .inr ⟨c, List.mem_cons_self⟩
  · exact (h b hb).imp id fun ⟨c, hc⟩ => ⟨c, hsub _ hc⟩

namespace Building

variable {s s' : Loading}

theorem start (h : Kept Q tracked w0.Absent w0 w0.Absent w0) :
    Building Q tracked w0 { workspace := w0 } := by
  refine ⟨h, by simp, fun {b block} hblock hb => ?_, by simp [Seated]⟩
  cases hb.symm.trans hblock

/-- A number that is free was free before. -/
theorem absent_of_none (h : Building Q tracked w0 s) (hnone : s.workspace.blocks[b]? = none) :
    w0.Absent b := by
  by_contra hlive
  exact hlive ((h.kept.old hlive).symm.trans hnone)

theorem build (hQ : Steady Q) (h : Building Q tracked w0 s)
    (hrun : s.build saved = .ok (error, s')) :
    Building Q tracked w0 s' ∧ s'.pending = s.pending ∧ Persists s.workspace s'.workspace ∧
      (error = none → w0.Absent saved.id ∧ s'.created = saved.id :: s.created ∧
        ∃ block, s'.workspace.blocks[saved.id]? = some block) := by
  rcases Loading.build_cases hrun with ⟨rfl, herror⟩ | ⟨kind, w1, w2, w3, w4, -, hnone, h1, h2,
    h3, h4, rfl⟩
  · exact ⟨h, rfl, fun _ _ hblock => ⟨_, hblock, rfl⟩, fun hnone => absurd hnone herror⟩
  have hid := h.absent_of_none hnone
  obtain ⟨hkept1, hother1, hleaf, block1, hblock1, -⟩ := h.kept.newBlockWithId hQ hid h1
  obtain ⟨hkept2, hlive2, hother2⟩ := hkept1.loadState hQ hid hblock1 h2
  have hkept3 := hkept2.loadFields hQ hid h3
  obtain ⟨hkept4, hkeeps⟩ : Kept Q tracked w0.Absent w0 w0.Absent w4 ∧ Keeps w2 w4 := by
    rcases h4 with ⟨-, h4⟩ | ⟨-, rfl⟩
    · exact ⟨hkept3.loadProperties hQ hid h4, (keeps_loadFields h3).trans (keeps_loadProperties h4)⟩
    · exact ⟨hkept3, keeps_loadFields h3⟩
  have hother : ∀ x, x ≠ saved.id →
    w2.blocks[x]?.map Block.innards = s.workspace.blocks[x]?.map Block.innards :=
    fun x hx => by
      rw [hother2 x, hother1 x hx]
      intro hbelow
      rcases ReflTransGen.cases_head hbelow with heq | ⟨y, hy, -⟩
      · exact hx heq.symm
      · exact hleaf y hy
  have hpersists : Persists s.workspace w4 := by
    intro b block hblock
    have hne : b ≠ saved.id := by
      rintro rfl
      cases hnone.symm.trans hblock
    obtain ⟨block2, hblock2, hinnards⟩ := exists_of_map_eq (hother b hne) hblock
    obtain ⟨block4, hblock4, hframe⟩ :=
      frame_eq_some_iff.1 (hkeeps.skeleton_eq ▸ frame_of_block hblock2)
    refine ⟨block4, hblock4, ?_⟩
    rw [← Block.connections_frame, hframe, Block.connections_frame,
      Block.connections_of_innards hinnards]
  refine ⟨⟨hkept4, ?_, fun {b block} hblock hb => ?_, hpersists.seated h.seated⟩, rfl, hpersists,
    fun _ => ⟨hid, rfl, hkeeps.live_iff.2 hlive2⟩⟩
  · simpa using ⟨hid, h.created⟩
  · by_cases hne : b = saved.id
    · exact hne ▸ List.mem_cons_self
    · obtain ⟨block2, hblock2⟩ := hkeeps.live_iff.1 ⟨block, hblock⟩
      obtain ⟨old, hold, -⟩ := exists_of_map_eq (hother b hne).symm hblock2
      exact List.mem_cons_of_mem _ (h.made hold hb)

theorem await (h : Building Q tracked w0 s)
    (hsocket : ∀ c, socket = some c → s.workspace.Sprouts w0.Absent c) (hchild : w0.Absent child)
    (hlive : ∃ block, s.workspace.blocks[child]? = some block) :
    Building Q tracked w0 (s.await socket child) := by
  cases socket with
  | none => exact h
  | some c =>
    refine ⟨h.kept, h.created, h.made, fun p hp => ?_⟩
    rcases List.mem_cons.1 hp with rfl | hp
    · exact ⟨hsocket c rfl, hchild, hlive⟩
    · exact h.seated p hp

/-- Blocks made are new and so are the sockets that they wait for; only the root waits for none. -/
theorem builds (hQ : Steady Q) (root : BlockId) :
    Loading.Builds (fun s => Building Q tracked w0 s ∧ Awaited root s)
      (Building Q tracked w0) w0.Absent fun s socket child =>
        (∀ c, socket = some c → s.workspace.Sprouts w0.Absent c) ∧
            (socket = none → child = root) where
  weaken h := h.1
  build h hrun := (h.1.build hQ hrun).1
  await h hrun hfits := by
    obtain ⟨hs, hpending, hpersists, hcreated⟩ := h.1.build hQ hrun
    obtain ⟨hid, hcreated, hlive⟩ := hcreated rfl
    exact ⟨⟨hs.await (fun c hc => hpersists.sprouts (hfits.1 c hc)) hid hlive,
      h.2.await hpending hcreated hfits.2⟩, hid⟩
  fits h hparent hblock hc := by
    refine ⟨fun c' hc' => ?_, nofun⟩
    cases hc'
    exact ⟨_, _, hparent, hblock, hc⟩

end Building

/-! ## Plugging in -/

/-- Joining two blocks that are both in `N`. -/
theorem Kept.join (hQ : Steady Q) (h : Kept Q tracked N w0 N w) (hparent : N parent)
    (hchild : N child) (hlinked : Linked parent child w w') : Kept Q tracked N w0 N w' := by
  have hs := hlinked.rewires.standing hQ h.standing hlinked.inOrder
  have hA : ∀ x, x = parent ∨ x = child → N x := by
    rintro x (rfl | rfl) <;> assumption
  have hgrown := h.grow hs (hlinked.rewires.confined _) ((hlinked.rewires.mono hA).confined _).agree
    (hlinked.parted h.parted (iff_of_true hparent hchild)) hA
    (fun _ => local_of_grown h.inOrder h.owned hs.inOrder (by simp [hlinked.rewires.vars])
      fun p x hp => by
      rw [hlinked.parentOf]
      split
      · rename_i hx
        exact hlinked.old p (hx ▸ hp)
      · exact hp)
  refine hgrown.relax (fun r hr hstale => ?_) fun _ => id
  exact hgrown.inside r hstale

/-- The blocks are the same, and what was plugged in still is. -/
structure Joins (w w' : Workspace) : Prop where
  innards : ∀ b : BlockId, w'.blocks[b]?.map Block.innards = w.blocks[b]?.map Block.innards
  parent : ∀ {p b : BlockId}, w.ParentOf p b → ∃ p', w'.ParentOf p' b

theorem Joins.persists (h : Joins w w') : Persists w w' := by
  intro b block hblock
  obtain ⟨block', hblock', hinnards⟩ := exists_of_map_eq (h.innards b) hblock
  exact ⟨block', hblock', Block.connections_of_innards hinnards⟩

theorem Joins.refl (w : Workspace) : Joins w w := ⟨fun _ => rfl, fun hp => ⟨_, hp⟩⟩

theorem Joins.trans (h : Joins w w') (h' : Joins w' v) : Joins w v where
  innards b := (h'.innards b).trans (h.innards b)
  parent hp := by
    obtain ⟨p', hp'⟩ := h.parent hp
    exact h'.parent hp'

theorem Linked.joins (h : Linked parent child w w') : Joins w w' where
  innards := h.rewires.innards.block
  parent {p b} hp := by
    by_cases hb : b = child
    · exact ⟨parent, (h.parentOf _ _).2 (by rw [if_pos hb])⟩
    · exact ⟨p, (h.parentOf _ _).2 (by rwa [if_neg hb])⟩

section

variable (hQ : Steady Q)
include hQ

theorem Kept.attach (h : Kept Q tracked N w0 N w) {socket : ConnectionId}
    (hsocket : w.Sprouts N socket) (hchild : N child)
    (hrun : w.attach socket child = .ok (error, w')) : Kept Q tracked N w0 N w' ∧ Joins w w' ∧
      (error = none → ∃ p, w'.ParentOf p child) := by
  rcases h.inOrder.attach_cases hrun with
    ⟨herror, rfl⟩ | ⟨-, superior, _, plug, hgate, horient, hpair, rfl, hlink⟩
  · exact ⟨h, .refl w', fun hnone => absurd hnone herror⟩
  · obtain ⟨inferior, plug', hinferior, hplug', -, hlinked⟩ :=
      exists_linked h.inOrder hgate horient hlink
    cases hpair.plug_eq.symm.trans (joint_of_connection hplug')
    obtain ⟨parent, block, hparent, hblock, hmem⟩ := hsocket
    obtain ⟨_, hc, rfl⟩ := h.inOrder.structured.owned hblock hmem
    cases hc.symm.trans hinferior
    refine ⟨h.join hQ hparent hchild hlinked, hlinked.joins, fun _ => ⟨inferior.block, ?_⟩⟩
    exact (hlinked.parentOf _ _).2 (by rw [if_pos (show plug'.joint.block = plug'.block from rfl)])

theorem Kept.attachAll :
    ∀ {w w' : Workspace} {error : Option RecordError}, Kept Q tracked N w0 N w →
      w.Seated N pending → w.attachAll pending = .ok (error, w') → Kept Q tracked N w0 N w' ∧
        Joins w w' ∧ (error = none → ∀ p ∈ pending, ∃ q, w'.ParentOf q p.2) := by
  induction pending with
  | nil =>
    intro w w' error h _ hrun
    cases hrun
    exact ⟨h, .refl w, fun _ _ hp => by simp at hp⟩
  | cons entry rest ih =>
    intro w w' error h hpending hrun
    obtain ⟨socket, child⟩ := entry
    simp only [Workspace.attachAll, bind_eq_ok] at hrun
    obtain ⟨⟨refused, w1⟩, h1, hrun⟩ := hrun
    obtain ⟨hsocket, hchild, -⟩ := hpending _ List.mem_cons_self
    obtain ⟨hkept1, hjoins1, hjoined1⟩ := h.attach hQ hsocket hchild h1
    split at hrun
    · rename_i heq
      cases heq
      obtain ⟨hkept, hjoins, hjoined⟩ := ih hkept1
        (hjoins1.persists.seated fun p hp => hpending p (List.mem_cons_of_mem _ hp)) hrun
      refine ⟨hkept, hjoins1.trans hjoins, fun herror p hp => ?_⟩
      rcases List.mem_cons.1 hp with rfl | hp
      · obtain ⟨q, hq⟩ := hjoined1 rfl
        exact hjoins.parent hq
      · exact hjoined herror p hp
    · rename_i hne
      cases hrun
      exact ⟨hkept1, hjoins1, fun herror => absurd (by rw [herror]) (hne w')⟩

/-- Making and joining the blocks of a record: if all went well, only the root of the record stands
alone. -/
theorem Kept.assemble (h : Kept Q tracked w0.Absent w0 w0.Absent w0)
    (hrun : w0.assemble record = .ok (error, created, w')) :
    Kept Q tracked w0.Absent w0 w0.Absent w' ∧ (∀ b ∈ created, w0.Absent b) ∧
      (∀ {b block}, w'.blocks[b]? = some block → w0.Absent b → b ∈ created) ∧
      (error = none → w0.Absent record.block.id ∧ ∀ r ∈ w'.top, w0.Absent r →
        r = record.block.id) := by
  simp only [Workspace.assemble, bind_eq_ok] at hrun
  obtain ⟨⟨refused, s⟩, hs, hrun⟩ := hrun
  obtain ⟨hbuilding, hawaited⟩ := (Building.builds hQ record.block.id).buildTree
    ⟨.start h, by simp [Awaited]⟩ ⟨by simp, fun _ => rfl⟩ hs
  split at hrun
  · cases hrun
    refine ⟨hbuilding.kept, hbuilding.created, hbuilding.made, fun hsome => ?_⟩
    cases hsome
  · rename_i hrefused
    obtain ⟨⟨refused', w1⟩, h1, hrun⟩ := bind_eq_ok.1 hrun
    cases hrun
    obtain ⟨hkept, hjoins, hjoined⟩ := hbuilding.kept.attachAll hQ hbuilding.seated h1
    have hmade : ∀ {b block}, w1.blocks[b]? = some block → w0.Absent b → b ∈ s.created := by
      intro b block hblock hb
      obtain ⟨old, hold, -⟩ := exists_of_map_eq (hjoins.innards b).symm hblock
      exact hbuilding.made hold hb
    obtain ⟨⟨-, hawaited⟩, hroot⟩ := hawaited hrefused
    refine ⟨hkept, hbuilding.created, hmade, fun herror => ⟨hroot, fun r hr habsent => ?_⟩⟩
    obtain ⟨block, hblock⟩ := hkept.inOrder.live_of_top hr
    rcases hawaited r (hmade hblock habsent) with heq | ⟨c, hc⟩
    · exact heq
    · obtain ⟨q, hq⟩ := hjoined herror _ hc
      exact absurd hq (not_parentOf_of_mem_top hkept.inOrder hr q)

/-! ## Records -/

/-- Blocks that a refused record left behind are disposed of. -/
theorem Kept.discard :
    ∀ {w w' : Workspace}, Kept Q tracked N w0 stale w → (∀ b ∈ created, N b) →
      w.discard created = .ok w' → Kept Q tracked N w0 stale w' ∧
        ∀ x : BlockId, w.blocks[x]? = none ∨ x ∈ created → w'.blocks[x]? = none := by
  induction created with
  | nil =>
    intro w w' h _ hrun
    cases hrun
    exact ⟨h, by simp⟩
  | cons b rest ih =>
    intro w w' h hN hrun
    rw [Workspace.discard, List.foldlM_cons, bind_eq_ok] at hrun
    obtain ⟨w1, h1, hrun⟩ := hrun
    have hrest : ∀ x ∈ rest, N x := fun x hx => hN x (List.mem_cons_of_mem _ hx)
    split at h1
    · obtain ⟨hkept1, hgone, htrimmed⟩ := h.dispose hQ (hN b List.mem_cons_self) h1
      obtain ⟨hkept, hnone⟩ := ih hkept1 hrest hrun
      refine ⟨hkept, fun x hx => hnone x ?_⟩
      rcases hx with hx | hx
      · left
        cases hblock : w1.blocks[x]? with
        | none => rfl
        | some block =>
          obtain ⟨old, hold, -⟩ := (htrimmed rfl).block hblock
          cases hx.symm.trans hold
      · rcases List.mem_cons.1 hx with rfl | hx
        · exact .inl hgone
        · exact .inr hx
    · rename_i hcontains
      cases h1
      obtain ⟨hkept, hnone⟩ := ih h hrest hrun
      refine ⟨hkept, fun x hx => hnone x ?_⟩
      rcases hx with hx | hx
      · exact .inl hx
      · rcases List.mem_cons.1 hx with rfl | hx
        · exact .inl (containsBlock_eq_false_iff.1 (by simpa using hcontains))
        · exact .inr hx

/-- The events are no part of a tree. -/
theorem Kept.withEvents (h : Kept Q tracked N w0 stale w) (events : Bus) :
    Kept Q tracked N w0 stale { w with events } :=
  h.aside (h.standing.keepsInnards hQ ⟨h.inOrder.formed, h.inOrder.checked, h.inOrder.sound⟩
    (.of_eq rfl rfl rfl rfl)) (.of_types (.of_eq rfl rfl rfl rfl rfl) rfl)
    (.of_eq rfl rfl rfl rfl rfl) ⟨rfl, id⟩ rfl

theorem Upheld.withEvents (h : Upheld Q tracked w) (events : Bus) :
    Upheld Q tracked { w with events } :=
  (h.kept.withEvents hQ events).upheld fun _ _ => id

end

/-- A refused record: what was there is as it was, and nothing else is there. -/
structure Refused (Q : Block → Prop) (tracked : Prop) (w w' : Workspace) : Prop where
  kept : Kept Q tracked w.Absent w w.Absent w'
  gone : ∀ {b : BlockId}, w.Absent b → w'.Absent b
  depth : w'.events.depth = w.events.depth

theorem depth_endBatch {token : BatchToken} (h : w.endBatch token = .ok w') :
    w'.events.depth = token.depth - 1 ∧ ∃ events, w' = { w with events } := by
  simp only [Workspace.endBatch, bind_eq_ok] at h
  obtain ⟨events, hevents, h⟩ := h
  cases h
  refine ⟨?_, events, rfl⟩
  have hdeliver : ∀ (pending : List Event) (bus : Bus), (pending.foldl Bus.deliver bus).depth =
      bus.depth := by
    intro pending
    induction pending with
    | nil => exact fun _ => rfl
    | cons event rest ih => exact fun bus => ih _
  unfold Bus.endBatch at hevents
  split at hevents
  · rename_i hdepth
    rw [hdepth]
    dsimp only at hevents
    split at hevents
    · cases hevents
      exact hdeliver _ _
    · cases hevents
      rfl
  · cases hevents

theorem Upheld.fromRecord (hQ : Steady Q) (h : Upheld Q tracked w)
    {answer : Except RecordError BlockId} (hrun : w.fromRecord record = .ok (answer, w')) :
    Upheld Q tracked w' ∧ ∀ error, answer = .error error → Refused Q tracked w w' := by
  simp only [Workspace.fromRecord, bind_eq_ok] at hrun
  obtain ⟨⟨refused, created, w1⟩, h1, hrun⟩ := hrun
  have hopened : Upheld Q tracked w.beginBatch.2 := h.withEvents hQ _
  have hstart : Kept Q tracked w.beginBatch.2.Absent w.beginBatch.2 w.beginBatch.2.Absent
    w.beginBatch.2 :=
    .start (hopened.relax (fun _ _ hr => hr) fun _ _ => False.elim)
      hopened.standing.inOrder.parted_absent fun _ => id
  obtain ⟨hkept1, hcreated, hmade, halone⟩ := hstart.assemble hQ h1
  split at hrun
  · rename_i heq
    cases heq
    simp only [bind_eq_ok] at hrun
    obtain ⟨w2, h2, w3, h3, hrun⟩ := hrun
    cases hrun
    obtain ⟨-, events, rfl⟩ := depth_endBatch h2
    have hkept2 := hkept1.withEvents hQ events
    refine ⟨(hkept2.refresh ?_ h3).upheld fun r hr hstale => ?_, fun error herror => ?_⟩
    · simpa using fun _ _ => (halone rfl).1
    · have hroot := (halone rfl).2 r ((keeps_refresh h3).top_eq ▸ hr) hstale.1
      exact hstale.2 _ List.mem_cons_self (hroot ▸ .refl)
    · cases herror
  · rename_i heq
    cases heq
    simp only [bind_eq_ok] at hrun
    obtain ⟨w2, h2, w3, h3, hrun⟩ := hrun
    cases hrun
    obtain ⟨hkept2, hgone⟩ := hkept1.discard hQ hcreated h2
    obtain ⟨hdepth, events, rfl⟩ := depth_endBatch h3
    have hkept3 := hkept2.withEvents hQ events
    have hnone : ∀ {b : BlockId}, w.Absent b → w2.blocks[b]? = none := by
      intro b hb
      cases hblock : w1.blocks[b]? with
      | none => exact hgone b (.inl hblock)
      | some block => exact hgone b (.inr (hmade hblock hb))
    have hbegin : AgreeOff (.kept w.isTyped) w.Absent w w.beginBatch.2 := .of_eq rfl rfl rfl rfl rfl
    refine ⟨hkept3.upheld fun r hr hstale => ?_,
      fun _ _ =>
      ⟨⟨hkept3.tended, hkept3.options, hkept3.old, fun ht => hbegin.trans (hkept3.agree ht),
        hkept3.parted, hkept3.inside, hkept3.untyped⟩, hnone, hdepth⟩⟩
    obtain ⟨block, hblock⟩ := hkept3.inOrder.live_of_top hr
    cases (hnone hstale).symm.trans hblock

end BlockGraph.Workspace
