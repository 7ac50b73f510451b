import BlockGraph.Proofs.Totality.Sturdy
import BlockGraph.Proofs.Workspace.Options

/-!
# Descriptors are applied

Applying a descriptor appends what can be appended and reports the rest; then the tree of the block
is brought up to date.  Nothing in a descriptor stands in the way of the first part
(`exists_extendInputs`).  The second part gives a type to everything on a list that is named like an
item.  So it ends unless the descriptor gives a list such an input without a socket
(`Extended.equipped_iff`).

`ReachableBy.upheld_sturdy` is what a run keeps: wherever a descriptor could be applied, the block
is sturdy afterwards.  `applyDescriptor_returns_iff` puts the parts together.
-/

namespace BlockGraph

/-- An input that is named like an item of a list, but has no socket. -/
def InputDescriptor.IsBlankItem (d : InputDescriptor) : Prop :=
  d.inputKind? = some .dummy ∧ Kind.itemMark.isPrefixOf d.name = true

instance (d : InputDescriptor) : Decidable d.IsBlankItem := inferInstanceAs (Decidable (_ ∧ _))

namespace Workspace

variable {w w' : Workspace} {b : BlockId} {block block' : Block}
  {inputs made : List InputDescriptor} {tracked : Prop}

/-! ## Blocks that were extended -/

theorem Extended.kind (h : Extended b block made w w' block') : block'.kind = block.kind :=
  h.reshaped.kind

theorem Extended.distinct
    (h : Extended b block (InputDescriptor.accepted (block.inputs.map Input.name) inputs) w w'
      block') (hb : block.Distinct) : block'.Distinct := by
  obtain ⟨added, rfl, hadded⟩ := h.appended
  have hnames : added.map Input.name =
      (InputDescriptor.accepted (block.inputs.map Input.name) inputs).map InputDescriptor.name := by
    rw [← List.forall₂_eq_eq_eq, List.forall₂_map_left_iff, List.forall₂_map_right_iff]
    exact hadded.flip.imp fun _ _ hmade => hmade.name
  rw [Block.Distinct, List.map_append, hnames]
  exact InputDescriptor.nodup_accepted hb

/-- A sturdy block that is extended has what it needs, unless it is a list that gets an item without
a socket. -/
theorem Extended.equipped_iff (h : Extended b block made w w' block') (hb : block.Sturdy)
    (hb' : block'.Distinct) :
    block'.Equipped ↔ (block.kind = .listCreateWith → ∀ d ∈ made, ¬ d.IsBlankItem) := by
  obtain ⟨hinputs, hitems, houtput⟩ := hb.names.equipped_iff.1 hb.equipped
  rw [hb'.equipped_iff, h.kind]
  obtain ⟨added, rfl, hadded⟩ := h.appended
  constructor
  · rintro ⟨-, hitems', -⟩ hkind d hd ⟨hdummy, hmark⟩
    obtain ⟨input, hinput, hmade⟩ := (exists_mem_of_forall₂ hadded).1 d hd
    refine hitems' hkind input (List.mem_append_right _ hinput) (by rw [hmade.name, hmark]) ?_
    exact Option.some.inj (hmade.kind.symm.trans hdummy)
  · intro hblank
    refine ⟨fun p hp => ?_, fun hkind input hinput hmark => ?_, houtput⟩
    · obtain ⟨input, hinput, hfound⟩ := hinputs p hp
      exact ⟨input, List.mem_append_left _ hinput, hfound⟩
    · rcases List.mem_append.1 hinput with hold | hnew
      · exact hitems hkind input hold hmark
      · obtain ⟨d, hd, hmade⟩ := (exists_mem_of_forall₂ hadded).2 input hnew
        intro hdummy
        exact hblank hkind d hd ⟨hmade.kind.trans (congrArg some hdummy),
          by rw [← hmade.name, hmark]⟩

/-- A block whose tree could be brought up to date had what it needed. -/
theorem InOrder.equipped_of_refresh_self (hw : w.InOrder) (htyped : w.isTyped = true)
    (hblock : w.blocks[b]? = some block) (h : w.refresh [b] = .ok w') : block.Equipped := by
  obtain ⟨r, -, hr, hbelow⟩ := hw.exists_root hblock
  exact hw.equipped_of_refresh htyped h List.mem_cons_self hr hbelow hbelow hblock

/-! ## Runs -/

/-- Along a run of extensions every block of a typed workspace is sturdy. -/
theorem ReachableBy.upheld_sturdy (hw : w.ReachableBy Call.IsExtension) :
    w.isTyped = true → Upheld Block.Sturdy tracked w := by
  induction hw with
  | new options => exact fun _ => .new options
  | call call _ hcall hrun ih =>
    intro htyped
    rw [isTyped_run hrun] at htyped
    have hupheld := ih htyped
    rcases hcall with hcall | ⟨b, d, rfl⟩
    · exact hupheld.run Block.steady_sturdy hcall hrun
    · obtain ⟨errors, hrun⟩ := exists_answer hrun
      refine (hupheld.kept.applyDescriptor trivial hrun fun hextended hrefresh => ?_).upheld
        fun _ _ => id
      have hreshaped := hextended.reshaped
      refine ⟨hextended.distinct (hupheld.standing.block hreshaped.old).names, ?_⟩
      exact hreshaped.inOrder.equipped_of_refresh_self (hreshaped.confined.isTyped_eq.trans htyped)
        hreshaped.new hrefresh

/-- The tree of a block that was extended can be brought up to date if the block has what it
needs. -/
theorem Upheld.exists_refresh_extended (h : Upheld Block.Sturdy tracked w)
    (hextended : Extended b block made w w' block') (hb' : block'.Sturdy) : ∃ w'', w'.refresh
    [b] = .ok w'' := by
  obtain ⟨r, hstart⟩ := Underway.start h.kept trivial hextended.reshaped.old
  exact (hstart.reshape trivial hextended.reshaped hb').kept.tended.exists_refresh
    Block.Sturdy.equipped [b] fun _ _ hfalse => hfalse.elim

/-- A descriptor is applied to a block, unless it gives a list in a typed workspace an item without
a socket.  The block then has its old inputs and behind them, in order, one for each described input
that is accepted; everything else is reported, and no other block changes. -/
theorem applyDescriptor_returns_iff (hw : w.ReachableBy Call.IsExtension)
    (hblock : w.blocks[b]? = some block) (d : Descriptor) :
    ((∃ errors w', w.applyDescriptor b d = .ok (errors, w')) ↔
      (w.isTyped = true → block.kind = .listCreateWith →
        ∀ e ∈ InputDescriptor.accepted (block.inputs.map Input.name) d.inputs, ¬ e.IsBlankItem)) ∧
    ∀ errors w', w.applyDescriptor b d = .ok (errors, w') →
      errors = InputDescriptor.skipped (block.inputs.map Input.name) d.inputs ∧
      (∃ added, w'.blocks[b]? = some { block with inputs := block.inputs ++ added } ∧
        List.Forall₂ (InputDescriptor.Made w' b)
          (InputDescriptor.accepted (block.inputs.map Input.name) d.inputs) added) ∧
      ∀ x, x ≠ b → w'.blocks[x]? = w.blocks[x]? := by
  have hall : Upheld (fun _ => True) False w := hw.upheld_extending
  have horder := hall.standing.inOrder
  obtain ⟨w1, block', hextend, hextended⟩ := exists_extendInputs d.inputs horder hblock
  have hreshaped := hextended.reshaped
  refine ⟨⟨?_, fun hblank => ?_⟩, fun errors w' hrun => ?_⟩
  · rintro ⟨errors, w', hrun⟩ htyped
    have hupheld : Upheld Block.Sturdy False w := hw.upheld_sturdy htyped
    obtain ⟨w2, block2, -, hextended2, hrefresh⟩ := horder.applyDescriptor_cases hblock hrun
    have hb := hupheld.standing.block hblock
    refine (hextended2.equipped_iff hb (hextended2.distinct hb.names)).1 ?_
    exact hextended2.reshaped.inOrder.equipped_of_refresh_self
      (hextended2.reshaped.confined.isTyped_eq.trans htyped) hextended2.reshaped.new hrefresh
  · obtain ⟨w', hrefresh⟩ : ∃ w', w1.refresh [b] = .ok w' := by
      cases htyped : w.isTyped with
      | true =>
        have hupheld : Upheld Block.Sturdy False w := hw.upheld_sturdy htyped
        have hb := hupheld.standing.block hblock
        have hnames := hextended.distinct hb.names
        exact hupheld.exists_refresh_extended hextended
          ⟨hnames, (hextended.equipped_iff hb hnames).2 (hblank htyped)⟩
      | false =>
        refine ⟨w1, ?_⟩
        simp [refresh, hreshaped.confined.isTyped_eq, htyped]
    refine ⟨InputDescriptor.skipped (block.inputs.map Input.name) d.inputs, w', ?_⟩
    simp only [Workspace.applyDescriptor, hextend, hrefresh, ok_bind, pure_eq_ok]
  · obtain ⟨w2, block2, herrors, hextended2, hrefresh⟩ := horder.applyDescriptor_cases hblock hrun
    obtain ⟨-, hblocks⟩ := rest_refresh hrefresh
    obtain ⟨added, rfl, hadded⟩ := hextended2.appended
    refine ⟨herrors, ⟨added, by rw [hblocks, hextended2.reshaped.new], ?_⟩, fun x hx => ?_⟩
    · exact hadded.imp fun _ _ => (KeepsJoints.of_retouches (retouches_refresh hrefresh)).made
    · rw [hblocks, hextended2.reshaped.other hx]

/-- A list that was given a further item and a note, and whose operation was taken out again. -/
def notedList : Except Fault Workspace :=
  [Call.newBlock .listCreateWith, .newBlock .intArithmetic, .connect ⟨1⟩ ⟨3⟩,
    .applyDescriptor ⟨1⟩ ⟨[⟨"input_value", "ADD7", none, []⟩, ⟨"input_dummy", "NOTE", none, []⟩]⟩,
    .unplug ⟨2⟩ false].foldlM Call.run (Workspace.new {})

/-- A new item, two names that are in use, a kind that nobody knows, and a note with a field that is
wrong. -/
def mixedInputs : Descriptor :=
  ⟨[⟨"input_value", "ADD5", some ["Number"], []⟩, ⟨"input_value", "ADD5", none, []⟩,
    ⟨"input_statement", "NOTE", none, []⟩, ⟨"input_button", "GO", none, []⟩,
    ⟨"input_dummy", "", none,
      [⟨"field_label", "TEXT", some (.str "so")⟩, ⟨"field_number", "N", some .null⟩]⟩]⟩

theorem applyDescriptor_returns_iff_notedList : ∃ w errors w', notedList = .ok w ∧
    w.isTyped = true ∧ w.applyDescriptor ⟨1⟩ mixedInputs = .ok (errors, w') ∧
    errors.map DescriptorError.name = ["DuplicateInput", "DuplicateInput", "UnknownInputKind",
      "BadFieldValue"] ∧
    (w'.blocks[(⟨1⟩ : BlockId)]?.map fun block => block.inputs.map Input.name) =
      some ["HEAD", "ADD0", "ADD1", "ADD7", "NOTE", "ADD5", ""] := by
  obtain ⟨w, hrun, htyped, hnames⟩ : ∃ w, notedList = .ok w ∧ w.isTyped = true ∧
      (w.blocks[(⟨1⟩ : BlockId)]?.map fun block => block.inputs.map Input.name) =
        some ["HEAD", "ADD0", "ADD1", "ADD7", "NOTE"] := exists_ok_of_any (by decide +kernel)
  have hw : w.ReachableBy Call.IsExtension := (ReachableBy.new (P := Call.IsExtension) {}).foldlM
    (by simp [Call.IsExtension, Call.IsEdit]) hrun
  obtain ⟨block, hblock, hinputs⟩ := Option.map_eq_some_iff.1 hnames
  obtain ⟨hiff, hresult⟩ := applyDescriptor_returns_iff hw hblock mixedInputs
  rw [hinputs] at hiff hresult
  obtain ⟨errors, w', hrun'⟩ := hiff.2 fun _ _ => by decide +kernel
  obtain ⟨herrors, ⟨added, hblock', hadded⟩, -⟩ := hresult errors w' hrun'
  refine ⟨w, errors, w', hrun, htyped, hrun', ?_, ?_⟩
  · rw [herrors]
    decide +kernel
  · have hadd : added.map Input.name = ["ADD5", ""] := by
      have hmap := map_eq_map_of_forall₂ (f := InputDescriptor.name) (g := Input.name)
        (R := fun _ _ => True) (hadded.imp fun _ _ hmade => ⟨hmade.name.symm, trivial⟩)
      rw [← hmap]
      decide +kernel
    rw [hblock', Option.map_some, List.map_append, hinputs, hadd]
    rfl

end Workspace

end BlockGraph
