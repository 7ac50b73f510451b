import BlockGraph.Proofs.Upkeep.Runs

/-!
# Types are current along every run

After any extensions the types of each tree are what a new inference of it would find, whatever came
before and whenever the table was rebuilt.

* `Upheld.exists_rebuildTypes`: a rebuild of the table ends, since every tree can be inferred anew.
* `types_current`: inferring a tree, rebuilding the table, or a further call that leaves a tree
  alone changes no type and no error in it, up to the numbers of type variables.
-/

namespace BlockGraph.Workspace

variable {w w' y : Workspace} {Q : Block → Prop} {r : BlockId}

/-! ## Rebuilding the table -/

/-- The graph of a tree is the same, and the same of its connections have types. -/
def SamePlan (w w' : Workspace) (r : BlockId) : Prop :=
  Same .graph w w' r ∧ ∀ c, w.OfTree r c → (w.slotType c).isSome = (w'.slotType c).isSome

theorem Same.samePlan (h : Same .shape w w' r) : SamePlan w w' r := by
  refine ⟨h.coarsen View.shape_graph, ?_⟩
  rintro c ⟨connection, hc, hbelow⟩
  obtain ⟨new, hnew, hview⟩ := h.exists_connection hc hbelow
  have htype := congrArg (fun c : Connection => c.type.isSome) hview
  simp only [View.shape, Option.isSome_map] at htype
  simp [slotType, hc, hnew, htype]

theorem SamePlan.trans_all (h : SamePlan w y r) (hsame : Same .all y w' r) (hw : w.InOrder)
    (ho : w.Owned) (hy : y.InOrder) (hoy : y.Owned) : SamePlan w w' r := by
  have htwins : Twins r w y := ⟨hw, hy, ho, hoy, h.1⟩
  refine ⟨h.1.trans (hsame.coarsen (View.coarser_all _)), fun c hc => ?_⟩
  rw [h.2 c hc,
    (hsame.coarsen (View.coarser_all .sense)).slotType_eq (htwins.holderIn (a := .inl c) hc)]

/-- Trees that were up to date can be inferred one after the other, in any table. -/
theorem exists_reinferTrees (h : Upheld Q True w) (htyped : w.isTyped = true) {l : List BlockId} :
    ∀ {y : Workspace}, y.InOrder → y.Owned → y.isTyped = true → l.Nodup → (∀ r ∈ l, r ∈ w.top) →
      y.top = w.top → (∀ r ∈ w.top, y.Local r) → (∀ r ∈ l, SamePlan w y r) →
      ∃ y', l.foldlM reinferTree y = .ok y' := by
  have hw := h.standing.inOrder
  have ho := h.standing.owned
  obtain ⟨owner, howner⟩ := h.current htyped
  induction l with
  | nil => exact fun {y} _ _ _ _ _ _ _ _ => ⟨y, rfl⟩
  | cons r l ih =>
    intro y hy hoy hty hnodup hsub htop hlocal hplan
    obtain ⟨hnot, hnodup⟩ := List.nodup_cons.1 hnodup
    have hr : r ∈ w.top := hsub r List.mem_cons_self
    obtain ⟨hsame, hslots⟩ := hplan r List.mem_cons_self
    obtain ⟨ty, y1, -, -, -, hreinfer, -⟩ :=
      ((howner r hr id).2 trivial).replay hw ho hy hoy hsame hslots
    have hstep : y.reinferTree r = .ok y1 := by simp [reinferTree, hreinfer]
    have hry : r ∈ y.top := htop ▸ hr
    have hsettled := settled_of_reinferTree hy hoy hty hry (hlocal r hr) hstep
    have hretypes := hsettled.retypesIn.retypes
    have htop1 : y1.top = w.top := hretypes.keeps.top_eq.trans htop
    obtain ⟨y', hy'⟩ :=
      ih hsettled.inOrder' hsettled.owned' (by rw [isTyped, hretypes.rest]; exact hty) hnodup
        (fun x hx => hsub x (List.mem_cons_of_mem r hx)) htop1
      (fun x hx => Local.same (hlocal x hx) (hretypes.sameGraph.same (by rw [hretypes.rest]) x) hoy
        hsettled.owned')
      (fun x hx => (hplan x (List.mem_cons_of_mem r hx)).trans_all
        (hsettled.same_of_ne hry (htop ▸ hsub x (List.mem_cons_of_mem r hx)) fun heq => hnot
          (heq ▸ hx))
        hw ho hy hoy)
    exact ⟨y', by simp [hstep, hy']⟩

/-- A rebuild of the table ends. -/
theorem Upheld.exists_rebuildTypes (h : Upheld Q True w) (htyped : w.isTyped = true) :
    ∃ w', w.rebuildTypes = .ok w' := by
  have hw := h.standing.inOrder
  have ho := h.standing.owned
  have hinnards : KeepsInnards w { w with types := .empty } := .of_eq rfl rfl rfl rfl
  have hsame : ∀ r, Same .all w { w with types := .empty } r := .of_eq rfl rfl rfl rfl
  obtain ⟨y, hy⟩ := exists_reinferTrees h htyped (y := { w with types := .empty })
    (hw.keeps ⟨rfl, fun _ => Table.sound_empty⟩) (ho.keeps hinnards) htyped hw.structured.top.1
    (fun _ hr => hr) rfl
    (fun r hr => Local.same (h.here htyped r hr id) ((hsame r).coarsen (View.coarser_all _)) ho
      (ho.keeps hinnards))
    (fun r _ => ((hsame r).coarsen (View.coarser_all _)).samePlan)
  exact ⟨{ y with baseline := y.types.size }, by simp [rebuildTypes, hy]⟩

/-! ## The same tree before and after -/

theorem Same.mem_top {view : View} (h : Same view w w' r) (hw : w.InOrder) (hw' : w'.InOrder)
    (hr : r ∈ w.top) : r ∈ w'.top := by
  obtain ⟨block, hblock, hparent⟩ := (hw.structured.top.2 r).1 hr
  obtain ⟨new, hnew, hview⟩ := h.exists_block .refl hblock
  exact (hw'.structured.top.2 r).2
    ⟨new, hnew, by rw [← view.parent new, hview, view.parent, hparent]⟩

/-- Trees that are the same in two workspaces, both of them upheld, have the same types. -/
theorem Upheld.exists_agreeUpTo {Q' : Block → Prop} (h : Upheld Q True w) (h' : Upheld Q' True w')
    (htyped : w.isTyped = true) (htyped' : w'.isTyped = true) :
    ∃ π : Equiv.Perm Nat, ∀ r ∈ w.top, SamePlan w w' r → AgreeUpTo π r w w' := by
  obtain ⟨owner, howner⟩ := h.current htyped
  obtain ⟨owner', howner'⟩ := h'.current htyped'
  have hw := h.standing.inOrder
  have hw' := h'.standing.inOrder
  obtain ⟨π, hπ⟩ := Workspace.exists_agreeUpTo (R := fun r => r ∈ w.top ∧ SamePlan w w' r) hw
    h.standing.owned hw' h'.standing.owned fun r hr =>
      ⟨(howner r hr.1 id).2 trivial, (howner' r (hr.2.1.mem_top hw hw' hr.1) id).2 trivial, hr.2⟩
  exact ⟨π, fun r hr hplan => hπ r ⟨hr, hplan⟩⟩

/-- Inferring a tree again ends, and finds what was there. -/
theorem Upheld.exists_reinfer (h : Upheld Q True w) (htyped : w.isTyped = true) (hr : r ∈ w.top) :
    ∃ (ty : Option Ty) (w' : Workspace) (π : Equiv.Perm Nat),
      w.reinfer r = .ok (ty, w') ∧ AgreeUpTo π r w w' := by
  have hw := h.standing.inOrder
  have ho := h.standing.owned
  obtain ⟨owner, howner⟩ := h.current htyped
  have hcurrent := (howner r hr id).2 trivial
  obtain ⟨ty, w', t0, f, S, hreinfer, -, hmirror⟩ :=
    hcurrent.replay hw ho hw ho (.refl _ w r) fun _ _ => rfl
  have hsettled := settled_of_reinferTree hw ho htyped hr (h.here htyped r hr id)
    (show w.reinferTree r = .ok w' by simp [reinferTree, hreinfer])
  have hplan : ∀ x, x = r → (w.UpToDate x fun _ => r = x) ∧ (w'.UpToDate x fun _ => r = x) ∧
      SamePlan w w' x := by
    rintro x rfl
    refine ⟨hcurrent.mono fun _ _ _ => rfl, hsettled.upToDate fun _ _ _ => rfl, hmirror.twins.same,
      fun c hc => ?_⟩
    exact (hmirror.isSome_slotType hc).symm
  obtain ⟨π, hπ⟩ := Workspace.exists_agreeUpTo hw ho hsettled.inOrder' hsettled.owned' hplan
  exact ⟨ty, w', π, hreinfer, hπ r rfl⟩

/-- A rebuild of the table changes no tree. -/
theorem Upheld.agreeUpTo_rebuildTypes (h : Upheld Q True w) (htyped : w.isTyped = true) :
    ∃ (w' : Workspace) (π : Equiv.Perm Nat), w.rebuildTypes = .ok w' ∧
    ∀ r ∈ w.top, AgreeUpTo π r w w' := by
  obtain ⟨w', hrun⟩ := h.exists_rebuildTypes htyped
  have hlocal : ∀ r ∈ w.top, w.Local r := fun r hr => h.here htyped r hr id
  have hretypes := retypes_rebuildTypes hrun
  have hoptions : w'.options = w.options := by rw [hretypes.rest]
  obtain ⟨π, hπ⟩ := h.exists_agreeUpTo (h.rebuildTypes htyped hlocal hrun) htyped
    ((isTyped_congr hoptions).trans htyped)
  obtain ⟨owner, howner⟩ := h.current htyped
  refine ⟨w', π, hrun, fun r hr => hπ r hr ⟨hretypes.sameGraph.same hoptions r, fun c hc => ?_⟩⟩
  exact (isSome_slotType_rebuildTypes h.standing.inOrder h.standing.owned htyped hlocal hr
    ((howner r hr id).2 trivial) hc hrun).symm

/-! ## Along every run -/

/-- **Types are always current.**  In a typed workspace that extensions have led to, each tree can
be inferred again, and that changes neither the types of its connections and binders nor its errors,
up to one renaming of type variables.  A rebuild of the table changes no tree either, nor does any
further extension change a tree whose blocks, connections and variables it leaves as they are. -/
theorem types_current (hw : w.ReachableBy Call.IsExtension) (htyped : w.isTyped = true) :
    (∀ r ∈ w.top, ∃ (ty : Option Ty) (w' : Workspace) (π : Equiv.Perm Nat),
      w.reinfer r = .ok (ty, w') ∧ AgreeUpTo π r w w') ∧
    (∃ (w' : Workspace) (π : Equiv.Perm Nat), w.rebuildTypes = .ok w' ∧
      ∀ r ∈ w.top, AgreeUpTo π r w w') ∧
    ∀ call w', Call.IsExtension call → call.run w = .ok w' →
      ∃ π : Equiv.Perm Nat, ∀ r ∈ w.top, Same .shape w w' r → AgreeUpTo π r w w' := by
  have h : Upheld (fun _ => True) True w := hw.upheld_extending
  refine ⟨fun r hr => h.exists_reinfer htyped hr, h.agreeUpTo_rebuildTypes htyped, ?_⟩
  intro call w' hcall hrun
  have h' : Upheld (fun _ => True) True w' := (hw.call call hcall hrun).upheld_extending
  by_cases htyped' : w'.isTyped = true
  · obtain ⟨π, hπ⟩ := h.exists_agreeUpTo h' htyped htyped'
    exact ⟨π, fun r hr hsame => hπ r hr hsame.samePlan⟩
  · refine ⟨.refl Nat, fun r _ hsame => absurd ?_ htyped'⟩
    rw [isTyped, hsame.options]
    exact htyped

/-- A function that applies its argument to itself, so that it has no type, beside a list with a
number in it. -/
def untypable : Except Fault Workspace :=
  [Call.newBlock .lambda, .newBlock .lambdaApp, .newBlock .variablesGet, .newBlock .variablesGet,
    .connect ⟨1⟩ ⟨2⟩, .connect ⟨3⟩ ⟨5⟩, .connect ⟨4⟩ ⟨6⟩, .newBlock .listCreateWith,
    .newBlock .intLiteral, .connect ⟨8⟩ ⟨10⟩].foldlM Call.run (Workspace.new {})

theorem types_current_untypable :
    ∃ w, untypable = .ok w ∧ w.isTyped = true ∧ w.top = [⟨1⟩, ⟨5⟩] ∧ w.typeErrors ≠ [] ∧
      (∀ r ∈ w.top, ∃ (ty : Option Ty) (w' : Workspace) (π : Equiv.Perm Nat),
        w.reinfer r = .ok (ty, w') ∧ AgreeUpTo π r w w') ∧
      (∃ (w' : Workspace) (π : Equiv.Perm Nat), w.rebuildTypes = .ok w' ∧
        ∀ r ∈ w.top, AgreeUpTo π r w w') ∧
      ∀ call w', Call.IsExtension call → call.run w = .ok w' →
        ∃ π : Equiv.Perm Nat, ∀ r ∈ w.top, Same .shape w w' r → AgreeUpTo π r w w' := by
  obtain ⟨w, hrun, htyped, htop, herrors⟩ : ∃ w, untypable = .ok w ∧ w.isTyped = true ∧
      w.top = [⟨1⟩, ⟨5⟩] ∧ w.typeErrors ≠ [] := exists_ok_of_any (by decide +kernel)
  have hw := (ReachableBy.new {}).foldlM (P := Call.IsExtension)
    (by simp [Call.IsExtension, Call.IsEdit]) hrun
  exact ⟨w, hrun, htyped, htop, herrors, types_current hw htyped⟩

end BlockGraph.Workspace
