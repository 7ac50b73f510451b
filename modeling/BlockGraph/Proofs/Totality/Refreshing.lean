import BlockGraph.Proofs.Totality.Equipment
import BlockGraph.Proofs.Upkeep.Adequacy

/-!
# Refreshing ends

`Workspace.refresh` looks up roots, binds the uses of whole trees, infers them and may rebuild the
type table.  None of it can end in a fault, if every block is equipped:

* `Standing.exists_refreshTree`: a tree can be bound and inferred, whatever its uses were bound to
  before;
* `Standing.exists_compactTypes`: the table can be rebuilt, if no use is bound to another tree;
* `Tended.exists_refresh`: so the trees of some blocks can be brought up to date, if these are all
  that are loose.
-/

namespace BlockGraph.Workspace

variable {w w' : Workspace} {Q : Block → Prop} {tracked : Prop} {loose stale A : BlockId → Prop}
  {r : BlockId}

theorem InOrder.exists_rootsOf (hw : w.InOrder) (bs : List BlockId) :
    ∀ roots, ∃ out, w.rootsOf bs roots = .ok out := by
  induction bs with
  | nil => exact fun roots => ⟨roots, rfl⟩
  | cons b bs ih =>
    intro roots
    unfold rootsOf
    split
    · exact ih roots
    · next h =>
      obtain ⟨block, hblock⟩ := containsBlock_iff.1 (by simpa using h)
      obtain ⟨root, hroot, -⟩ := hw.exists_root hblock
      rw [hroot, ok_bind]
      exact ih _

/-- A typed workspace with some blocks on top, in the course of passes over its trees. -/
structure Passing (Q : Block → Prop) (top : List BlockId) (w : Workspace) : Prop where
  standing : Standing Q w
  typed : w.isTyped = true
  top_eq : w.top = top

theorem Passing.keeps {top : List BlockId} (h : Passing Q top w) (hs : Standing Q w')
    (hkeeps : Keeps w w') (hoptions : w'.options = w.options) : Passing Q top w' where
  standing := hs
  typed := (isTyped_congr hoptions).trans h.typed
  top_eq := hkeeps.top_eq.trans h.top_eq

section Equipped

variable (hequipped : ∀ {block : Block}, Q block → block.Equipped)
include hequipped

namespace Standing

variable (hs : Standing Q w) (htyped : w.isTyped = true)
include hs htyped

theorem exists_reinferTree (hr : r ∈ w.top) (hlocal : w.Local r) :
    ∃ w', w.reinferTree r = .ok w' := by
  obtain ⟨root, hroot⟩ := hs.inOrder.live_of_top hr
  exact exists_reinferTree_of_equipped hs.inOrder hs.owned htyped hroot hlocal fun _ hblock =>
    hequipped (hs.block hblock)

/-- Binding makes a tree local, so it can be inferred afterwards. -/
theorem exists_refreshTree (hr : r ∈ w.top) : ∃ w', w.refreshTree r = .ok w' := by
  obtain ⟨root, hroot⟩ := hs.inOrder.live_of_top hr
  have hat : ∀ c : ConnectionId, none = some c →
    ∃ connection, w.connections[c]? = some connection := by simp
  obtain ⟨all, w1, hresolve, -⟩ := exists_resolveReferences hs.inOrder hs.owned.toHoused hroot hat
  obtain ⟨hrebinds, hscoped⟩ := resolveReferences_spec hs.inOrder hs.owned hr hresolve
  have hs1 := hs.rebinds hrebinds htyped
  have hr1 : r ∈ w1.top := by
    rw [hrebinds.rest]
    exact hr
  have htyped1 : w1.isTyped = true := by
    rw [hrebinds.rest]
    exact htyped
  obtain ⟨w', hrun⟩ := hs1.exists_reinferTree hequipped htyped1 hr1
    (hscoped.isLocal hs1.owned (not_parentOf_of_mem_top hs1.inOrder hr1))
  exact ⟨w', by simp only [refreshTree, hresolve, ok_bind, hrun]⟩

theorem exists_refreshTrees {roots : List BlockId} (hroots : ∀ r ∈ roots, r ∈ w.top) :
    ∃ w', roots.foldlM refreshTree w = .ok w' := by
  have hstep : ∀ r ∈ roots, ∀ v, Passing Q w.top v →
      ∃ v', v.refreshTree r = .ok v' ∧ Passing Q w.top v' := fun r hr v hv => by
    have hrv : r ∈ v.top := hv.top_eq ▸ hroots r hr
    obtain ⟨v', hrun⟩ := hv.standing.exists_refreshTree hequipped hv.typed hrv
    have htended : Tended Q False (fun _ => True) (fun _ => True) v :=
      ⟨hv.standing, fun _ _ _ h => absurd trivial h,
        fun _ => ⟨fun _ => r, fun _ _ h => absurd trivial h⟩, fun _ _ _ h => absurd trivial h⟩
    obtain ⟨htended', hconfined⟩ := htended.refreshTree hv.typed hrv hrun
    exact ⟨v', hrun, hv.keeps htended'.standing (keeps_refreshTree hrun) hconfined.agree.options⟩
  obtain ⟨w', hw', -⟩ := exists_foldlM hstep ⟨hs, htyped, rfl⟩
  exact ⟨w', hw'⟩

/-- The table can be rebuilt: an inference of one tree binds nothing anew, so the others stay
local. -/
theorem exists_rebuildTypes (hlocal : ∀ r ∈ w.top, w.Local r) : ∃ w', w.rebuildTypes = .ok w' := by
  have hempty : KeepsInnards w { w with types := .empty } := .of_eq rfl rfl rfl rfl
  have hs0 : Standing Q { w with types := .empty } :=
    ⟨hs.inOrder.keeps ⟨rfl, fun _ => Table.sound_empty⟩, hs.owned.keeps hempty, hs.block⟩
  have hstep : ∀ r ∈ w.top, ∀ v, (Passing Q w.top v ∧ ∀ x ∈ w.top, v.Local x) →
      ∃ v', v.reinferTree r = .ok v' ∧ Passing Q w.top v' ∧ ∀ x ∈ w.top, v'.Local x := by
    rintro r hr v ⟨hv, hlocal⟩
    obtain ⟨v', hrun⟩ := hv.standing.exists_reinferTree hequipped hv.typed (hv.top_eq ▸ hr)
      (hlocal r hr)
    have hretypes := retypes_reinferTree hrun
    have hs' := hv.standing.retypes hretypes
    refine ⟨v', hrun, hv.keeps hs' hretypes.keeps (by rw [hretypes.rest]), fun x hx => ?_⟩
    exact Local.same (hlocal x hx) (hretypes.sameGraph.same (by rw [hretypes.rest]) x)
      hv.standing.owned hs'.owned
  have hsame : ∀ r, Same .graph w { w with types := .empty } r := .of_eq rfl rfl rfl rfl
  obtain ⟨w', hw', -⟩ := exists_foldlM hstep (b := { w with types := .empty }) ⟨⟨hs0, htyped, rfl⟩,
    fun r hr => Local.same (hlocal r hr) (hsame r) hs.owned hs0.owned⟩
  exact ⟨{ w' with baseline := w'.types.size }, by simp [rebuildTypes, hw']⟩

theorem exists_compactTypes (hlocal : ∀ r ∈ w.top, w.Local r) : ∃ w', w.compactTypes = .ok w' := by
  unfold compactTypes
  split
  · exact ⟨w, rfl⟩
  · exact hs.exists_rebuildTypes hequipped htyped hlocal

end Standing

/-- The trees of some blocks can be brought up to date, if every loose tree is among them. -/
theorem Tended.exists_refresh (h : Tended Q tracked loose stale w) (bs : List BlockId)
    (hloose : ∀ r ∈ w.top, loose r → ∃ b ∈ bs, w.Below r b) : ∃ w', w.refresh bs = .ok w' := by
  unfold Workspace.refresh
  cases htyped : w.isTyped with
  | false => exact ⟨w, rfl⟩
  | true =>
    have hw := h.standing.inOrder
    obtain ⟨roots, hroots⟩ := hw.exists_rootsOf bs []
    have hmem := (hw.rootsOf_spec hroots List.nodup_nil).2
    have htop : ∀ r ∈ roots, r ∈ w.top := fun r hr => by
      rcases (hmem r).1 hr with hnil | ⟨hr, -⟩
      · cases hnil
      · exact hr
    obtain ⟨w1, hw1⟩ := h.standing.exists_refreshTrees hequipped htyped htop
    obtain ⟨htended, hconfined⟩ := h.refreshTrees htyped htop hw1
    have htop1 : w1.top = w.top := (Keeps.of_foldlM (fun _ _ _ => keeps_refreshTree) hw1).top_eq
    have htyped1 : w1.isTyped = true := (isTyped_congr hconfined.agree.options).trans htyped
    obtain ⟨w2, hw2⟩ := htended.standing.exists_compactTypes hequipped htyped1 fun r hr =>
      htended.here htyped1 r hr fun hloose' => hloose'.2 ((hmem r).2 (.inr (by
        rw [htop1] at hr
        exact ⟨hr, hloose r hr hloose'.1⟩)))
    exact ⟨w2, by simp [hroots, hw1, hw2]⟩

/-- A step that stays in some blocks can be followed by a refresh of the trees that have such
blocks. -/
theorem Tended.exists_refresh_touch (h : Tended Q tracked loose stale w) (hs : Standing Q w')
    (hconfined : Confined .sense A w w') (bs : List BlockId)
    (hloose : ∀ r ∈ w'.top, loose r ∨ w'.Touched A r → ∃ b ∈ bs, w'.Below r b) :
    ∃ w'', w'.refresh bs = .ok w'' :=
  (h.touch hs hconfined).exists_refresh hequipped bs hloose

end Equipped

theorem Serviceable.equipped (hQ : Serviceable Q) {block : Block} (h : Q block) : block.Equipped :=
  (hQ.laid h).equipped

end BlockGraph.Workspace
