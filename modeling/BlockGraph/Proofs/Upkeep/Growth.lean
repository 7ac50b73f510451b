import Mathlib.Algebra.Order.BigOperators.Group.List
import Mathlib.Algebra.Order.Ring.Nat
import BlockGraph.Proofs.Inference.Equations
import BlockGraph.Proofs.Upkeep.Tended
import BlockGraph.Proofs.Workspace.Options

/-!
# How large the type table gets

To clear a block takes one type variable for each of its connections that has a type, and those of
its kind (`Workspace.demand`).  A rebuild clears every block once, so the table that it leaves is no
larger than what all blocks of the workspace need (`Workspace.need`); and a refresh that does not
rebuild has found the table no larger than twice what the last rebuild left, or twice the least size
at which tables are rebuilt.

A run is taken apart into strides and refreshes (`Workspace.Passage`).  After each refresh the table
is at most twice as large as the most that was ever needed, however long the run is:
`table_bounded`.
-/

namespace BlockGraph.Workspace

variable {w w' w'' : Workspace} {b root : BlockId} {c : ConnectionId} {roots : List BlockId}

/-! ## What blocks need -/

/-- How many type variables it takes to clear a block. -/
def demand (w : Workspace) (b : BlockId) : Nat :=
  match w.blocks[b]? with
  | some block =>
    (block.connections.filter fun c => (w.slotType c).isSome).length + block.kind.signature.fresh
  | none => 0

/-- How many type variables it takes to clear every block. -/
def need (w : Workspace) : Nat := (w.blockIds.map w.demand).sum

/-- A number of variables is taken from the table, and what has a type goes on to have one. -/
structure Takes (n : Nat) (w w' : Workspace) : Prop where
  size : w'.types.size = w.types.size + n
  typed : ∀ {c : ConnectionId}, (w.slotType c).isSome = true → (w'.slotType c).isSome = true
  blocks : w'.blocks = w.blocks
  settings : w'.settings = w.settings

namespace Takes

variable {m n : Nat}

theorem refl (w : Workspace) : Takes 0 w w := ⟨rfl, id, rfl, rfl⟩

theorem trans (h : Takes m w w') (h' : Takes n w' w'') : Takes (m + n) w w'' where
  size := by rw [h'.size, h.size, Nat.add_assoc]
  typed hc := h'.typed (h.typed hc)
  blocks := h'.blocks.trans h.blocks
  settings := h'.settings.trans h.settings

/-- A block needs no less later on. -/
theorem demand_le (h : Takes n w w') (b : BlockId) : w.demand b ≤ w'.demand b := by
  rw [demand, demand, h.blocks]
  cases w.blocks[b]? with
  | none => exact le_rfl
  | some block =>
    refine Nat.add_le_add_right ?_ _
    rw [← List.countP_eq_length_filter, ← List.countP_eq_length_filter]
    exact List.countP_mono_left fun c _ => h.typed

end Takes

/-! ## Clearing -/

theorem takes_assign {ty : Ty} {a : Holder} (h : w.assign ty a = .ok w') : Takes 0 w w' := by
  obtain ⟨htypes, -, htype⟩ := assign_lookups h
  refine ⟨congrArg Table.size htypes, fun {c} hc => ?_, (retypes_assign h).sameGraph.blocks, ?_⟩
  · have hslot : w'.slotType c = _ := htype (.inl c)
    rw [hslot]
    split
    · rfl
    · exact hc
  · cases a with
    | inl c => exact ((typesClosed_quiet w).slot (.refl w) h).settings
    | inr v => exact ((typesClosed_quiet w).bound (.refl w) h).settings

theorem typesClosed_takes (n : Nat) (w : Workspace) : TypesClosed (Takes n w) where
  slot hw h := hw.trans (takes_assign (a := .inl _) h)
  bound hw h := hw.trans (takes_assign (a := .inr _) h)

theorem takes_declareTypes {block : Block} (hblock : w.blocks[b]? = some block)
    (h : w.declareTypes b = .ok w') :
    Takes block.kind.signature.fresh w w' := by
  refine (typesClosed_takes _ w).declareTypes (fun block' hblock' => ?_) h
  cases hblock.symm.trans hblock'
  exact ⟨Table.size_freshMany _ _, id, rfl, rfl⟩

section

variable (ht : w.types.Sound)
include ht

/-- Clearing a connection takes a variable if it has a type. -/
theorem takes_clearConnections (cs : List ConnectionId) :
    Takes (cs.filter fun c => (w.slotType c).isSome).length w (cs.foldl clearConnection w) := by
  have hforgets := forgets_clearConnections cs ht
  refine ⟨hforgets.size, fun {c} hc => (hforgets.typed (.inl c)).trans hc,
    hforgets.retypes.sameGraph.blocks, ?_⟩
  rw [settings, hforgets.baseline, hforgets.retypes.rest]
  rfl

theorem takes_clearBlock (h : w.clearBlock b = .ok w') : Takes (w.demand b) w w' := by
  simp only [clearBlock, bind_eq_ok, getBlock_eq_ok] at h
  obtain ⟨block, hblock, h⟩ := h
  have hcleared := takes_clearConnections ht block.connections
  rw [demand, hblock]
  exact hcleared.trans (takes_declareTypes (by rw [hcleared.blocks, hblock]) h)

theorem takes_clearBlocks {order : List BlockId} (h : order.foldlM clearBlock w = .ok w') :
    ∃ n, Takes n w w' ∧ n ≤ (order.map w'.demand).sum := by
  induction order generalizing w with
  | nil =>
    cases h
    exact ⟨0, .refl _, le_rfl⟩
  | cons b order ih =>
    simp only [List.foldlM_cons, bind_eq_ok] at h
    obtain ⟨w1, h1, h⟩ := h
    have hfirst := takes_clearBlock ht h1
    obtain ⟨n, hrest, hn⟩ := ih ((retypes_clearBlock h1).sound ht) h
    refine ⟨_, hfirst.trans hrest, ?_⟩
    rw [List.map_cons, List.sum_cons]
    exact Nat.add_le_add ((hfirst.trans hrest).demand_le b) hn

/-! ## Inferring -/

theorem takes_infer {ty : Option Ty} (h : w.infer root = .ok (ty, w')) : Takes 0 w w' := by
  have hkept := keepsSlots_infer ht h
  refine ⟨hkept.size, fun {c} hc => by rwa [hkept.slot], hkept.retypes.sameGraph.blocks, ?_⟩
  rw [settings, hkept.baseline, hkept.retypes.rest]
  rfl

/-- Inferring a tree takes what its blocks need. -/
theorem takes_reinferTree (htyped : w.isTyped = true) (h : w.reinferTree root = .ok w') :
    ∃ n order, w.descendants root = .ok order ∧ Takes n w w' ∧ n ≤ (order.map w'.demand).sum := by
  simp only [reinferTree, reinfer, bind_eq_ok] at h
  obtain ⟨⟨ty, w2⟩, ⟨w1, h1, h2⟩, h⟩ := h
  cases h
  have ht1 := (retypes_clearTypes h1).sound ht
  simp only [clearTypes, htyped, Bool.not_true, Bool.false_eq_true, if_false, bind_eq_ok] at h1
  obtain ⟨order, horder, h1⟩ := h1
  obtain ⟨n, hcleared, hn⟩ := takes_clearBlocks ht h1
  have hinferred := takes_infer ht1 h2
  exact ⟨n, order, horder, hcleared.trans hinferred,
    hn.trans (List.sum_le_sum fun b _ => hinferred.demand_le b)⟩

end

/-- Inferring some trees takes what their blocks need. -/
theorem InOrder.takes_reinferTrees : ∀ {w : Workspace}, w.InOrder → w.isTyped = true →
      roots.Nodup → (∀ r ∈ roots, r ∈ w.top) → roots.foldlM reinferTree w = .ok w' →
      ∃ (n : Nat) (order : List BlockId), Takes n w w' ∧ order.Nodup ∧
        (∀ b ∈ order, ∃ r ∈ roots, w.Below r b) ∧ n ≤ (order.map w'.demand).sum := by
  induction roots with
  | nil =>
    intro w _ _ _ _ h
    cases h
    exact ⟨0, [], .refl _, List.nodup_nil, by simp, le_rfl⟩
  | cons root rest ih =>
    intro w hw htyped hnodup htop h
    obtain ⟨hnew, hnodup⟩ := List.nodup_cons.1 hnodup
    simp only [List.foldlM_cons, bind_eq_ok] at h
    obtain ⟨w1, h1, h⟩ := h
    have hretypes := retypes_reinferTree h1
    have hbelow : ∀ {r x}, w1.Below r x ↔ w.Below r x := hretypes.keeps.below_iff
    obtain ⟨block, hblock⟩ := hw.live_of_top (htop root List.mem_cons_self)
    obtain ⟨tree, htree, hdistinct, hmem⟩ := hw.exists_descendants hblock
    obtain ⟨m, tree', htree', hfirst, hm⟩ := takes_reinferTree hw.sound htyped h1
    cases htree.symm.trans htree'
    obtain ⟨n, order, hrest, horder, hothers, hn⟩ := ih (hw.keeps hretypes.keeps)
      (by rw [isTyped, hretypes.rest]; exact htyped) hnodup
      (fun r hr => by rw [hretypes.keeps.top_eq]; exact htop r (List.mem_cons_of_mem _ hr)) h
    refine ⟨m + n, tree ++ order, hfirst.trans hrest, ?_, fun b hb => ?_, ?_⟩
    · -- a block of two of the trees would stand under two blocks without a parent
      refine List.nodup_append.2 ⟨hdistinct, horder, fun x hx y hy hxy => ?_⟩
      obtain ⟨r, hr, hxr⟩ := hothers y hy
      refine hnew ?_
      rw [hw.root_unique (htop root List.mem_cons_self) (htop r (List.mem_cons_of_mem _ hr))
        ((hmem x).1 hx) (hxy ▸ hbelow.1 hxr)]
      exact hr
    · rcases List.mem_append.1 hb with hb | hb
      · exact ⟨root, List.mem_cons_self, (hmem b).1 hb⟩
      · obtain ⟨r, hr, hb⟩ := hothers b hb
        exact ⟨r, List.mem_cons_of_mem _ hr, hbelow.1 hb⟩
    · rw [List.map_append, List.sum_append]
      exact Nat.add_le_add (hm.trans (List.sum_le_sum fun b _ => hrest.demand_le b)) hn

/-! ## Refreshing -/

/-- A rebuilt table is no larger than what is needed. -/
theorem InOrder.size_rebuildTypes (hw : w.InOrder) (htyped : w.isTyped = true)
    (h : w.rebuildTypes = .ok w') :
    w'.types.size ≤ w'.need ∧ w'.baseline = w'.types.size := by
  have hw' : w'.InOrder := hw.keeps (retypes_rebuildTypes h).keeps
  simp only [rebuildTypes, bind_eq_ok] at h
  obtain ⟨w1, h1, h⟩ := h
  cases h
  have hempty : Retypes w { w with types := .empty } := .of_types fun _ => Table.sound_empty
  obtain ⟨n, order, htakes, hnodup, hmem, hn⟩ :=
    InOrder.takes_reinferTrees (hw.keeps hempty.keeps) htyped hw.structured.top.1
      (fun _ hr => hr) h1
  refine ⟨?_, rfl⟩
  have hlive : order ⊆ w1.blockIds := fun b hb => by
    obtain ⟨r, hr, hbelow⟩ := hmem b hb
    obtain ⟨top, htop⟩ := hw.live_of_top hr
    have hblock := (hempty.keeps.below_iff.1 hbelow).live htop
    exact mem_blockIds.2 (by rw [htakes.blocks]; exact hblock)
  obtain ⟨order', hperm, hsub⟩ := hnodup.subperm hlive
  calc w1.types.size = n := by rw [htakes.size]; exact Nat.zero_add n
    _ ≤ (order.map w1.demand).sum := hn
    _ = (order'.map w1.demand).sum := (hperm.map _).symm.sum_eq
    _ ≤ (w1.blockIds.map w1.demand).sum := (hsub.map _).sum_le_sum fun _ _ => Nat.zero_le _

theorem settings_refreshTrees (ht : w.types.Sound) (htyped : w.isTyped = true)
    (h : roots.foldlM refreshTree w = .ok w') : w'.settings = w.settings := by
  refine (foldlM_induction (P := fun x => x.settings = w.settings ∧ x.types.Sound) ?_ ⟨rfl, ht⟩ h).1
  rintro root - x x' ⟨hx, hsound⟩ hstep
  refine ⟨?_, (retouches_refreshTree hstep).sound hsound⟩
  simp only [refreshTree, bind_eq_ok] at hstep
  obtain ⟨⟨all, x1⟩, h1, hstep⟩ := hstep
  have hbound : x1.settings = x.settings := by
    rw [(binds_resolveReferences h1).rest]
    rfl
  have htyped1 : x1.isTyped = true := (congrArg (·.1.typed) (hbound.trans hx)).trans htyped
  obtain ⟨n, order, -, htakes, -⟩ :=
    takes_reinferTree ((retouches_resolveReferences h1).sound hsound) htyped1 hstep
  exact htakes.settings.trans (hbound.trans hx)

/-- A refresh rebuilds the table, or finds it small enough. -/
theorem InOrder.size_refresh (hw : w.InOrder) (htyped : w.isTyped = true) {bs : List BlockId}
    (h : w.refresh bs = .ok w') :
    w'.types.size ≤ w'.need ∧ w'.baseline = w'.types.size ∨
      w'.types.size ≤ 2 * max w.baseline minTableSize ∧ w'.baseline = w.baseline := by
  rcases refresh_cases h with ⟨huntyped, -⟩ | ⟨-, roots, w1, -, h1, h2⟩
  · rw [htyped] at huntyped
    cases huntyped
  · have hretouches : Retouches w w1 := .of_foldlM (fun _ _ _ => retouches_refreshTree) h1
    have hbaseline : w1.baseline = w.baseline :=
      congrArg Prod.snd (settings_refreshTrees hw.sound htyped h1)
    unfold compactTypes at h2
    split at h2
    · rename_i hsmall
      cases h2
      exact .inr ⟨hbaseline ▸ hsmall, hbaseline⟩
    · refine .inl ((hw.keeps hretouches.keeps).size_rebuildTypes ?_ h2)
      rw [isTyped, hretouches.rest]
      exact htyped

/-! ## Along a run -/

/-- A run through strides and refreshes from an empty workspace; the states passed, the latest
first. -/
inductive Passage (options : Options) : List Workspace → Workspace → Prop where
  | new : Passage options [] (Workspace.new options)
  | stride {past : List Workspace} {w w' : Workspace} (h : Passage options past w)
      (hstride : w.Stride w') : Passage options (w :: past) w'
  | refresh {past : List Workspace} {w w' : Workspace} {bs : List BlockId}
      (h : Passage options past w) (hrefresh : w.refresh bs = .ok w') :
      Passage options (w :: past) w'

namespace Passage

variable {options : Options} {past : List Workspace}

variable (h : Passage options past w)
include h

theorem inOrder : w.InOrder := by
  induction h with
  | new => exact .new options
  | stride _ hstride ih => exact loadClosed_inOrder.stride ih hstride
  | refresh _ hrefresh ih => exact loadClosed_inOrder.refresh ih hrefresh

theorem isTyped_eq : w.isTyped = options.typed := by
  have hoptions := loadClosed_options options
  have hw : w.options = options := by
    induction h with
    | new => rfl
    | stride _ hstride ih => exact hoptions.stride ih hstride
    | refresh _ hrefresh ih => exact hoptions.refresh ih hrefresh
  rw [isTyped, hw]

/-- The last rebuild left no more than was needed then. -/
theorem baseline_le (htyped : options.typed = true) {M : Nat} (hM : ∀ s ∈ w :: past, s.need ≤ M) :
    w.baseline ≤ M := by
  induction h with
  | new => exact Nat.zero_le M
  | stride h hstride ih =>
    exact (congrArg Prod.snd (settings_stride hstride)).trans_le
      (ih fun s hs => hM s (List.mem_cons_of_mem _ hs))
  | refresh h hrefresh ih =>
    rcases h.inOrder.size_refresh (h.isTyped_eq.trans htyped) hrefresh with
      ⟨hsize, hrebuilt⟩ | ⟨-, hkept⟩
    · exact hrebuilt.trans_le (hsize.trans (hM _ List.mem_cons_self))
    · exact hkept.trans_le (ih fun s hs => hM s (List.mem_cons_of_mem _ hs))

/-- Every call goes on with strides and refreshes. -/
theorem call {call : Call} (hcall : call.Reshapes ∨ call.Loads ∨ call.ConcernsBus)
    (hrun : call.run w = .ok w') : ∃ between, Passage options (between ++ past) w' := by
  have hclosed : LoadClosed fun x => ∃ between, Passage options (between ++ past) x := by
    refine .of_strides ?_ ?_
    · rintro x x' bs ⟨between, hx⟩ hrefresh
      exact ⟨x :: between, hx.refresh hrefresh⟩
    · rintro x x' ⟨between, hx⟩ hstride
      exact ⟨x :: between, hx.stride hstride⟩
  exact hclosed.run hcall ⟨[], h⟩ hrun

end Passage

/-- **The type table stays in proportion to the program.**  Every call is made of strides and
refreshes; and whatever strides and refreshes have led to a typed workspace, a refresh leaves a
table of at most twice the size of the most that any state on the way needed, or of the least size
at which tables are rebuilt. -/
theorem table_bounded {options : Options} (htyped : options.typed = true) {past : List Workspace}
    (h : Passage options past w) :
    (∀ (call : Call) (w' : Workspace), call.Reshapes ∨ call.Loads ∨ call.ConcernsBus →
        call.run w = .ok w' → ∃ between, Passage options (between ++ past) w') ∧
      ∀ (bs : List BlockId) (w' : Workspace) (M : Nat), w.refresh bs = .ok w' →
        (∀ s ∈ w' :: w :: past, s.need ≤ M) → w'.typeVarCount ≤ 2 * max minTableSize M := by
  refine ⟨fun call w' => h.call, fun bs w' M hrefresh hM => ?_⟩
  have hneed : w'.need ≤ M := hM w' List.mem_cons_self
  have hbaseline := h.baseline_le htyped fun s hs => hM s (List.mem_cons_of_mem _ hs)
  have hsize : w'.types.size = w'.typeVarCount := rfl
  rcases h.inOrder.size_refresh (h.isTyped_eq.trans htyped) hrefresh with ⟨hrebuilt, -⟩ | ⟨hkept, -⟩
  · omega
  · omega

/-- A function and a use of a variable are made, and the function is refreshed. -/
theorem table_bounded_lambda : ∃ (past : List Workspace) (w w' : Workspace),
    Passage { typed := true } past w ∧ w.refresh [⟨1⟩] = .ok w' ∧
      (∀ s ∈ w' :: w :: past, s.need ≤ 6) ∧ w.typeVarCount < w'.typeVarCount ∧
      w'.typeVarCount ≤ 2 * max minTableSize 6 := by
  obtain ⟨⟨w1, w, w'⟩, hrun, ⟨hneed0, hneed1, hneed, hneed'⟩, hgrows⟩ :
      ∃ run : Workspace × Workspace × Workspace, (do
        let w1 ← (Workspace.new { typed := true }).newBlockWithId .lambda ⟨1⟩
        let w ← w1.newBlockWithId .variablesGet ⟨2⟩
        return (w1, w, ← w.refresh [⟨1⟩])) = .ok run ∧
      ((Workspace.new { typed := true }).need ≤ 6 ∧ run.1.need ≤ 6 ∧ run.2.1.need ≤ 6 ∧
        run.2.2.need ≤ 6) ∧ run.2.1.typeVarCount < run.2.2.typeVarCount :=
    exists_ok_of_any (by decide +kernel)
  simp only [bind_eq_ok] at hrun
  obtain ⟨x1, h1, x, h, x', hrefresh, hrun⟩ := hrun
  cases hrun
  have hpassage : Passage { typed := true } [w1, Workspace.new { typed := true }] w :=
    (Passage.new.stride (.newBlockWithId h1)).stride (.newBlockWithId h)
  have hM : ∀ s ∈ [w', w, w1, Workspace.new { typed := true }], s.need ≤ 6 := by
    simp only [List.forall_mem_cons]
    exact ⟨hneed', hneed, hneed1, hneed0, List.forall_mem_nil _⟩
  exact ⟨_, w, w', hpassage, hrefresh, hM, hgrows, (table_bounded rfl hpassage).2 _ _ 6 hrefresh hM⟩

end BlockGraph.Workspace
