import BlockGraph.Proofs.Upkeep.Runs

/-!
# Uses are bound to the nearest declaration

A function captures its parameter's name in what stands below its body, and a `let` its name in what
stands below the part after `in`.  Of the blocks that capture the name of a use the nearest counts.

`bound_to_nearest` says that along every run of edits, moves of inputs included, every use of a
variable in a typed workspace is bound to what that block declares, and to nothing if there is no
such block.
-/

namespace BlockGraph

theorem Variable.untyped_eq {v v' : Variable} (hname : v'.name = v.name)
    (hblock : v'.block = v.block) (hreference : v'.isReference = v.isReference)
    (hbinding : v.isReference = true → v'.binding? = v.binding?) : v'.untyped = v.untyped := by
  rcases v with ⟨name, block, type | target⟩ <;> rcases v' with ⟨name', block', type' | target'⟩ <;>
    simp_all [untyped, isReference, binding?]

namespace Workspace

variable {w w' : Workspace} {tracked : Prop}

/-- Among the blocks that capture a name at `b`, the nearest is `a`, and it declares `v`. -/
def Nearest (w : Workspace) (name : String) (a b : BlockId) (v : VariableId) : Prop :=
  w.Captures name a b v ∧ ∀ a' u, w.Captures name a' b u → w.Below a' a

/-- Where every tree is up to date, every use is bound to what its name denotes. -/
theorem Upheld.resolved {Q : Block → Prop} (h : Upheld Q tracked w) (htyped : w.isTyped = true)
    (u : VariableId) : w.Resolved u := by
  intro use hu href v
  obtain ⟨block, hblock, -⟩ := h.standing.owned.holder hu
  obtain ⟨r, -, hr, hbelow⟩ := h.standing.inOrder.exists_root hblock
  obtain ⟨owner, howner⟩ := h.current htyped
  exact (howner r hr id).1 u use hu hbelow use hu href v

/-- So bindings are the same wherever names denote the same. -/
theorem Upheld.untyped_eq {Q Q' : Block → Prop} {tracked' : Prop} (h : Upheld Q tracked w)
    (h' : Upheld Q' tracked' w') (htyped : w.isTyped = true) (hoptions : w'.options = w.options)
    (hblocks : w'.blocks = w.blocks) (hjoint : w'.skeleton.joint = w.skeleton.joint)
    (hbare : KeepsBare w w') (v : VariableId) :
    w'.vars[v]?.map Variable.untyped = w.vars[v]?.map Variable.untyped := by
  cases hnew : w'.vars[v]? with
  | none =>
    have hnone := hbare v
    rw [hnew] at hnone
    rw [Option.map_eq_none_iff.1 hnone.symm]
  | some new =>
    obtain ⟨old, hold, hname, hblock, hreference⟩ := hbare.exists_var hnew
    rw [hold, Option.map_some, Option.map_some]
    refine congrArg some (Variable.untyped_eq hname hblock hreference fun href => Option.ext
      fun u => ?_)
    rw [h'.resolved ((isTyped_congr hoptions).trans htyped) v new hnew (hreference.trans href) u,
      h.resolved htyped v old hold href u, hname, hblock, denotes_iff_of_bare hbare hblocks hjoint]

/-- **Uses are bound to the nearest declaration.**  After any edits and moves of inputs, a use in a
typed workspace is bound to a declaration exactly if that is the one of the nearest block that
captures its name, and to nothing exactly if no block captures it.  What it is bound to exists, is a
declaration and has its name. -/
theorem bound_to_nearest (hw : w.ReachableBy Call.IsReordering) (htyped : w.isTyped = true)
    {u : VariableId} {use : Variable} (hu : w.vars[u]? = some use) (href : use.isReference = true) :
    (∀ v, use.binding? = some v ↔ ∃ a, w.Nearest use.name a use.block v) ∧
      (use.binding? = none ↔ ∀ a v, ¬ w.Captures use.name a use.block v) ∧
        ∀ v, use.binding? = some v → ∃ value, w.vars[v]? = some value ∧ value.isReference = false ∧
        value.name = use.name := by
  have h := hw.upheld_reordering Block.steady_regular Block.unordered_regular
  have hresolved : ∀ v, use.binding? = some v ↔ w.Denotes use.name use.block v :=
    h.resolved htyped u use hu href
  refine ⟨fun v => (hresolved v).trans (denotes_iff h.standing.inOrder), ?_, fun v hv => ?_⟩
  · constructor
    · intro hnone a v hcapture
      obtain ⟨v', hdenotes⟩ := hcapture.exists_denotes
      have hbound := (hresolved v').2 hdenotes
      rw [hnone] at hbound
      cases hbound
    · intro hfree
      refine Option.eq_none_iff_forall_ne_some.2 fun v hv => ?_
      obtain ⟨a, hcapture, -⟩ := ((hresolved v).1 hv).exists_nearest
      exact hfree a v hcapture
  · obtain ⟨value, hvalue, hdeclared, hname, -⟩ :=
      ((hresolved v).1 hv).exists_value h.standing.owned.toHoused
    exact ⟨value, hvalue, hdeclared, hname⟩

/-- A function around a `let` of the same name, with a use in each part of the `let`; then the two
parts change places. -/
def shadowed : Except Fault Workspace :=
  [Call.newBlock .lambda, .newBlock .letIn, .newBlock .variablesGet, .newBlock .variablesGet,
    .connect ⟨1⟩ ⟨2⟩, .connect ⟨3⟩ ⟨5⟩, .connect ⟨4⟩ ⟨6⟩,
    .moveInput ⟨2⟩ "EXP2" (some "EXP1")].foldlM Call.run (Workspace.new {})

theorem bound_to_nearest_shadowed :
    ∃ w use, shadowed = .ok w ∧ w.isTyped = true ∧ w.vars[(⟨2⟩ : VariableId)]? = some use ∧
      use.isReference = true ∧ use.binding? = some ⟨0⟩ ∧
      (∀ v, use.binding? = some v ↔ ∃ a, w.Nearest use.name a use.block v) ∧
      (use.binding? = none ↔ ∀ a v, ¬ w.Captures use.name a use.block v) ∧
        ∀ v, use.binding? = some v → ∃ value, w.vars[v]? = some value ∧ value.isReference = false ∧
        value.name = use.name := by
  obtain ⟨w, hrun, htyped, use, hu, href, hbound⟩ : ∃ w, shadowed = .ok w ∧ w.isTyped = true ∧
      ∃ use ∈ w.vars[(⟨2⟩ : VariableId)]?, use.isReference = true ∧ use.binding? = some ⟨0⟩ :=
    exists_ok_of_any (by decide +kernel)
  have hw := (ReachableBy.new {}).foldlM (P := Call.IsReordering)
    (by simp [Call.IsReordering, Call.IsEdit]) hrun
  exact ⟨w, use, hrun, htyped, hu, href, hbound, bound_to_nearest hw htyped hu href⟩

end Workspace

end BlockGraph
