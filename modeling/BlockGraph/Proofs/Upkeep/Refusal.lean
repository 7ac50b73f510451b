import BlockGraph.Proofs.Upkeep.Types

/-!
# A refused record leaves nothing behind

A record is refused at any stage of its building: a block of it may be of an unknown kind, its
number may be in use, a field may not fit, a socket may be missing or a check may fail.  The blocks
made until then are disposed of.

`restored_of_refused` says that the workspace is then as it was: blocks, connections, variables, the
order of the blocks that stand alone, the free connections, the open batches, and, up to the numbers
of type variables, all types and errors.  Only the counters and the table may have grown.
-/

namespace BlockGraph

theorem TypeError.rename_id (e : TypeError) : e.rename id = e := by
  rcases e with ⟨clash, origin⟩
  cases clash <;> simp [rename, Clash.rename, Ty.rename_id]

/-- A connection without what inference gives it. -/
def Connection.untyped (c : Connection) : Connection := { c with type := none, error := none }

namespace Workspace

variable {w w' : Workspace} {Q : Block → Prop} {tracked : Prop} {c : ConnectionId}

/-- Two workspaces hold the same, apart from counters and from the numbers of type variables. -/
structure Restored (w w' : Workspace) : Prop where
  blocks : w'.blocks = w.blocks
  top : w'.top = w.top
  /-- Owners, kinds, checks and targets. -/
  connection : ∀ c : ConnectionId,
    w'.connections[c]?.map Connection.untyped = w.connections[c]?.map Connection.untyped
  free : w'.free = w.free
  /-- Names, owners and bindings. -/
  var : ∀ v : VariableId, w'.vars[v]?.map Variable.untyped = w.vars[v]?.map Variable.untyped
  depth : w'.events.depth = w.events.depth
  types : ∃ π : Equiv.Perm Nat, ∀ c : ConnectionId,
    w'.typeOf? c = (w.typeOf? c).map (Option.map (Ty.rename π)) ∧
      w'.slotError c = (w.slotError c).map (TypeError.rename π)

/-- The registry follows from the targets. -/
theorem InOrder.free_eq (hw : w.InOrder) (hw' : w'.InOrder) (h : ∀ c : ConnectionId,
    w'.connections[c]?.map Connection.untyped = w.connections[c]?.map Connection.untyped) :
    w'.free = w.free := by
  have hcontains : ∀ c, w'.free.contains c = true ↔ w.free.contains c = true := by
    intro c
    rw [hw'.structured.free, hw.structured.free]
    constructor
    · rintro ⟨new, hnew, htarget⟩
      obtain ⟨old, hold, huntyped⟩ := exists_of_map_eq (h c).symm hnew
      exact ⟨old, hold, (congrArg Connection.target huntyped).trans htarget⟩
    · rintro ⟨old, hold, htarget⟩
      obtain ⟨new, hnew, huntyped⟩ := exists_of_map_eq (h c) hold
      exact ⟨new, hnew, (congrArg Connection.target huntyped).trans htarget⟩
  have hids : w'.free.ids = w.free.ids := Std.ExtTreeSet.ext_mem fun c => by
    simpa [Registry.contains, Std.ExtTreeSet.contains_iff_mem] using hcontains c
  cases hfree : w.free
  cases hfree' : w'.free
  rw [hfree, hfree'] at hids
  exact congrArg Registry.mk hids

/-- Where every tree agrees, so does every connection. -/
theorem InOrder.renamed (hw : w.InOrder) {π : Equiv.Perm Nat}
    (hagree : ∀ r ∈ w.top, AgreeUpTo π r w w')
    (h : w'.connections[c]?.map Connection.untyped = w.connections[c]?.map Connection.untyped) :
    w'.typeOf? c = (w.typeOf? c).map (Option.map (Ty.rename π)) ∧
      w'.slotError c = (w.slotError c).map (TypeError.rename π) := by
  cases hold : w.connections[c]? with
  | some old =>
    obtain ⟨block, hblock⟩ := hw.block_of_connection hold
    obtain ⟨r, -, hr, hbelow⟩ := hw.exists_root hblock
    obtain ⟨ty, hty, hty'⟩ := (hagree r hr).type c ⟨old, hold, hbelow⟩
    exact ⟨by rw [hty, hty']; rfl, (hagree r hr).error c ⟨old, hold, hbelow⟩⟩
  | none =>
    rw [hold] at h
    simp only [typeOf?, getConnection, slotError, hold, Option.map_eq_none_iff.1 h]
    exact ⟨rfl, rfl⟩

theorem renamed_refl (h : w'.connections[c]? = w.connections[c]?) (htypes : w'.types = w.types) :
    w'.typeOf? c = (w.typeOf? c).map (Option.map (Ty.rename (Equiv.refl Nat))) ∧
      w'.slotError c = (w.slotError c).map (TypeError.rename (Equiv.refl Nat)) := by
  have hty : Ty.rename (Equiv.refl Nat) = id := funext Ty.rename_id
  have herr : TypeError.rename (Equiv.refl Nat) = id := funext TypeError.rename_id
  rw [hty, herr, Option.map_id, Option.map_id, Except.map_id]
  simp only [typeOf?, getConnection, slotError, h, htypes, id_eq, and_self]

namespace Refused

variable (h : Refused Q tracked w w')

include h

theorem blocks_eq : w'.blocks = w.blocks := by
  refine Std.ExtTreeMap.ext_getElem? fun b => ?_
  by_cases hb : w.Absent b
  · exact (h.gone hb).trans hb.symm
  · exact h.kept.old hb

theorem not_absent_of_live {b : BlockId} {block : Block} (hb : w'.blocks[b]? = some block) :
    ¬ w.Absent b := by
  intro habsent
  cases (h.gone habsent).symm.trans hb

theorem top_eq (ht : tracked) (hw : w.InOrder) : w'.top = w.top := by
  have hagree := h.kept.agree ht
  have hsub : w'.top.Sublist w.top := (hagree.top _ fun b hb => by
    obtain ⟨block, hblock⟩ := h.kept.inOrder.live_of_top hb
    exact h.not_absent_of_live hblock).1 (.refl _)
  have hsup : w.top.Sublist w'.top := (hagree.top _ fun b hb habsent => by
    obtain ⟨block, hblock⟩ := hw.live_of_top hb
    cases habsent.symm.trans hblock).2 (.refl _)
  exact hsub.antisymm hsup

/-- No connection is new. -/
theorem connection_old (hw : w.InOrder) {connection : Connection}
    (hc : w'.connections[c]? = some connection) : ∃ old, w.connections[c]? = some old := by
  obtain ⟨block, hblock, hcount, -⟩ := h.kept.inOrder.structured.listed hc
  rw [h.blocks_eq] at hblock
  have hmem : c ∈ block.connections := List.count_pos_iff.1 (by omega)
  obtain ⟨old, hold, -⟩ := hw.structured.owned hblock hmem
  exact ⟨old, hold⟩

/-- What was there is there, as far as the types allow to tell. -/
theorem exists_connection (ht : tracked) (hw : w.InOrder) {old : Connection}
    (hc : w.connections[c]? = some old) : ∃ new, w'.connections[c]? = some new ∧
      (View.kept w.isTyped).connection new = (View.kept w.isTyped).connection old := by
  obtain ⟨block, hblock⟩ := hw.block_of_connection hc
  refine Option.map_eq_some_iff.1 ((h.kept.agree ht).connection hc fun habsent => ?_)
  cases habsent.symm.trans hblock

theorem connection_eq (ht : tracked) (hw : w.InOrder) (c : ConnectionId) :
    w'.connections[c]?.map Connection.untyped = w.connections[c]?.map Connection.untyped := by
  have hview : ∀ x, ((View.kept w.isTyped).connection x).untyped = x.untyped := by
    intro x
    unfold View.kept
    split <;> rfl
  cases hold : w.connections[c]? with
  | some old =>
    obtain ⟨new, hnew, heq⟩ := h.exists_connection ht hw hold
    rw [hnew, Option.map_some, Option.map_some, ← hview new, heq, hview]
  | none =>
    cases hnew : w'.connections[c]? with
    | none => rfl
    | some new =>
      obtain ⟨old, hold'⟩ := h.connection_old hw hnew
      cases hold.symm.trans hold'

theorem var_eq (ht : tracked) (ho : w.Owned) (v : VariableId) :
    w'.vars[v]?.map Variable.untyped = w.vars[v]?.map Variable.untyped := by
  have hview : ∀ x, ((View.kept w.isTyped).var x).untyped = x.untyped := by
    intro x
    unfold View.kept
    split
    · exact Variable.untyped_untyped x
    · rfl
  cases hold : w.vars[v]? with
  | some old =>
    obtain ⟨block, hblock, -⟩ := ho.holder hold
    obtain ⟨new, hnew, heq⟩ :=
        Option.map_eq_some_iff.1 ((h.kept.agree ht).var hold fun habsent => by
      cases habsent.symm.trans hblock)
    rw [hnew, Option.map_some, Option.map_some, ← hview new, heq, hview]
  | none =>
    cases hnew : w'.vars[v]? with
    | none => rfl
    | some new =>
      obtain ⟨block, hblock, hown⟩ := h.kept.owned.holder hnew
      rw [h.blocks_eq] at hblock
      obtain ⟨found, hfound, -⟩ := ho.var hblock hown
      cases hold.symm.trans hfound

/-- Without types, connections are as they were. -/
theorem connection_eq_of_untyped (ht : tracked) (hw : w.InOrder) (huntyped : w.isTyped = false)
    (c : ConnectionId) : w'.connections[c]? = w.connections[c]? := by
  cases hold : w.connections[c]? with
  | some old =>
    obtain ⟨new, hnew, hview⟩ := h.exists_connection ht hw hold
    rw [huntyped] at hview
    rw [hnew]
    exact congrArg some hview
  | none =>
    refine Option.eq_none_iff_forall_ne_some.2 fun new hnew => ?_
    obtain ⟨old, hold'⟩ := h.connection_old hw hnew
    cases hold.symm.trans hold'

end Refused

/-! ## Types -/

/-- A tree of a workspace in which a record was refused is the same. -/
theorem Refused.same (h : Refused Q True w w') (hw : w.InOrder) (htyped : w.isTyped = true)
    {r : BlockId} (hr : r ∈ w.top) : Same .shape w w' r := by
  have hagree := h.kept.agree trivial
  rw [htyped] at hagree
  refine hagree.same hw h.kept.inOrder ?_
  rintro ⟨b, habsent, hbelow⟩
  obtain ⟨block, hblock⟩ := hw.live_of_top hr
  obtain ⟨block', hblock'⟩ := hbelow.live hblock
  cases habsent.symm.trans hblock'

/-! ## Along every run -/

/-- **A refused record leaves the workspace as it was.** -/
theorem restored_of_refused (hw : w.ReachableBy Call.IsExtension) {record : Record}
    {error : RecordError} (h : w.fromRecord record = .ok (.error error, w')) : Restored w w' := by
  have hu : Upheld (fun _ => True) True w := hw.upheld_extending
  obtain ⟨hu', hrefused⟩ := hu.fromRecord Block.steady_true h
  have hrefused := hrefused error rfl
  have horder := hu.standing.inOrder
  have hconnection := hrefused.connection_eq trivial horder
  refine ⟨hrefused.blocks_eq, hrefused.top_eq trivial horder, hconnection,
    horder.free_eq hu'.standing.inOrder hconnection, hrefused.var_eq trivial hu.standing.owned,
    hrefused.depth, ?_⟩
  by_cases htyped : w.isTyped = true
  · obtain ⟨π, hπ⟩ := hu.exists_agreeUpTo hu' htyped (hrefused.kept.isTyped_eq.trans htyped)
    exact ⟨π, fun c => horder.renamed
      (fun r hr => hπ r hr (hrefused.same horder htyped hr).samePlan) (hconnection c)⟩
  · have huntyped : w.isTyped = false := by simpa using htyped
    exact ⟨.refl Nat, fun c => renamed_refl
      (hrefused.connection_eq_of_untyped trivial horder huntyped c)
      (hrefused.kept.untyped huntyped)⟩

/-- A function that returns its argument. -/
def identityFunction : Except Fault Workspace :=
  [Call.newBlock .lambda, .newBlock .variablesGet, .connect ⟨1⟩ ⟨2⟩].foldlM Call.run
    (Workspace.new {})

/-- A sum of a number and a truth value, which does not fit. -/
def unfitSum : Record := .node { tag := "int_arithmetic", id := ⟨7⟩ }
    [("A", .node { tag := "bool_literal", id := ⟨8⟩ } [] none),
      ("B", .node { tag := "int_literal", id := ⟨9⟩ } [] none)] none

theorem restored_of_refused_unfitSum :
    ∃ w w' error, identityFunction = .ok w ∧ w.fromRecord unfitSum = .ok (.error error, w') ∧
      w.nextBlock = 3 ∧ w'.nextBlock = 10 ∧ Restored w w' := by
  obtain ⟨w, hrun, hnext, hany⟩ : ∃ w, identityFunction = .ok w ∧ w.nextBlock = 3 ∧
      (w.fromRecord unfitSum).toOption.any
        (fun p => decide (p.1.toOption = none ∧ p.2.nextBlock = 10)) = true :=
    exists_ok_of_any (by decide +kernel)
  obtain ⟨⟨answer, w'⟩, hload, hanswer, hnext'⟩ := exists_ok_of_any hany
  cases answer with
  | ok root => cases hanswer
  | error error =>
    exact ⟨w, w', error, hrun, hload, hnext, hnext', restored_of_refused
      ((ReachableBy.new {}).foldlM (by simp [Call.IsExtension, Call.IsEdit]) hrun) hload⟩

end Workspace

end BlockGraph
