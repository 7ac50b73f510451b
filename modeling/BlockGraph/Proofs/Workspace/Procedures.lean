import Mathlib.Data.List.Perm.Basic
import BlockGraph.Proofs.Workspace.Skeleton
import BlockGraph.Workspace.Extend
import BlockGraph.Workspace.Load

/-!
# What steps keep, procedures keep

The operations on a workspace are put together from few steps, and much of what is said about them
is that they keep a property.  Here each operation is taken apart once, for any property.

* `PlaceClosed P`: the changes of single blocks and connections that joining and parting consist of
  keep `P`.  `LinkClosed P`: so does announcing a move.  Then so do `link` and `unlink`.
* `MoveClosed P`: joining, parting, healing, releasing and refreshing keep `P`.  Then so do
  `connect`, `disconnect`, `unplug` and `dispose`.
* `CheckClosed P`: so does replacing a check.  Then so does `setCheck`.
* `ItemClosed b P`: so do appending and dropping inputs of the block `b`.  Then so do `removeInput`
  and `setItemCount` on that block.  `InputClosed P`: it is so for every block, with fields on new
  inputs.  Then so does `applyDescriptor`.
* `LoadClosed P`: so do making a block, loading a field and plugging in.  Then so does `fromRecord`.

A step that is taken only after some test may use what was tested.  `P` can be a relation to the
state at the start, with that state fixed.
-/

namespace BlockGraph

/-- A block without its place among the others. -/
def Block.detached (b : Block) : Block := { b with parent := none, children := [] }

namespace Workspace

variable {P : Workspace → Prop} {w w' : Workspace} {a c : ConnectionId} {b : BlockId} {heal : Bool}
  {name field : String} {error : Option RecordError} {record : Record} {value : Json}
  {fields : List (String × Json)} {errors : List DescriptorError} {source target count : Nat}
  {below : Option BlockId} {created : List BlockId} {s s' : Loading} {saved : SavedBlock}
  {answer : Except RecordError BlockId} {α : Type}

/-! ## Single blocks -/

theorem heldVariable?_of_loadedValue {current loaded : FieldValue}
    (h : loadedValue? current value = some loaded) : loaded.heldVariable? = none := by
  cases current <;> simp only [loadedValue?, Option.map_eq_some_iff, reduceCtorEq] at h <;>
    obtain ⟨_, -, rfl⟩ := h <;> rfl

/-- What loading a field does: the variable it holds is renamed, or its value replaced, if
anything. -/
theorem loadField_cases
    (h : w.loadField b name value = .ok (error, w')) : w' = w ∨ ∃ block, w.blocks[b]? = some block ∧
      ((∃ v text, (block.field? name).bind (·.value.heldVariable?) = some v ∧
          w.modifyVariable v ({ · with name := text }) = .ok w') ∨
        ∃ loaded, loaded.heldVariable? = none ∧
          (∀ field, block.field? name = some field → field.value.heldVariable? = none) ∧
          w.modifyBlock b (·.setField name loaded) = .ok w') := by
  simp only [loadField, fieldValue?, bind_eq_ok, getBlock_eq_ok] at h
  obtain ⟨found, ⟨block, hblock, hfound⟩, h⟩ := h
  cases hfound
  split at h
  · cases h
    exact .inl rfl
  · rename_i v hv
    split at h
    · obtain ⟨w1, h1, h⟩ := bind_eq_ok.1 h
      cases h
      obtain ⟨field, hfield, hvalue⟩ := Option.map_eq_some_iff.1 hv
      exact .inr ⟨block, hblock, .inl ⟨v, _, by rw [hfield, Option.bind_some, hvalue]; rfl, h1⟩⟩
    · cases h
      exact .inl rfl
  · rename_i current hnot hcurrent
    split at h
    · rename_i loaded hloaded
      obtain ⟨w1, h1, h⟩ := bind_eq_ok.1 h
      cases h
      refine .inr ⟨block, hblock,
        .inr ⟨loaded, heldVariable?_of_loadedValue hloaded, fun field hfield => ?_, h1⟩⟩
      rw [hfield] at hcurrent
      cases hcurrent
      cases hvalue : field.value with
      | var v => exact absurd hvalue (hnot v)
      | _ => rfl
    · cases h
      exact .inl rfl

/-- What loading a field keeps, loading fields keeps. -/
theorem loadFields_induction (hstep : ∀ {w w' : Workspace} {name : String} {value : Json}
      {error : Option RecordError}, P w → w.loadField b name value = .ok (error, w') → P w') :
      ∀ {w w' : Workspace} {error : Option RecordError}, P w →
      w.loadFields b fields = .ok (error, w') → P w' := by
  induction fields with
  | nil =>
    intro w w' error h hrun
    cases hrun
    exact h
  | cons entry rest ih =>
    intro w w' error h hrun
    simp only [loadFields, bind_eq_ok] at hrun
    obtain ⟨⟨first, w1⟩, h1, hrun⟩ := hrun
    have hfirst := hstep h h1
    split at hrun
    · rename_i heq
      cases heq
      exact ih hfirst hrun
    · cases hrun
      exact hfirst

/-- What appending a field keeps, appending described fields keeps. -/
theorem extendFields_induction {index : Nat} {fields : List FieldDescriptor}
    (hstep : ∀ d ∈ fields, ∀ {w w' : Workspace} {value : FieldValue}, d.fieldValue = .ok value →
      P w → w.appendField b index ⟨d.name, value⟩ = .ok w' → P w') :
    ∀ {w w' : Workspace} {errors : List DescriptorError}, P w →
      w.extendFields b index fields = .ok (errors, w') → P w' := by
  induction fields with
  | nil =>
    intro w w' errors h hrun
    cases hrun
    exact h
  | cons d rest ih =>
    intro w w' errors h hrun
    have ih := @ih fun d hd => hstep d (List.mem_cons_of_mem _ hd)
    simp only [extendFields] at hrun
    split at hrun <;> rw [bind_eq_ok] at hrun
    · rename_i value hvalue
      obtain ⟨w1, h1, hrun⟩ := hrun
      exact ih (hstep d List.mem_cons_self hvalue h h1) hrun
    · obtain ⟨⟨more, w1⟩, h1, hrun⟩ := hrun
      cases hrun
      exact ih h h1

/-- What appending a described input does: it is skipped, or appended with its fields. -/
theorem extendInput_cases {input : InputDescriptor}
    (h : w.extendInput b input = .ok (errors, w')) : w' = w ∨ ∃ kind index w1,
      w.appendInput b kind input.name input.check = .ok (index, w1) ∧
      w1.extendFields b index input.fields = .ok (errors, w') := by
  have happend : ∀ {kind : InputKind}, (w.appendInput b kind input.name input.check >>= fun r =>
      r.2.extendFields b r.1 input.fields) = .ok (errors, w') → ∃ kind index w1,
        w.appendInput b kind input.name input.check = .ok (index, w1) ∧
        w1.extendFields b index input.fields = .ok (errors, w') := by
    intro kind h
    obtain ⟨⟨index, w1⟩, h1, h⟩ := bind_eq_ok.1 h
    exact ⟨kind, index, w1, h1, h⟩
  simp only [extendInput] at h
  split at h
  · cases h
    exact .inl rfl
  · split at h
    · obtain ⟨block, -, h⟩ := bind_eq_ok.1 h
      split at h
      · cases h
        exact .inl rfl
      · exact .inr (happend h)
    · exact .inr (happend h)

/-- What appending one described input keeps, appending some keeps. -/
theorem extendInputs_induction {inputs : List InputDescriptor}
    (hstep : ∀ input ∈ inputs, ∀ {w w1 w' : Workspace} {kind : InputKind} {index : Nat}
      {errors : List DescriptorError},
      P w → w.appendInput b kind input.name input.check = .ok (index, w1) →
      w1.extendFields b index input.fields = .ok (errors, w') → P w') :
    ∀ {w w' : Workspace} {errors : List DescriptorError}, P w →
      w.extendInputs b inputs = .ok (errors, w') → P w' := by
  induction inputs with
  | nil =>
    intro w w' errors h hrun
    cases hrun
    exact h
  | cons input rest ih =>
    intro w w' errors h hrun
    simp only [extendInputs, bind_eq_ok] at hrun
    obtain ⟨⟨first, w1⟩, h1, ⟨more, w2⟩, h2, hrun⟩ := hrun
    cases hrun
    refine ih (fun input hinput => hstep input (List.mem_cons_of_mem _ hinput)) ?_ h2
    rcases extendInput_cases h1 with rfl | ⟨kind, index, w0, happend, hfields⟩
    · exact h
    · exact hstep input List.mem_cons_self h happend hfields

/-- What setting a field does: a value that is no variable replaces another, and that is
announced. -/
theorem setFieldValue_cases {value : FieldValue} (h : w.setFieldValue b name value = .ok w') :
    value.heldVariable? = none ∧ ∃ block field old new w1, w.blocks[b]? = some block ∧
      block.field? name = some field ∧ field.value.heldVariable? = none ∧
      w.fieldText field.value = .ok old ∧ w.fieldText value = .ok new ∧
      w.modifyBlock b (·.setField name value) = .ok w1 ∧
      w' = w1.fire (.change b ⟨.field, some name⟩ old new) := by
  simp only [setFieldValue, bind_eq_ok, getBlock_eq_ok, require_eq_ok,
    Option.isNone_iff_eq_none] at h
  obtain ⟨_, hvalue, block, hblock, h⟩ := h
  split at h
  · cases h
  · simp only [bind_eq_ok, require_eq_ok, Option.isNone_iff_eq_none] at h
    obtain ⟨_, hheld, old, hold, new, hnew, w1, h1, h⟩ := h
    cases h
    exact ⟨hvalue, block, _, old, new, w1, hblock, ‹_›, hheld, hold, hnew, h1, rfl⟩

/-- A block has been changed, and a property with it; that is announced unless it is the same. -/
def Restyled (b : BlockId) (f : Block → Block) (w w' : Workspace) : Prop :=
  ∃ w1, w.modifyBlock b f = .ok w1 ∧
    (w' = w1 ∨ ∃ property old new, w' = w1.fire (.change b property old new))

namespace Restyled

theorem of_setFieldValue {value : FieldValue} (h : w.setFieldValue b name value = .ok w') :
    Restyled b (·.setField name value) w w' := by
  obtain ⟨-, _, _, _, _, w1, -, -, -, -, -, h1, rfl⟩ := setFieldValue_cases h
  exact ⟨w1, h1, .inr ⟨_, _, _, rfl⟩⟩

theorem of_change {f : Block → Block} {x : Except Fault α} {element : α → Element}
    {old new : α → String} (h : (do
      let a ← x
      let w ← w.modifyBlock b f
      return w.announceChange b (element a) (old a) (new a)) = .ok w') : Restyled b f w w' := by
  simp only [bind_eq_ok] at h
  obtain ⟨a, -, w1, h1, h⟩ := h
  cases h
  refine ⟨w1, h1, ?_⟩
  unfold announceChange
  split
  · exact .inl rfl
  · exact .inr ⟨_, _, _, rfl⟩

end Restyled

/-- What renaming does: the variable of a field gets the name, that is announced, and bindings
follow. -/
theorem renameVariable_cases (h : w.renameVariable b field name = .ok w') :
    ∃ block v found w1, w.blocks[b]? = some block ∧
      (block.field? field).bind (·.value.heldVariable?) = some v ∧ w.vars[v]? = some found ∧
      w.modifyVariable v ({ · with name }) = .ok w1 ∧
      (w1.fire (.change b ⟨.field, some field⟩ found.name name)).refresh [b] = .ok w' := by
  simp only [renameVariable, fieldVariable?, bind_eq_ok, getBlock_eq_ok] at h
  obtain ⟨held, ⟨block, hblock, hheld⟩, h⟩ := h
  split at h
  · cases h
  · simp only [bind_eq_ok, getVariable_eq_ok] at h
    obtain ⟨found, hfound, w1, h1, h⟩ := h
    exact ⟨block, _, found, w1, hblock, Except.ok.inj hheld, hfound, h1, h⟩

theorem perm_moveItem {items : List α} (hsource : source < items.length)
    (htarget : target ≤ items.length) : (moveItem items source target).Perm items := by
  simp only [moveItem, List.getElem?_eq_getElem hsource]
  have hlength := List.length_eraseIdx_of_lt hsource
  refine (List.perm_insertIdx _ _ ?_).trans (List.getElem_cons_eraseIdx_perm hsource)
  split <;> omega

/-- Moving inputs gives them another order. -/
theorem moveNumberedInput_cases (h : w.moveNumberedInput b source target = .ok w') :
    ∃ block inputs, w.blocks[b]? = some block ∧ inputs.Perm block.inputs ∧
      w' = { w with blocks := w.blocks.insert b { block with inputs } } := by
  simp only [moveNumberedInput, bind_eq_ok, getBlock_eq_ok, require_eq_ok, modifyBlock_eq_ok,
    decide_eq_true_eq] at h
  obtain ⟨block, hblock, _, hsource, _, htarget, _, -, block', hblock', rfl⟩ := h
  cases hblock.symm.trans hblock'
  exact ⟨block, _, hblock, perm_moveItem hsource htarget, rfl⟩

theorem moveInput_cases {before : Option String} (h : w.moveInput b name before = .ok w') :
    w' = w ∨ ∃ source target, w.moveNumberedInput b source target = .ok w' := by
  simp only [moveInput, bind_eq_ok] at h
  obtain ⟨source, -, target, -, h⟩ := h
  split at h
  · cases h
    exact .inl rfl
  · exact .inr ⟨source, target, h⟩

/-! ## Joining and parting -/

/-- Changes of places, targets and lists keep a property. -/
structure PlaceClosed (P : Workspace → Prop) : Prop where
  place : ∀ {w w' : Workspace} {b : BlockId} {f : Block → Block}, P w → w.modifyBlock b f = .ok w' →
    (∀ block, (f block).detached = block.detached) → P w'
  aim : ∀ {w w' : Workspace} {c : ConnectionId} {target : Option ConnectionId}, P w →
    w.modifyConnection c ({ · with target }) = .ok w' → P w'
  list : ∀ {w : Workspace} (top : List BlockId) (free : Registry), P w → P { w with top, free }

/-- So does announcing a move. -/
structure LinkClosed (P : Workspace → Prop) : Prop extends PlaceClosed P where
  fire : ∀ {w : Workspace} (b : BlockId) (old new : Place), P w → P (w.fire (.move b old new))

theorem PlaceClosed.setParent (hP : PlaceClosed P) (h : P w) {parent : Option BlockId}
    (hrun : w.setParent b parent = .ok w') : P w' := by
  simp only [Workspace.setParent, leaveParent, bind_eq_ok] at hrun
  obtain ⟨_, -, _, -, w1, ⟨block, -, h1⟩, w2, h2, hrun⟩ := hrun
  have hleft : P w1 := by
    split at h1
    · exact hP.place h h1 fun _ => rfl
    · cases h1
      exact h
  have hset : P w2 := hP.place hleft h2 fun _ => rfl
  cases parent with
  | none =>
    cases hrun
    unfold addTop
    split
    · exact hset
    · exact hP.list _ w2.free hset
  | some p =>
    simp only [joinParent, bind_eq_ok] at hrun
    obtain ⟨w3, h3, hrun⟩ := hrun
    cases hrun
    exact hP.list _ w3.free (hP.place hset h3 fun _ => rfl)

namespace LinkClosed

variable (hP : LinkClosed P)
include hP

theorem link {i o : ConnectionId} (h : P w) (hrun : w.link i o = .ok w') : P w' := by
  simp only [Workspace.link, bind_eq_ok] at hrun
  obtain ⟨_, -, _, -, _, -, w1, h1, w2, h2, w3, h3, _, -, hrun⟩ := hrun
  cases hrun
  exact hP.fire _ _ _ (hP.setParent (hP.list w2.top _ (hP.aim (hP.aim h h1) h2)) h3)

theorem unlink {announce : Bool} {joined : BlockId × BlockId} (h : P w)
    (hrun : w.unlink c announce = .ok (joined, w')) : P w' := by
  simp only [Workspace.unlink, bind_eq_ok] at hrun
  obtain ⟨connection, -, hrun⟩ := hrun
  split at hrun
  · cases hrun
  · simp only [bind_eq_ok] at hrun
    obtain ⟨⟨i, o⟩, -, _, -, _, -, _, -, w1, h1, w2, h2, w3, h3, hrun⟩ := hrun
    have hparted : P w3 := hP.setParent (hP.list w2.top _ (hP.aim (hP.aim h h1) h2)) h3
    split at hrun
    · obtain ⟨_, -, hrun⟩ := bind_eq_ok.1 hrun
      cases hrun
      exact hP.fire _ _ _ hparted
    · cases hrun
      exact hparted

end LinkClosed

/-- A block that is released is parted from its parent first. -/
theorem sever_cases (h : w.sever b = .ok w') : w.parentConnection? b = .ok none ∧ w' = w ∨
      ∃ block c joined, w.blocks[b]? = some block ∧ block.superior? = some c ∧
        w.unlink c false = .ok (joined, w') := by
  simp only [sever, bind_eq_ok, getBlock_eq_ok] at h
  obtain ⟨block, hblock, h⟩ := h
  split at h
  · rename_i c hc
    obtain ⟨connection, hconnection, h⟩ := bind_eq_ok.1 h
    split at h
    · obtain ⟨⟨joined, w1⟩, h1, h⟩ := bind_eq_ok.1 h
      cases h
      exact .inr ⟨block, c, joined, hblock, hc, h1⟩
    · rename_i hfree
      cases h
      have htarget : connection.target = none := by simpa [Connection.isConnected] using hfree
      exact .inl ⟨by simp [parentConnection?, getBlock_eq_ok.2 hblock, hc, hconnection, htarget],
        rfl⟩
  · rename_i hc
    cases h
    exact .inl ⟨by simp [parentConnection?, getBlock_eq_ok.2 hblock, hc], rfl⟩

/-! ## Edits -/

/-- The steps of joining, parting and disposing keep a property. -/
structure MoveClosed (P : Workspace → Prop) : Prop where
  refresh : ∀ {w w' : Workspace} {bs : List BlockId}, P w → w.refresh bs = .ok w' → P w'
  /-- Two connections that have passed the gate and are not joined. -/
  join : ∀ {w w' : Workspace} {a b i o : ConnectionId} {ca : Connection}, P w →
    w.checkStructure a b = .ok none → w.connections[a]? = some ca → ca.target ≠ some b →
    w.orient a b = .ok (i, o) → w.link i o = .ok w' → P w'
  part : ∀ {w w' : Workspace} {c : ConnectionId} {joined : BlockId × BlockId}, P w →
    w.unlink c true = .ok (joined, w') → P w'
  heal : ∀ {w w' : Workspace} {b : BlockId} {above next previous : ConnectionId}, P w →
    w.parentConnection? b = .ok (some above) → w.below? b = .ok (some (next, previous)) →
    w.unplugHealing above next previous = .ok w' → P w'
  /-- Blocks are released, and then it is announced. -/
  erase : ∀ {w w' : Workspace} {b : BlockId} {doomed : List BlockId}, P w →
    doomed.reverse.foldlM release w = .ok w' → P (w'.fire (.delete b doomed))

/-- So does replacing a check. -/
structure CheckClosed (P : Workspace → Prop) : Prop extends MoveClosed P where
  /-- A check that the target passes. -/
  recheck : ∀ {w w' : Workspace} {c : ConnectionId} {connection : Connection} {check : Check}, P w →
    w.connections[c]? = some connection → w.modifyConnection c ({ · with check }) = .ok w' →
    (∀ t other, connection.target = some t → w'.connections[t]? = some other →
      Check.intersects check other.check = true) → P w'
  /-- A check that the target does not pass. -/
  expel : ∀ {w w1 w' : Workspace} {c : ConnectionId} {check : Check} {joined : BlockId × BlockId},
    P w → w.modifyConnection c ({ · with check }) = .ok w1 → w1.unlink c true = .ok (joined, w') →
    P w'

theorem unplugHealing_induction
    (hlink : ∀ {w w' : Workspace} {i o : ConnectionId}, P w → w.link i o = .ok w' → P w')
    (hunlink : ∀ {w w' : Workspace} {c : ConnectionId} {joined : BlockId × BlockId}, P w →
      w.unlink c true = .ok (joined, w') → P w') (h : P w) {above next previous : ConnectionId}
    (hrun : w.unplugHealing above next previous = .ok w') : P w' := by
  simp only [unplugHealing, bind_eq_ok] at hrun
  obtain ⟨⟨_, w1⟩, h1, ⟨_, w2⟩, h2, answer, -, hrun⟩ := hrun
  have hparted := hunlink (hunlink h h1) h2
  split at hrun
  · exact hlink hparted hrun
  · cases hrun
    exact hparted

/-- What unplugging comes down to. -/
theorem unplug_cases (h : w.unplug b heal = .ok w') : w.parentConnection? b = .ok none ∧ w' = w ∨
      ∃ above socket, w.parentConnection? b = .ok (some above) ∧
        w.connections[above]? = some socket ∧
            ((heal = true ∧ socket.kind = .nextStatement ∧
              ∃ next previous plug w1, w.below? b = .ok (some (next, previous)) ∧
              w.connections[previous]? = some plug ∧
            w.unplugHealing above next previous = .ok w1 ∧
            w1.refresh [b, socket.block, plug.block] = .ok w') ∨
          (heal = false ∨ socket.kind ≠ .nextStatement ∨ w.below? b = .ok none) ∧ ∃ joined w1,
            w.unlink above true = .ok (joined, w1) ∧ w1.refresh [b, socket.block] = .ok w') := by
  simp only [unplug, bind_eq_ok] at h
  obtain ⟨above?, habove, h⟩ := h
  split at h
  · cases h
    exact .inl ⟨habove, rfl⟩
  · simp only [bind_eq_ok, getConnection_eq_ok] at h
    obtain ⟨socket, hsocket, below, hbelow, h⟩ := h
    refine .inr ⟨_, socket, habove, hsocket, ?_⟩
    split at h
    · split at h
      · rename_i hheal
        simp only [Bool.and_eq_true, beq_iff_eq] at hheal
        simp only [bind_eq_ok, getConnection_eq_ok] at h
        obtain ⟨plug, hplug, w1, h1, h⟩ := h
        exact .inl ⟨hheal.1, hheal.2, _, _, plug, w1, hbelow, hplug, h1, h⟩
      · rename_i hheal
        obtain ⟨⟨joined, w1⟩, h1, h⟩ := bind_eq_ok.1 h
        exact .inr ⟨by cases heal <;> simp_all, joined, w1, h1, h⟩
    · obtain ⟨⟨joined, w1⟩, h1, h⟩ := bind_eq_ok.1 h
      exact .inr ⟨.inr (.inr hbelow), joined, w1, h1, h⟩

theorem cutBelow_cases (h : w.cutBelow b = .ok (below, w')) :
    w.below? b = .ok none ∧ below = none ∧ w' = w ∨ ∃ next previous parent child,
      w.below? b = .ok (some (next, previous)) ∧ w.unlink next true = .ok ((parent, child), w') ∧
      below = some child := by
  simp only [cutBelow, bind_eq_ok] at h
  obtain ⟨found, hfound, h⟩ := h
  split at h
  · obtain ⟨⟨⟨parent, child⟩, w1⟩, h1, h⟩ := bind_eq_ok.1 h
    cases h
    exact .inr ⟨_, _, parent, child, hfound, h1, rfl⟩
  · cases h
    exact .inl ⟨hfound, rfl, rfl⟩

namespace MoveClosed

variable (hP : MoveClosed P)
include hP

theorem connect (h : P w) {d : ConnectionId} {answer : Option ConnectError}
    (hrun : w.connect a d = .ok (answer, w')) : P w' := by
  simp only [Workspace.connect, checkConnection, bind_eq_ok] at hrun
  obtain ⟨answer', ⟨structural, hgate, hanswer⟩, hrun⟩ := hrun
  split at hrun
  · cases hrun
    exact h
  · simp only [bind_eq_ok, getConnection_eq_ok] at hrun
    obtain ⟨ca, hca, hrun⟩ := hrun
    split at hrun
    · cases hrun
      exact h
    · simp only [bind_eq_ok] at hrun
      obtain ⟨⟨i, o⟩, horient, w1, hlink, _, -, w2, hrefresh, hrun⟩ := hrun
      cases hrun
      cases structural with
      | some error => cases hanswer
      | none => exact hP.refresh (hP.join h hgate hca ‹_› horient hlink) hrefresh

theorem disconnect (h : P w) (hrun : w.disconnect c = .ok w') : P w' := by
  simp only [Workspace.disconnect, bind_eq_ok] at hrun
  obtain ⟨⟨joined, w1⟩, h1, hrun⟩ := hrun
  exact hP.refresh (hP.part h h1) hrun

theorem unplug (h : P w) (hrun : w.unplug b heal = .ok w') : P w' := by
  rcases unplug_cases hrun with ⟨-, rfl⟩ | ⟨above, socket, habove, -,
    ⟨-, -, next, previous, plug, w1, hbelow, -, h1, hrun⟩ | ⟨-, joined, w1, h1, hrun⟩⟩
  · exact h
  · exact hP.refresh (hP.heal h habove hbelow h1) hrun
  · exact hP.refresh (hP.part h h1) hrun

theorem cutBelow (h : P w) (hrun : w.cutBelow b = .ok (below, w')) : P w' := by
  rcases cutBelow_cases hrun with ⟨-, -, rfl⟩ | ⟨next, previous, parent, child, -, h1, -⟩
  · exact h
  · exact hP.part h h1

theorem dispose (h : P w) (hrun : w.dispose b heal = .ok w') : P w' := by
  simp only [Workspace.dispose, bind_eq_ok] at hrun
  obtain ⟨_, -, w1, h1, ⟨below, w2⟩, h2, doomed, -, w3, h3, hrun⟩ := hrun
  exact hP.refresh (hP.erase (hP.cutBelow (hP.unplug h h1) h2) h3) hrun

theorem discard (h : P w) (hrun : w.discard created = .ok w') : P w' := by
  refine foldlM_induction (fun x _ v v' hv hstep => ?_) h hrun
  split at hstep
  · exact hP.dispose hv hstep
  · cases hstep
    exact hv

end MoveClosed

theorem CheckClosed.setCheck (hP : CheckClosed P) (h : P w) {check : Check}
    (hrun : w.setCheck c check = .ok w') : P w' := by
  simp only [Workspace.setCheck, bind_eq_ok, getConnection_eq_ok] at hrun
  obtain ⟨w1, h1, new, hnew, hrun⟩ := hrun
  obtain ⟨connection, hc, hset⟩ := modifyConnection_eq_ok.1 h1
  have htarget : new.target = connection.target := by
    rw [hset, getElem?_insert_eq, if_pos rfl, Option.some.injEq] at hnew
    rw [← hnew]
  rw [htarget] at hrun
  split at hrun
  · next t ht =>
    simp only [bind_eq_ok, getConnection_eq_ok] at hrun
    obtain ⟨other, hother, hrun⟩ := hrun
    split at hrun
    · next hpass =>
      cases hrun
      refine hP.recheck h hc h1 fun t' other' ht' hother' => ?_
      cases ht.symm.trans ht'
      cases hother.symm.trans hother'
      exact hpass
    · simp only [Workspace.disconnect, bind_eq_ok] at hrun
      obtain ⟨⟨joined, w2⟩, h2, hrun⟩ := hrun
      exact hP.refresh (hP.expel h h1 h2) hrun
  · next hnone =>
    cases hrun
    exact hP.recheck h hc h1 fun t other ht => by cases hnone.symm.trans ht

/-! ## Inputs -/

/-- So do appending and dropping inputs of a block. -/
structure ItemClosed (b : BlockId) (P : Workspace → Prop) : Prop extends CheckClosed P where
  appendInput : ∀ {w w' : Workspace} {kind : InputKind} {name : String} {check : Check} {index :
    Nat}, P w → w.appendInput b kind name check = .ok (index, w') → P w'
  /-- An input goes with the variables on it and its socket. -/
  dropInput : ∀ {w w1 w2 w' : Workspace} {block : Block} {index : Nat}, P w →
    w.blocks[b]? = some block →
    w.modifyBlock b (fun block => { block with inputs := block.inputs.eraseIdx index }) = .ok w1 →
    ((block.inputs[index]?.getD default).fields.filterMap (·.value.heldVariable?)).foldlM
      disposeVariable w1 = .ok w2 →
    (block.inputs[index]?.getD default).connection.toList.foldlM disposeConnection w2 = .ok w' →
      P w'

namespace ItemClosed

variable (hP : ItemClosed b P)
include hP

theorem removeInput (h : P w) (hrun : w.removeInput b name = .ok w') : P w' := by
  simp only [Workspace.removeInput, bind_eq_ok, getBlock_eq_ok] at hrun
  obtain ⟨index, -, target, -, stack, -, w1, h1, block, hblock, w2, h2, w3, h3, hrun⟩ := hrun
  have hdisposed : P w1 := foldlM_induction (fun _ _ _ _ hv hstep => hP.dispose hv hstep) h h1
  exact hP.dropInput hdisposed hblock h2 h3 hrun

theorem setItemCount (h : P w) (hrun : w.setItemCount b count = .ok w') : P w' := by
  simp only [Workspace.setItemCount, bind_eq_ok] at hrun
  obtain ⟨_, -, _, -, w1, h1, w2, h2, hrun⟩ := hrun
  have hadded : P w1 := by
    refine foldlM_induction (fun _ _ v v' hv hstep => ?_) h h1
    obtain ⟨⟨index, u⟩, happend, hstep⟩ := bind_eq_ok.1 hstep
    cases hstep
    exact hP.appendInput hv happend
  have hremoved : P w2 :=
    foldlM_induction (fun _ _ _ _ hv hstep => hP.removeInput hv hstep) hadded h2
  exact hP.refresh hremoved hrun

end ItemClosed

/-- So do changes to the inputs of every block. -/
structure InputClosed (P : Workspace → Prop) : Prop extends CheckClosed P where
  appendInput : ∀ {w w' : Workspace} {b : BlockId} {kind : InputKind} {name : String} {check :
    Check} {index : Nat}, P w → w.appendInput b kind name check = .ok (index, w') → P w'
  /-- An input is appended with some fields. -/
  extend : ∀ {w w1 w' : Workspace} {b : BlockId} {kind : InputKind} {name : String} {check : Check}
    {index : Nat} {fields : List FieldDescriptor} {errors : List DescriptorError}, P w →
    w.appendInput b kind name check = .ok (index, w1) →
    w1.extendFields b index fields = .ok (errors, w') → P w'
  dropInput : ∀ {w w1 w2 w' : Workspace} {b : BlockId} {block : Block} {index : Nat}, P w →
    w.blocks[b]? = some block →
    w.modifyBlock b (fun block => { block with inputs := block.inputs.eraseIdx index }) = .ok w1 →
    ((block.inputs[index]?.getD default).fields.filterMap (·.value.heldVariable?)).foldlM
      disposeVariable w1 = .ok w2 →
    (block.inputs[index]?.getD default).connection.toList.foldlM disposeConnection w2 = .ok w' →
      P w'

namespace InputClosed

variable (hP : InputClosed P)
include hP

theorem item (b : BlockId) : ItemClosed b P := ⟨hP.toCheckClosed, hP.appendInput, hP.dropInput⟩

theorem removeInput (h : P w) (hrun : w.removeInput b name = .ok w') : P w' :=
  (hP.item b).removeInput h hrun

theorem setItemCount (h : P w) (hrun : w.setItemCount b count = .ok w') : P w' :=
  (hP.item b).setItemCount h hrun

theorem applyDescriptor (h : P w) {d : Descriptor}
    (hrun : w.applyDescriptor b d = .ok (errors, w')) : P w' := by
  simp only [Workspace.applyDescriptor, bind_eq_ok] at hrun
  obtain ⟨⟨first, w1⟩, h1, w2, h2, hrun⟩ := hrun
  cases hrun
  exact hP.refresh (extendInputs_induction (fun _ _ _ _ _ _ _ _ => hP.extend) h h1) h2

end InputClosed

/-! ## Records -/

theorem loadState_induction
    (hP : ∀ {w w' : Workspace} {b : BlockId} {count : Nat}, P w → w.setItemCount b count = .ok w' →
      P w') (h : P w)
    {kind : Kind} {state : Option Json} (hrun : w.loadState b kind state = .ok w') : P w' := by
  unfold Workspace.loadState at hrun
  split at hrun
  · split at hrun
    · exact hP h hrun
    · cases hrun
      exact h
  · cases hrun
    exact h

theorem containsBlock_eq_false_iff : w.containsBlock b = false ↔ w.blocks[b]? = none := by
  rw [← Bool.not_eq_true, containsBlock_iff]
  cases w.blocks[b]? <;> simp

/-- What building one block does: either it is refused at once, or it is made, its state and its
fields are loaded, and then its properties unless a field was refused. -/
theorem Loading.build_cases
    (h : s.build saved = .ok (error, s')) : (s' = s ∧ error ≠ none) ∨ ∃ kind w1 w2 w3 w4,
      Kind.ofTag? saved.tag = some kind ∧ s.workspace.blocks[saved.id]? = none ∧
      s.workspace.newBlockWithId kind saved.id = .ok w1 ∧
      w1.loadState saved.id kind saved.state = .ok w2 ∧
      w2.loadFields saved.id saved.fields = .ok (error, w3) ∧
      (error = none ∧ w3.loadProperties saved = .ok w4 ∨ error ≠ none ∧ w4 = w3) ∧
      s' = { s with workspace := w4, created := saved.id :: s.created } := by
  unfold Loading.build at h
  split at h
  · cases h
    exact .inl ⟨rfl, nofun⟩
  split at h
  · cases h
    exact .inl ⟨rfl, nofun⟩
  rename_i kind hkind hcontains
  have hnone : s.workspace.blocks[saved.id]? = none := by
    simpa [containsBlock_eq_false_iff] using hcontains
  simp only [bind_eq_ok] at h
  obtain ⟨w1, h1, w2, h2, ⟨refused, w3⟩, h3, h⟩ := h
  cases refused with
  | some refusal =>
    cases h
    exact .inr ⟨kind, w1, w2, w3, w3, hkind, hnone, h1, h2, h3, .inr ⟨nofun, rfl⟩, rfl⟩
  | none =>
    obtain ⟨w4, h4, h⟩ := bind_eq_ok.1 h
    cases h
    exact .inr ⟨kind, w1, w2, w3, w4, hkind, hnone, h1, h2, h3, .inl ⟨rfl, h4⟩, rfl⟩

@[simp] theorem workspace_await (s : Loading) (socket : Option ConnectionId) (child : BlockId) :
    (s.await socket child).workspace = s.workspace := by
  cases socket <;> rfl

theorem mem_connections_of_inputConnection? (h : w.inputConnection? b name = .ok (some c)) :
    ∃ block, w.blocks[b]? = some block ∧ c ∈ block.connections := by
  simp only [inputConnection?, bind_eq_ok, getBlock_eq_ok, pure_eq_ok, Except.ok.injEq] at h
  obtain ⟨block, hblock, hc⟩ := h
  obtain ⟨input, hinput, hc⟩ := Option.bind_eq_some_iff.1 hc
  have hmem : c ∈ block.sockets :=
    List.mem_filterMap.2 ⟨input, List.mem_of_find?_eq_some hinput, hc⟩
  exact ⟨block, hblock, by simp [Block.connections, hmem]⟩

namespace Loading

/-- Making the blocks of a record keeps `P` until one is refused, and then `R`.  The blocks made are
among `B`, and each waits for a socket that fits. -/
structure Builds (P R : Loading → Prop) (B : BlockId → Prop)
    (Fits : Loading → Option ConnectionId → BlockId → Prop) : Prop where
  weaken : ∀ {s : Loading}, P s → R s
  build : ∀ {s s' : Loading} {saved : SavedBlock} {error : Option RecordError}, P s →
    s.build saved = .ok (error, s') → R s'
  await : ∀ {s s' : Loading} {saved : SavedBlock} {socket : Option ConnectionId}, P s →
    s.build saved = .ok (none, s') → Fits s socket saved.id → P (s'.await socket saved.id) ∧
    B saved.id
  fits : ∀ {s : Loading} {parent child : BlockId} {block : Block} {c : ConnectionId}, P s →
    B parent → s.workspace.blocks[parent]? = some block → c ∈ block.connections →
    Fits s (some c) child

section Builds

variable {P R : Loading → Prop} {B : BlockId → Prop} 
  {Fits : Loading → Option ConnectionId → BlockId → Prop}

mutual

theorem Builds.buildTree (hP : Builds P R B Fits) {s s' : Loading} (h : P s)
    {socket : Option ConnectionId} :
    ∀ {record : Record} {error : Option RecordError}, Fits s socket record.block.id →
      s.buildTree socket record = .ok (error, s') → R s' ∧ (error = none → P s' ∧ B record.block.id)
  | .node saved inputs next, error, hfits, hrun => by
    simp only [Loading.buildTree, bind_eq_ok] at hrun
    obtain ⟨⟨refused, s1⟩, h1, hrun⟩ := hrun
    split at hrun
    · rename_i heq
      cases heq
      obtain ⟨⟨refused, s2⟩, h2, hrun⟩ := bind_eq_ok.1 hrun
      obtain ⟨hs1, hid⟩ := hP.await h h1 hfits
      obtain ⟨hrefused, hinputs⟩ := Builds.buildInputs hP hs1 hid h2
      split at hrun
      · rename_i heq
        cases heq
        obtain ⟨hrefused, hnext⟩ := Builds.buildNext hP (hinputs rfl) hid hrun
        exact ⟨hrefused, fun herror => ⟨hnext herror, hid⟩⟩
      · cases hrun
        exact ⟨hrefused, fun herror => ⟨hinputs herror, hid⟩⟩
    · rename_i hne
      cases hrun
      exact ⟨hP.build h h1, fun herror => absurd (by rw [herror]) (hne s')⟩

theorem Builds.buildInputs (hP : Builds P R B Fits) {s s' : Loading} (h : P s) {parent : BlockId}
    (hparent : B parent) : ∀ {inputs : List (String × Record)} {error : Option RecordError},
      s.buildInputs parent inputs = .ok (error, s') → R s' ∧ (error = none → P s')
  | [], error, hrun => by
    cases hrun
    exact ⟨hP.weaken h, fun _ => h⟩
  | (name, child) :: rest, error, hrun => by
    simp only [Loading.buildInputs, bind_eq_ok] at hrun
    obtain ⟨socket?, hsocket, hrun⟩ := hrun
    split at hrun
    · cases hrun
      exact ⟨hP.weaken h, nofun⟩
    · obtain ⟨⟨refused, s1⟩, h1, hrun⟩ := bind_eq_ok.1 hrun
      obtain ⟨block, hblock, hc⟩ := mem_connections_of_inputConnection? hsocket
      obtain ⟨hrefused, hchild⟩ := Builds.buildTree hP h (hP.fits h hparent hblock hc) h1
      split at hrun
      · rename_i heq
        cases heq
        exact Builds.buildInputs hP (hchild rfl).1 hparent hrun
      · cases hrun
        exact ⟨hrefused, fun herror => (hchild herror).1⟩

theorem Builds.buildNext (hP : Builds P R B Fits) {s s' : Loading} (h : P s) {parent : BlockId}
    (hparent : B parent) : ∀ {next : Option Record} {error : Option RecordError},
      s.buildNext parent next = .ok (error, s') → R s' ∧ (error = none → P s')
  | none, error, hrun => by
    cases hrun
    exact ⟨hP.weaken h, fun _ => h⟩
  | some below, error, hrun => by
    simp only [Loading.buildNext, bind_eq_ok, getBlock_eq_ok] at hrun
    obtain ⟨block, hblock, hrun⟩ := hrun
    split at hrun
    · cases hrun
      exact ⟨hP.weaken h, nofun⟩
    · rename_i socket hnext
      obtain ⟨hrefused, hbelow⟩ := Builds.buildTree hP h
        (hP.fits h hparent hblock (by simp [Block.connections, hnext])) hrun
      exact ⟨hrefused, fun herror => (hbelow herror).1⟩

end

end Builds

end Loading

/-- What plugging in does: nothing if it is refused, and else two connections are linked. -/
theorem attach_cases {socket : ConnectionId} {child : BlockId}
    (h : w.attach socket child = .ok (error, w')) : error ≠ none ∧ w' = w ∨ error = none ∧
      ∃ block superior, w.blocks[child]? = some block ∧ block.superior? = some superior ∧
        w.checkStructure socket superior = .ok none ∧ w.link socket superior = .ok w' := by
  simp only [attach, bind_eq_ok, getBlock_eq_ok] at h
  obtain ⟨block, hblock, h⟩ := h
  split at h
  · cases h
    exact .inl ⟨nofun, rfl⟩
  · rename_i superior hsuperior
    obtain ⟨answer, hgate, h⟩ := bind_eq_ok.1 h
    split at h
    · cases h
      exact .inl ⟨nofun, rfl⟩
    · obtain ⟨w1, hlink, h⟩ := bind_eq_ok.1 h
      cases h
      exact .inr ⟨rfl, block, superior, hblock, hsuperior, hgate, hlink⟩

/-- What plugging in one block keeps, plugging in some keeps. -/
theorem attachAll_induction (hstep : ∀ {w w' : Workspace} {socket : ConnectionId} {child : BlockId}
      {error : Option RecordError}, P w → w.attach socket child = .ok (error, w') → P w')
    {pending : List (ConnectionId × BlockId)} :
    ∀ {w w' : Workspace} {error : Option RecordError}, P w →
      w.attachAll pending = .ok (error, w') → P w' := by
  induction pending with
  | nil =>
    intro w w' error h hrun
    cases hrun
    exact h
  | cons entry rest ih =>
    intro w w' error h hrun
    obtain ⟨socket, child⟩ := entry
    simp only [attachAll, bind_eq_ok] at hrun
    obtain ⟨⟨refused, w1⟩, h1, hrun⟩ := hrun
    have hfirst := hstep h h1
    split at hrun
    · rename_i heq
      cases heq
      exact ih hfirst hrun
    · cases hrun
      exact hfirst

/-- A record is built in one batch, and brought up to date or discarded. -/
theorem fromRecord_cases (h : w.fromRecord record = .ok (answer, w')) :
    ∃ error created w1 w2, w.beginBatch.2.assemble record = .ok (error, created, w1) ∧
      ((error = none ∧ answer = .ok record.block.id ∧ w1.endBatch w.beginBatch.1 = .ok w2 ∧
          w2.refresh [record.block.id] = .ok w') ∨
        ∃ refusal, error = some refusal ∧ answer = .error refusal ∧ w1.discard created = .ok w2 ∧
          w2.endBatch w.beginBatch.1 = .ok w') := by
  simp only [fromRecord, bind_eq_ok] at h
  obtain ⟨⟨refused, created, w1⟩, h1, h⟩ := h
  split at h
  · rename_i heq
    cases heq
    simp only [bind_eq_ok] at h
    obtain ⟨w2, h2, w3, h3, h⟩ := h
    cases h
    exact ⟨none, created, w1, w2, h1, .inl ⟨rfl, rfl, h2, h3⟩⟩
  · rename_i heq
    cases heq
    simp only [bind_eq_ok] at h
    obtain ⟨w2, h2, w3, h3, h⟩ := h
    cases h
    exact ⟨_, created, w1, w2, h1, .inr ⟨_, rfl, rfl, h2, h3⟩⟩

/-- So do making a block, loading its fields and plugging it in. -/
structure RecordClosed (P : Workspace → Prop) : Prop where
  events : ∀ {w : Workspace} (events : Bus), P w → P { w with events }
  rename : ∀ {w w' : Workspace} {v : VariableId} {name : String}, P w →
    w.modifyVariable v ({ · with name }) = .ok w' → P w'
  newBlockWithId : ∀ {w w' : Workspace} {kind : Kind} {id : BlockId}, P w →
    w.newBlockWithId kind id = .ok w' → P w'
  loadField : ∀ {w w' : Workspace} {b : BlockId} {name : String} {value : Json}
    {error : Option RecordError}, P w → w.loadField b name value = .ok (error, w') → P w'
  loadProperties : ∀ {w w' : Workspace} {saved : SavedBlock}, P w →
    w.loadProperties saved = .ok w' → P w'
  attach : ∀ {w w' : Workspace} {socket : ConnectionId} {child : BlockId} {error :
    Option RecordError}, P w → w.attach socket child = .ok (error, w') → P w'

/-- So does reading a record, where the number of items is all that changes inputs. -/
structure FileClosed (P : Workspace → Prop) : Prop extends CheckClosed P, RecordClosed P where
  setItemCount : ∀ {w w' : Workspace} {b : BlockId} {count : Nat}, P w →
    w.setItemCount b count = .ok w' → P w'

namespace FileClosed

variable (hP : FileClosed P)
include hP

theorem renameVariable (h : P w) (hrun : w.renameVariable b field name = .ok w') :
    P w' := by
  obtain ⟨_, v, _, w1, -, -, -, h1, hrun⟩ := renameVariable_cases hrun
  exact hP.refresh (hP.events _ (hP.rename h h1)) hrun

theorem loadFields (h : P w) (hrun : w.loadFields b fields = .ok (error, w')) : P w' :=
  loadFields_induction hP.loadField h hrun

theorem build (h : P s.workspace) (hrun : s.build saved = .ok (error, s')) : P s'.workspace := by
  rcases Loading.build_cases hrun with ⟨rfl, -⟩ | ⟨kind, w1, w2, w3, w4, -, -, h1, h2, h3, h4, rfl⟩
  · exact h
  · have hloaded := hP.loadFields (loadState_induction hP.setItemCount (hP.newBlockWithId h h1) h2)
      h3
    rcases h4 with ⟨-, h4⟩ | ⟨-, rfl⟩
    · exact hP.loadProperties hloaded h4
    · exact hloaded

theorem builds : Loading.Builds (fun s => P s.workspace) (fun s => P s.workspace) (fun _ => True)
    fun _ _ _ => True where
  weaken := id
  build h hrun := hP.build h hrun
  await h hrun _ := by simpa using hP.build h hrun
  fits _ _ _ _ := trivial

theorem assemble (h : P w) (hrun : w.assemble record = .ok (error, created, w')) : P w' := by
  simp only [Workspace.assemble, bind_eq_ok] at hrun
  obtain ⟨⟨refused, s⟩, hs, hrun⟩ := hrun
  have hbuilt : P s.workspace := (hP.builds.buildTree (s := { workspace := w }) h trivial hs).1
  split at hrun
  · cases hrun
    exact hbuilt
  · obtain ⟨⟨refused', w1⟩, h1, hrun⟩ := bind_eq_ok.1 hrun
    cases hrun
    exact attachAll_induction hP.attach hbuilt h1

theorem endBatch (h : P w) {token : BatchToken} (hrun : w.endBatch token = .ok w') : P w' := by
  obtain ⟨events, -, hrun⟩ := bind_eq_ok.1 hrun
  cases hrun
  exact hP.events events h

theorem fromRecord (h : P w) (hrun : w.fromRecord record = .ok (answer, w')) : P w' := by
  obtain ⟨error, created, w1, w2, h1, ⟨-, -, h2, hrun⟩ | ⟨_, -, -, h2, hrun⟩⟩ :=
    fromRecord_cases hrun
  · exact hP.refresh (hP.endBatch (hP.assemble (hP.events _ h) h1) h2) hrun
  · exact hP.endBatch (hP.discard (hP.assemble (hP.events _ h) h1) h2) hrun

end FileClosed

structure LoadClosed (P : Workspace → Prop) : Prop extends InputClosed P, RecordClosed P

theorem LoadClosed.fileClosed (hP : LoadClosed P) : FileClosed P :=
  ⟨hP.toCheckClosed, hP.toRecordClosed, fun h hrun => hP.toInputClosed.setItemCount h hrun⟩

/-! ## Strides -/

/-- One of the steps that the procedures make between two refreshes. -/
inductive Stride (w : Workspace) : Workspace → Prop where
  | join {w' : Workspace} {a b i o : ConnectionId} {ca : Connection}
      (hgate : w.checkStructure a b = .ok none) (hca : w.connections[a]? = some ca)
      (hapart : ca.target ≠ some b) (horient : w.orient a b = .ok (i, o))
      (hrun : w.link i o = .ok w') : w.Stride w'
  | part {w' : Workspace} {c : ConnectionId} {joined : BlockId × BlockId}
      (hrun : w.unlink c true = .ok (joined, w')) : w.Stride w'
  | heal {w' : Workspace} {b : BlockId} {above next previous : ConnectionId}
      (habove : w.parentConnection? b = .ok (some above))
      (hbelow : w.below? b = .ok (some (next, previous)))
      (hrun : w.unplugHealing above next previous = .ok w') : w.Stride w'
  | erase {w' : Workspace} {b : BlockId} {doomed : List BlockId}
      (hrun : doomed.reverse.foldlM release w = .ok w') : w.Stride (w'.fire (.delete b doomed))
  | recheck {w' : Workspace} {c : ConnectionId} {connection : Connection} {check : Check}
      (hc : w.connections[c]? = some connection)
      (hrun : w.modifyConnection c ({ · with check }) = .ok w')
      (hpasses : ∀ t other, connection.target = some t → w'.connections[t]? = some other →
        Check.intersects check other.check = true) : w.Stride w'
  | expel {w1 w' : Workspace} {c : ConnectionId} {check : Check} {joined : BlockId × BlockId}
      (h1 : w.modifyConnection c ({ · with check }) = .ok w1)
      (hrun : w1.unlink c true = .ok (joined, w')) : w.Stride w'
  | appendInput {w' : Workspace} {b : BlockId} {kind : InputKind} {name : String} {check : Check}
      {index : Nat} (hrun : w.appendInput b kind name check = .ok (index, w')) : w.Stride w'
  | extend {w1 w' : Workspace} {b : BlockId} {kind : InputKind} {name : String} {check : Check}
      {index : Nat} {fields : List FieldDescriptor} {errors : List DescriptorError}
      (h1 : w.appendInput b kind name check = .ok (index, w1))
      (hrun : w1.extendFields b index fields = .ok (errors, w')) : w.Stride w'
  | dropInput {w1 w2 w' : Workspace} {b : BlockId} {block : Block} {index : Nat}
      (hblock : w.blocks[b]? = some block)
      (h1 : w.modifyBlock b (fun block => { block with inputs := block.inputs.eraseIdx index }) =
        .ok w1)
      (h2 : ((block.inputs[index]?.getD default).fields.filterMap (·.value.heldVariable?)).foldlM
        disposeVariable w1 = .ok w2)
      (hrun : (block.inputs[index]?.getD default).connection.toList.foldlM disposeConnection w2 =
        .ok w') :
      w.Stride w'
  | events (events : Bus) : w.Stride { w with events }
  | rename {w' : Workspace} {v : VariableId} {name : String}
      (hrun : w.modifyVariable v ({ · with name }) = .ok w') : w.Stride w'
  | newBlockWithId {w' : Workspace} {kind : Kind} {id : BlockId}
      (hrun : w.newBlockWithId kind id = .ok w') : w.Stride w'
  | loadField {w' : Workspace} {b : BlockId} {name : String} {value : Json}
      {error : Option RecordError} (hrun : w.loadField b name value = .ok (error, w')) : w.Stride w'
  | loadProperties {w' : Workspace} {saved : SavedBlock} (hrun : w.loadProperties saved = .ok w') :
    w.Stride w'
  | attach {w' : Workspace} {socket : ConnectionId} {child : BlockId} {error : Option RecordError}
      (hrun : w.attach socket child = .ok (error, w')) : w.Stride w'

/-- What strides and refreshes keep, every procedure keeps. -/
theorem LoadClosed.of_strides
    (hrefresh : ∀ {w w' : Workspace} {bs : List BlockId}, P w → w.refresh bs = .ok w' → P w')
    (hstride : ∀ {w w' : Workspace}, P w → w.Stride w' → P w') : LoadClosed P where
  refresh := hrefresh
  join h hgate hca hapart horient hrun := hstride h (.join hgate hca hapart horient hrun)
  part h hrun := hstride h (.part hrun)
  heal h habove hbelow hrun := hstride h (.heal habove hbelow hrun)
  erase h hrun := hstride h (.erase hrun)
  recheck h hc hrun hpasses := hstride h (.recheck hc hrun hpasses)
  expel h h1 hrun := hstride h (.expel h1 hrun)
  appendInput h hrun := hstride h (.appendInput hrun)
  extend h h1 hrun := hstride h (.extend h1 hrun)
  dropInput h hblock h1 h2 hrun := hstride h (.dropInput hblock h1 h2 hrun)
  events events h := hstride h (.events events)
  rename h hrun := hstride h (.rename hrun)
  newBlockWithId h hrun := hstride h (.newBlockWithId hrun)
  loadField h hrun := hstride h (.loadField hrun)
  loadProperties h hrun := hstride h (.loadProperties hrun)
  attach h hrun := hstride h (.attach hrun)

theorem LoadClosed.stride (hP : LoadClosed P) (h : P w) (hstride : w.Stride w') : P w' := by
  cases hstride with
  | join hgate hca hapart horient hrun => exact hP.join h hgate hca hapart horient hrun
  | part hrun => exact hP.part h hrun
  | heal habove hbelow hrun => exact hP.heal h habove hbelow hrun
  | erase hrun => exact hP.erase h hrun
  | recheck hc hrun hpasses => exact hP.recheck h hc hrun hpasses
  | expel h1 hrun => exact hP.expel h h1 hrun
  | appendInput hrun => exact hP.appendInput h hrun
  | extend h1 hrun => exact hP.extend h h1 hrun
  | dropInput hblock h1 h2 hrun => exact hP.dropInput h hblock h1 h2 hrun
  | events events => exact hP.events events h
  | rename hrun => exact hP.rename h hrun
  | newBlockWithId hrun => exact hP.newBlockWithId h hrun
  | loadField hrun => exact hP.loadField h hrun
  | loadProperties hrun => exact hP.loadProperties h hrun
  | attach hrun => exact hP.attach h hrun

end Workspace

end BlockGraph
