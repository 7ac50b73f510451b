import BlockGraph.Proofs.Events.Loading

/-!
# Following a run from its events

A call either tells what it does event by event, or opens a batch, tells it, and closes the batch
again (`InOrder.tells_run`).  Calls on the bus change no block.

`replica_follows` is the main statement: a listener that was there from the start can follow every
run from the events alone.  `Numbered.run` is about the numbers of blocks: the next number is never
in use.
-/

namespace BlockGraph.Workspace

variable {w w' : Workspace} {call : Call}

/-- A call tells what it does, at once or in a batch of its own. -/
theorem InOrder.tells_run (hw : w.InOrder) (hcall : call.Permitted w) (hbus : ¬ call.ConcernsBus)
    (h : call.run w = .ok w') : Tells w w' ∨
      ∃ w1 w2, Tells w.beginBatch.2 w1 ∧ w1.endBatch w.beginBatch.1 = .ok w2 ∧ Tells w2 w' := by
  rcases call.sorts with (hsort | hsort | hsort) | hsort | hsort | hsort
  · exact .inl ((inputClosed_tells w).run hsort (.refl hw) h)
  · cases call with
    | newBlock kind => exact .inl (hw.tells_newBlockWithId (newBlockWithId_of_newBlock h))
    | newBlockWithId kind id => exact .inl (hw.tells_newBlockWithId h)
    | renameVariable b field name => exact .inl (hw.tells_renameVariable h)
    | fromRecord record => exact .inr ((exists_answer h).elim fun _ => hw.exists_batch_fromRecord)
    | _ => exact hsort.elim
  · exact absurd hsort hbus
  · exact .inl (.of_retouches hw (hsort.retypes h).retouches)
  · refine .inl ?_
    cases call with
    | newValue b name =>
      cases h
      exact .of_keeps hw (keeps_newValue w b name) (quiet_newValue w b name)
    | newReference b name =>
      cases h
      exact .of_keeps hw (keeps_newReference w b name) (quiet_newReference w b name)
    | appendField b index field => exact .of_keeps hw (keeps_appendField h) (quiet_appendField h)
    | setFieldValue b name value =>
      exact Restyled.tells (.of_setFieldValue h) hw (·.frame_setField name value)
    | setDisabled b value | setCollapsed b value | setComment b value =>
      exact Restyled.tells (.of_change h) hw fun _ => rfl
    | moveBy b dx dy => exact hw.tells_moveBy h
    | resolveReferences b at? =>
      obtain ⟨_, h⟩ := exists_answer h
      exact .of_retouches hw (retouches_resolveReferences h)
    | rebind b =>
      obtain ⟨_, h⟩ := exists_answer h
      exact .of_retouches hw (retouches_rebind h)
    | _ => exact hsort.elim
  · refine .inl (.of_quiet hw (hw.run hcall h) ?_ ?_)
    all_goals cases call with
    | declareOutput b check =>
      first | exact quiet_declareOutput h | exact hw.sameScene_declareOutput h
    | declarePrevious b check =>
      first | exact quiet_declarePrevious h | exact hw.sameScene_declarePrevious h
    | declareNext b check => first | exact quiet_declareNext h | exact hw.sameScene_declareNext h
    | moveInput b name before => first | exact quiet_moveInput h | exact hw.sameScene_moveInput h
    | moveNumberedInput b source target =>
      first | exact quiet_moveNumberedInput h | exact hw.sameScene_moveNumberedInput h
    | _ => exact hsort.elim

/-! ## Numbers -/

theorem Numbered.run (hn : w.Numbered) (hw : w.InOrder) (hcall : call.Permitted w)
    (h : call.run w = .ok w') : w'.Numbered := by
  by_cases hbus : call.ConcernsBus
  · obtain ⟨events, rfl⟩ := hbus.exists_events h
    exact hn
  · obtain htells | ⟨w1, w2, hbegin, hend, htells⟩ := hw.tells_run hcall hbus h
    · exact htells.numbered hn
    · refine htells.numbered ?_
      obtain ⟨events, -, heq⟩ := bind_eq_ok.1 hend
      cases heq
      exact hbegin.numbered hn

/-! ## Replicas -/

/-- No event is fired from outside, and the bus is not switched off. -/
def Call.Unmuted : Call → Prop
  | fire _ => False
  | setEventsEnabled enabled => enabled = true
  | _ => True

/-- The workspaces that calls lead to while one listener, there from the start, hears everything. -/
inductive Observed : Workspace → Prop where
  | start (options : Options) : Observed (Workspace.new options).subscribe.2
  | call {w w' : Workspace} (call : Call) (hw : Observed w) (hcall : call.Permitted w)
      (hheard : call.Unmuted) (hrun : call.run w = .ok w') : Observed w'

theorem Observed.foldlM (hw : w.Observed) {calls : List Call}
    (hcalls : ∀ call ∈ calls, call.Unmuted ∧ ∀ w, call.Permitted w)
    (h : calls.foldlM Call.run w = .ok w') : w'.Observed :=
  foldlM_induction (fun call hcall v _ hv hrun =>
    hv.call call ((hcalls call hcall).2 v) (hcalls call hcall).1 hrun) hw h

/-- The bus shows the entries of a workspace in order. -/
structure Followed (w : Workspace) : Prop where
  inOrder : w.InOrder
  shows : w.events.Shows Replica.observer .empty w.entryOf?

theorem Followed.tells (h : w.Followed) (htells : Tells w w') : w'.Followed := by
  obtain ⟨events, heq, hleads⟩ := htells.told
  refine ⟨htells.inOrder, ?_⟩
  rw [heq]
  exact h.shows.fireAll (Replica.leads_iff.2 hleads)

theorem Followed.beginBatch (h : w.Followed) : w.beginBatch.2.Followed :=
  ⟨⟨h.inOrder.formed, h.inOrder.checked, h.inOrder.sound⟩, h.shows.beginBatch⟩

theorem Followed.endBatch (h : w.Followed) {token : BatchToken} (hend : w.endBatch token = .ok w') :
    w'.Followed := by
  refine ⟨h.inOrder.keeps (keeps_endBatch hend), ?_⟩
  obtain ⟨events, hevents, heq⟩ := bind_eq_ok.1 hend
  cases heq
  exact h.shows.endBatch Replica.robust hevents

/-- One call leaves the bus showing the entries of the workspace. -/
theorem Followed.run (h : w.Followed) (hcall : call.Permitted w) (hheard : call.Unmuted)
    (hrun : call.run w = .ok w') : w'.Followed := by
  by_cases hbus : call.ConcernsBus
  · cases call with
    | subscribe =>
      cases hrun
      exact ⟨⟨h.inOrder.formed, h.inOrder.checked, h.inOrder.sound⟩, h.shows.subscribe⟩
    | setEventsEnabled enabled =>
      cases hrun
      obtain ⟨-, hlistening, hidle, htold⟩ := h.shows
      exact ⟨⟨h.inOrder.formed, h.inOrder.checked, h.inOrder.sound⟩, hheard, hlistening,
        hidle, htold⟩
    | fire event => exact hheard.elim
    | beginBatch =>
      cases hrun
      exact h.beginBatch
    | endBatch token => exact h.endBatch hrun
    | _ => exact hbus.elim
  · obtain htells | ⟨w1, w2, hbegin, hend, htells⟩ := h.inOrder.tells_run hcall hbus hrun
    · exact h.tells htells
    · exact ((h.beginBatch.tells hbegin).endBatch hend).tells htells

theorem Observed.followed (hw : w.Observed) : w.Followed := by
  induction hw with
  | start options =>
    have hnew := InOrder.new options
    refine ⟨⟨hnew.formed, hnew.checked, hnew.sound⟩, rfl, Nat.one_pos, fun _ => rfl, .empty, ?_, ?_⟩
    · exact Observer.leads_nil.2 rfl
    · refine Observer.leads_nil.2 (funext fun b => ?_)
      rw [entryOf?_eq_none_iff.2 (by simp [Workspace.subscribe, Workspace.new])]
      rfl
  | call call hw hcall hheard hrun ih => exact ih.run hcall hheard hrun

/-- **An observer can follow the trees from the events alone.**  Each event that reaches the first
listener fits what the events before it have told, and whenever no batch is open they have told the
kind, the parent and the input of every block. -/
theorem replica_follows (hw : w.Observed) : Replica.empty.Tracks (w.events.heard 0) ∧
      (w.events.depth = 0 → Replica.empty.run (w.events.heard 0) = w.entryOf?) := by
  have hshows := hw.followed.shows
  obtain ⟨m0, hheard, -⟩ := hshows.told
  exact ⟨(Replica.leads_iff.1 hheard).1, fun hdepth =>
    (Replica.leads_iff.1 (hshows.told_of_idle hdepth)).2⟩

/-- Three prints in a stack, the first of a number.  In a batch the one in the middle is deleted,
the stack closes behind it, and a record is refused. -/
def shortenedStack : Except Fault Workspace :=
  [Call.newBlock .printValue, .newBlock .printValue, .newBlock .printValue, .newBlock .intLiteral,
    .connect ⟨1⟩ ⟨3⟩, .connect ⟨4⟩ ⟨6⟩, .connect ⟨2⟩ ⟨9⟩, .beginBatch, .delete ⟨2⟩,
    .fromRecord (.node { tag := "logic_negate", id := ⟨7⟩ }
      [("BOOL", .node { tag := "print_value", id := ⟨8⟩ } [] none)] none),
    .endBatch ⟨1⟩].foldlM Call.run (Workspace.new {}).subscribe.2

theorem replica_follows_shortenedStack :
    ∃ w, shortenedStack = .ok w ∧ w.blockIds = [⟨1⟩, ⟨3⟩, ⟨4⟩] ∧ (w.events.heard 0).length = 15 ∧
      w.entryOf? ⟨3⟩ = some ⟨.printValue, some ⟨1⟩, none⟩ ∧
      w.entryOf? ⟨4⟩ = some ⟨.intLiteral, some ⟨1⟩, some "VALUE"⟩ ∧
      Replica.empty.Tracks (w.events.heard 0) ∧
      Replica.empty.run (w.events.heard 0) = w.entryOf? := by
  obtain ⟨w, hrun, hdepth, hids, hlength, h3, h4⟩ : ∃ w, shortenedStack = .ok w ∧
      w.events.depth = 0 ∧ w.blockIds = [⟨1⟩, ⟨3⟩, ⟨4⟩] ∧ (w.events.heard 0).length = 15 ∧
      w.entryOf? ⟨3⟩ = some ⟨.printValue, some ⟨1⟩, none⟩ ∧
      w.entryOf? ⟨4⟩ = some ⟨.intLiteral, some ⟨1⟩, some "VALUE"⟩ :=
      exists_ok_of_any (by decide +kernel)
  have hw : w.Observed := (Observed.start {}).foldlM (by simp [Call.Unmuted, Call.Permitted]) hrun
  obtain ⟨htracks, hshown⟩ := replica_follows hw
  exact ⟨w, hrun, hids, hlength, h3, h4, htracks, hshown hdepth⟩

end BlockGraph.Workspace
