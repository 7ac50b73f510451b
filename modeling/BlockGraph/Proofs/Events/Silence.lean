import Mathlib.Data.List.Induction
import BlockGraph.Proofs.Events.Reading

/-!
# When a bus that is switched off speaks

To switch a bus off keeps events from being taken in (`Bus.fire`); it does not keep those that wait
from being handed out.  So a call made while the bus is off reaches a listener in one case only: it
closes the outermost batch, and events that were fired in it before the bus was switched off are
still waiting (`Bus.delivers_when_off_iff`).
-/

namespace BlockGraph.Bus

variable {bus bus' : Bus} {event : Event} {calls : List Call}

/-- What a bus can be asked for. -/
inductive Call where
  | subscribe
  | fire (event : Event)
  | setEnabled (enabled : Bool)
  | beginBatch
  | endBatch (token : BatchToken)

/-- The bus after a call.  A batch that is not the innermost one cannot be closed. -/
def Call.run (bus : Bus) : Call → Except Fault Bus
  | subscribe => .ok bus.subscribe.2
  | fire event => .ok (bus.fire event)
  | setEnabled enabled => .ok (bus.setEnabled enabled)
  | beginBatch => .ok bus.beginBatch.2
  | endBatch token => bus.endBatch token

/-- The call closes the only open batch. -/
def Call.ClosesLast (bus : Bus) (call : Call) : Prop := bus.depth = 1 ∧
  ∃ token, call = endBatch token

/-! ## Closing a batch -/

theorem endBatch_cases {token : BatchToken} (h : bus.endBatch token = .ok bus') :
    bus.depth ≤ 1 ∧ bus' = (Event.coalesce bus.pending).foldl deliver
        { bus with depth := bus.depth - 1, pending := [] } ∨
      1 < bus.depth ∧ bus' = { bus with depth := bus.depth - 1 } := by
  simp only [endBatch] at h
  split at h
  · split at h
    · rename_i hlast
      cases h
      exact .inl ⟨by omega, rfl⟩
    · rename_i hlast
      cases h
      exact .inr ⟨by omega, rfl⟩
  · cases h

theorem pending_foldl_deliver (events : List Event) (bus : Bus) :
    (events.foldl deliver bus).pending = bus.pending := by
  induction events generalizing bus with
  | nil => rfl
  | cons event events ih => exact ih (bus.deliver event)

theorem delivered_foldl_deliver (events : List Event) (bus : Bus) :
    (events.foldl deliver bus).delivered = bus.delivered ++ events.flatMap fun event =>
    (List.range bus.listeners).map (⟨·, event⟩) := by
  induction events generalizing bus with
  | nil => simp
  | cons event events ih =>
    rw [List.foldl_cons, ih, List.flatMap_cons, ← List.append_assoc]
    rfl

/-- Somebody hears something when there is somebody and something. -/
theorem delivered_foldl_deliver_ne_iff (events : List Event) (bus : Bus) :
    (events.foldl deliver bus).delivered ≠ bus.delivered ↔ 0 < bus.listeners ∧ events ≠ [] := by
  rw [delivered_foldl_deliver]
  cases events with
  | nil => simp
  | cons event events =>
    by_cases hnobody : bus.listeners = 0
    · simp [hnobody]
    · simp [hnobody, Nat.pos_of_ne_zero hnobody]

/-! ## Where what waits comes from -/

/-- The event was fired at some time of a run, in a batch and while the bus was on. -/
def TakenIn (calls : List Call) (event : Event) : Prop :=
  ∃ before after bus, calls = before ++ .fire event :: after ∧
    before.foldlM Call.run empty = .ok bus ∧ bus.enabled = true ∧ 0 < bus.depth

theorem TakenIn.concat (h : TakenIn calls event) (call : Call) :
    TakenIn (calls ++ [call]) event := by
  obtain ⟨before, after, bus, rfl, h⟩ := h
  exact ⟨before, after ++ [call], bus, by simp, h⟩

/-- What waits was taken in, and without a batch nothing waits. -/
structure Keeps (calls : List Call) (bus : Bus) : Prop where
  idle : bus.depth = 0 → bus.pending = []
  origin : ∀ event ∈ bus.pending, TakenIn calls event

theorem Keeps.call (hrun : calls.foldlM Call.run empty = .ok bus) (h : Keeps calls bus)
    {call : Call} (hcall : call.run bus = .ok bus') : Keeps (calls ++ [call]) bus' := by
  have horigin : ∀ event ∈ bus.pending, TakenIn (calls ++ [call]) event := fun event hevent =>
    (h.origin event hevent).concat call
  cases call with
  | subscribe =>
    cases hcall
    exact ⟨h.idle, horigin⟩
  | setEnabled enabled =>
    cases hcall
    exact ⟨h.idle, horigin⟩
  | beginBatch =>
    cases hcall
    exact ⟨fun hzero => absurd hzero (Nat.succ_ne_zero _), horigin⟩
  | fire event =>
    cases hcall
    unfold Bus.fire
    split
    · exact ⟨h.idle, horigin⟩
    · rename_i hon
      split
      · rename_i hdepth
        refine ⟨fun hzero => absurd hzero (Nat.ne_of_gt hdepth), fun e he => ?_⟩
        rcases List.mem_append.1 he with he | he
        · exact horigin e he
        · cases List.mem_singleton.1 he
          exact ⟨calls, [], bus, rfl, hrun, by simpa using hon, hdepth⟩
      · exact ⟨h.idle, horigin⟩
  | endBatch token =>
    rcases endBatch_cases hcall with ⟨-, rfl⟩ | ⟨hdepth, rfl⟩
    · have hnone : ((Event.coalesce bus.pending).foldl deliver
          { bus with depth := bus.depth - 1, pending := [] }).pending = [] :=
          pending_foldl_deliver _ _
      exact ⟨fun _ => hnone, fun e he => by rw [hnone] at he; cases he⟩
    · refine ⟨fun hzero => ?_, horigin⟩
      have hzero : bus.depth - 1 = 0 := hzero
      omega

theorem keeps_of_run (h : calls.foldlM Call.run empty = .ok bus) : Keeps calls bus := by
  induction calls using List.reverseRecOn generalizing bus with
  | nil =>
    cases h
    exact ⟨fun _ => rfl, fun _ he => by cases he⟩
  | append_singleton calls call ih =>
    rw [List.foldlM_append, bind_eq_ok] at h
    obtain ⟨bus1, h1, h⟩ := h
    rw [List.foldlM_cons, bind_eq_ok] at h
    obtain ⟨bus2, hcall, h⟩ := h
    cases h
    exact (ih h1).call h1 hcall

/-! ## Calls made while the bus is off -/

theorem eq_of_closesLast {call : Call} (h : call.ClosesLast bus) (hcall : call.run bus = .ok bus') :
    bus' = (Event.coalesce bus.pending).foldl deliver { bus with depth := 0, pending := [] } := by
  obtain ⟨hdepth, token, rfl⟩ := h
  rcases endBatch_cases hcall with ⟨-, rfl⟩ | ⟨hmore, -⟩
  · rw [hdepth]
  · omega

theorem delivered_of_not_closesLast {call : Call} (hidle : bus.depth = 0 → bus.pending = [])
    (hoff : bus.enabled = false) (h : ¬ call.ClosesLast bus) (hcall : call.run bus = .ok bus') :
    bus'.delivered = bus.delivered := by
  cases call with
  | subscribe =>
    cases hcall
    rfl
  | setEnabled enabled =>
    cases hcall
    rfl
  | beginBatch =>
    cases hcall
    rfl
  | fire event =>
    cases hcall
    simp [Bus.fire, hoff]
  | endBatch token =>
    rcases endBatch_cases hcall with ⟨hle, rfl⟩ | ⟨-, rfl⟩
    · have hdepth : bus.depth ≠ 1 := fun hone => h ⟨hone, token, rfl⟩
      rw [hidle (by omega)]
      rfl
    · rfl

/-- A call that is made while the bus is off reaches a listener exactly if it closes the outermost
batch, there is a listener, and what waits does not coalesce to nothing.  The listeners then hear
what waits, coalesced, and all of it was fired while the bus was on. -/
theorem delivers_when_off_iff {calls : List Call} {call : Call}
    (hrun : calls.foldlM Call.run empty = .ok bus) (hoff : bus.enabled = false)
    (hcall : call.run bus = .ok bus') :
    (bus'.delivered ≠ bus.delivered ↔
        call.ClosesLast bus ∧ 0 < bus.listeners ∧ Event.coalesce bus.pending ≠ []) ∧
      (call.ClosesLast bus → ∀ listener < bus.listeners,
        bus'.heard listener = bus.heard listener ++ Event.coalesce bus.pending) ∧
      ∀ event ∈ bus.pending, TakenIn calls event := by
  have hkeeps := keeps_of_run hrun
  refine ⟨?_, fun hlast listener hlistener => ?_, hkeeps.origin⟩
  · by_cases hlast : call.ClosesLast bus
    · rw [eq_of_closesLast hlast hcall, and_iff_right hlast]
      exact delivered_foldl_deliver_ne_iff _ _
    · have hsilent := delivered_of_not_closesLast hkeeps.idle hoff hlast hcall
      exact ⟨fun hne => absurd hsilent hne, fun h => absurd h.1 hlast⟩
  · rw [eq_of_closesLast hlast hcall]
    exact heard_foldl_deliver _ hlistener

/-- A number changes in a batch, the bus is switched off, and the batch is closed. -/
theorem delivers_when_off_iff_closedBatch :
    let change : Event := .change ⟨1⟩ { element := .field, name := some "NUM" } "0" "1"
    let calls : List Call := [.subscribe, .beginBatch, .fire change, .setEnabled false]
    ∃ bus bus', calls.foldlM Call.run empty = .ok bus ∧ bus.enabled = false ∧
      Call.run bus (.endBatch ⟨1⟩) = .ok bus' ∧ bus'.delivered ≠ bus.delivered ∧
      bus'.heard 0 = bus.heard 0 ++ [change] := by
  intro change calls
  have hrun : calls.foldlM Call.run empty =
      .ok { listeners := 1, enabled := false, depth := 1, pending := [change] } := rfl
  have hcall : Call.run { listeners := 1, enabled := false, depth := 1, pending := [change] }
      (.endBatch ⟨1⟩) = .ok { listeners := 1, enabled := false, delivered := [⟨0, change⟩] } := rfl
  obtain ⟨hiff, hheard, -⟩ := delivers_when_off_iff hrun rfl hcall
  exact ⟨_, _, hrun, rfl, hcall, hiff.2 ⟨⟨rfl, _, rfl⟩, Nat.one_pos, List.cons_ne_nil _ _⟩,
    hheard ⟨rfl, _, rfl⟩ 0 Nat.one_pos⟩

end BlockGraph.Bus
