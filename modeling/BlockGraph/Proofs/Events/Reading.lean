import BlockGraph.Proofs.Fault

/-!
# Observers

An observer that never looks at a workspace makes what it can of the events (`Observer`): an event
leads it from what it knows to what it knows then, and an event that does not fit leads nowhere.

Batches do not matter to an observer that takes a merged change for the two changes it was merged
from, and that learns nothing from an event without a difference (`Observer.Robust`).  Events that
were coalesced lead it to the same knowledge (`Observer.Robust.coalesce`), so what was delivered and
what is pending together show one state all along (`Bus.Shows`), which firing an event changes as
the event says (`Bus.Shows.fire`) and opening and closing batches does not change
(`Bus.Shows.beginBatch`, `Bus.Shows.endBatch`).
-/

namespace BlockGraph

/-- What one makes of events. -/
structure Observer (σ : Type) where
  Step : σ → Event → σ → Prop

variable {σ : Type} {O : Observer σ} {m m' m'' start : σ} {event : Event} {events : List Event}

namespace Observer

/-- Events lead from one state of knowledge to another, one after the other. -/
def Leads (O : Observer σ) : σ → List Event → σ → Prop
  | m, [], m' => m = m'
  | m, event :: events, m' => ∃ m1, O.Step m event m1 ∧ O.Leads m1 events m'

theorem leads_nil : O.Leads m [] m' ↔ m = m' := .rfl

theorem leads_cons : O.Leads m (event :: events) m' ↔ ∃ m1, O.Step m event m1 ∧
    O.Leads m1 events m' := .rfl

theorem leads_singleton : O.Leads m [event] m' ↔ O.Step m event m' := by
  simp [leads_cons, leads_nil]

theorem leads_append {l l' : List Event} :
    O.Leads m (l ++ l') m'' ↔ ∃ m', O.Leads m l m' ∧ O.Leads m' l' m'' := by
  induction l generalizing m with
  | nil => simp [leads_nil]
  | cons event l ih =>
    simp only [List.cons_append, leads_cons, ih]
    constructor
    · rintro ⟨m1, hevent, m', hl, hl'⟩
      exact ⟨m', ⟨m1, hevent, hl⟩, hl'⟩
    · rintro ⟨m', ⟨m1, hevent, hl⟩, hl'⟩
      exact ⟨m1, hevent, m', hl, hl'⟩

theorem leads_concat : O.Leads m (events ++ [event]) m'' ↔ ∃ m', O.Leads m events m' ∧
    O.Step m' event m'' := by
  simp only [leads_append, leads_singleton]

/-! ## Coalescing -/

/-- What coalescing takes for granted. -/
structure Robust (O : Observer σ) : Prop where
  merge : ∀ {m m' m'' : σ} {b : BlockId} {p : Property} {old new old' new' : String},
    O.Step m (.change b p old new) m' → O.Step m' (.change b p old' new') m'' →
      O.Step m (.change b p old new') m''
  null : ∀ {m m' : σ} {event : Event}, event.isNull = true → O.Step m event m' → m' = m

namespace Robust

variable (hO : O.Robust) {latest : List Event}
include hO

theorem absorb (h : O.Leads m (latest.reverse ++ [event]) m') :
    O.Leads m (Event.absorb latest event).reverse m' := by
  unfold Event.absorb
  split
  · rename_i b p old new rest b' p' old' new'
    split
    · rename_i hsame
      obtain ⟨rfl, rfl⟩ := hsame
      simp only [List.reverse_cons, leads_concat] at h ⊢
      obtain ⟨m2, ⟨m1, hrest, hfirst⟩, hsecond⟩ := h
      exact ⟨m1, hrest, hO.merge hfirst hsecond⟩
    · simpa using h
  · simpa using h

theorem foldl_absorb (h : O.Leads m (latest.reverse ++ events) m') :
    O.Leads m (events.foldl Event.absorb latest).reverse m' := by
  induction events generalizing latest with
  | nil => simpa using h
  | cons event events ih =>
    rw [List.append_cons, leads_append] at h
    obtain ⟨m1, hlatest, hevents⟩ := h
    exact ih (leads_append.2 ⟨m1, hO.absorb hlatest, hevents⟩)

theorem filter (h : O.Leads m events m') : O.Leads m (events.filter fun e => !e.isNull) m' := by
  induction events generalizing m with
  | nil => exact h
  | cons event events ih =>
    obtain ⟨m1, hevent, hrest⟩ := leads_cons.1 h
    cases hnull : event.isNull with
    | true =>
      rw [hO.null hnull hevent] at hrest
      rw [List.filter_cons_of_neg (by simp [hnull])]
      exact ih hrest
    | false =>
      rw [List.filter_cons_of_pos (by simp [hnull])]
      exact leads_cons.2 ⟨m1, hevent, ih hrest⟩

/-- Events that were coalesced lead to the same knowledge. -/
theorem coalesce (h : O.Leads m events m') : O.Leads m (Event.coalesce events) m' :=
  hO.filter (hO.foldl_absorb h)

end Robust

end Observer

/-! ## What is delivered -/

namespace Bus

variable {bus bus' : Bus} {listener : Nat}

/-- The events that reached a listener. -/
def heard (bus : Bus) (listener : Nat) : List Event :=
  bus.delivered.filterMap fun d => if d.listener = listener then some d.event else none

/-- An event reaches every listener once. -/
theorem heard_deliver (h : listener < bus.listeners) (event : Event) :
    (bus.deliver event).heard listener = bus.heard listener ++ [event] := by
  have hrange : ∀ n, ((List.range n).map (Delivery.mk · event)).filterMap
      (fun d => if d.listener = listener then some d.event else none) =
        if listener < n then [event] else [] := by
    intro n
    induction n with
    | zero => rfl
    | succ n ih =>
      rw [List.range_succ, List.map_append, List.filterMap_append, ih]
      by_cases hn : n = listener
      · simp [hn]
      · have : listener < n + 1 ↔ listener < n := by omega
        simp [hn, this]
  rw [heard, deliver, List.filterMap_append, hrange, if_pos h]
  rfl

theorem heard_foldl_deliver (events : List Event) (h : listener < bus.listeners) :
    (events.foldl deliver bus).heard listener = bus.heard listener ++ events := by
  induction events generalizing bus with
  | nil => exact (List.append_nil _).symm
  | cons event events ih =>
    have hrest : (events.foldl deliver (bus.deliver event)).heard listener = _ := ih h
    rw [List.foldl_cons, hrest, heard_deliver h, List.append_assoc, List.singleton_append]

/-- What the first listener was told leads an observer to one state, and what is pending to
another. -/
structure Shows (bus : Bus) (O : Observer σ) (start m : σ) : Prop where
  enabled : bus.enabled = true
  listening : 0 < bus.listeners
  idle : bus.depth = 0 → bus.pending = []
  told : ∃ m0, O.Leads start (bus.heard 0) m0 ∧ O.Leads m0 bus.pending m

namespace Shows

section

variable (h : bus.Shows O start m)
include h

theorem subscribe : bus.subscribe.2.Shows O start m :=
  ⟨h.enabled, Nat.succ_pos _, h.idle, h.told⟩

/-- Without a batch nothing is pending. -/
theorem told_of_idle (hdepth : bus.depth = 0) : O.Leads start (bus.heard 0) m := by
  obtain ⟨m0, hheard, hpending⟩ := h.told
  rw [h.idle hdepth, Observer.leads_nil] at hpending
  exact hpending ▸ hheard

theorem deliver (hidle : bus.pending = []) (hevent : O.Step m event m') :
    (bus.deliver event).Shows O start m' where
  enabled := h.enabled
  listening := h.listening
  idle := h.idle
  told := by
    obtain ⟨m0, hheard, hpending⟩ := h.told
    rw [hidle, Observer.leads_nil] at hpending
    subst hpending
    refine ⟨m', ?_, ?_⟩
    · rw [heard_deliver h.listening]
      exact Observer.leads_concat.2 ⟨m0, hheard, hevent⟩
    · rw [show (bus.deliver event).pending = [] from hidle]
      exact Observer.leads_nil.2 rfl

/-- An event that was fired is told at once or pending. -/
theorem fire (hevent : O.Step m event m') : (bus.fire event).Shows O start m' := by
  simp only [Bus.fire, h.enabled, Bool.not_true, Bool.false_eq_true, if_false]
  split
  · rename_i hdepth
    obtain ⟨m0, hheard, hpending⟩ := h.told
    exact ⟨rfl, h.listening, fun hzero => absurd hzero (Nat.pos_iff_ne_zero.1 hdepth), m0, hheard,
      Observer.leads_concat.2 ⟨m, hpending, hevent⟩⟩
  · rename_i hdepth
    exact h.deliver (h.idle (by omega)) hevent

end

/-- A list of events reaches the listener one by one. -/
theorem foldl {f : Bus → Event → Bus} {P : Bus → Prop}
    (hf : ∀ {bus : Bus} {m m' : σ} {event : Event}, bus.Shows O start m → P bus →
      O.Step m event m' → (f bus event).Shows O start m' ∧ P (f bus event)) :
    ∀ {bus : Bus} {m : σ}, bus.Shows O start m → P bus → O.Leads m events m' →
      (events.foldl f bus).Shows O start m' := by
  induction events with
  | nil =>
    intro bus m h _ hevents
    exact Observer.leads_nil.1 hevents ▸ h
  | cons event events ih =>
    intro bus m h hP hevents
    obtain ⟨m1, hevent, hrest⟩ := Observer.leads_cons.1 hevents
    obtain ⟨hshows, hP'⟩ := hf h hP hevent
    exact ih hshows hP' hrest

theorem fireAll (h : bus.Shows O start m) (hevents : O.Leads m events m') :
    (events.foldl Bus.fire bus).Shows O start m' :=
  h.foldl (P := fun _ => True) (fun h _ hevent => ⟨h.fire hevent, trivial⟩) trivial hevents

theorem deliverAll (h : bus.Shows O start m) (hidle : bus.pending = [])
    (hevents : O.Leads m events m') :
    (events.foldl Bus.deliver bus).Shows O start m' :=
  h.foldl (P := fun bus => bus.pending = []) (fun h hidle hevent => ⟨h.deliver hidle hevent, hidle⟩)
    hidle hevents

theorem beginBatch (h : bus.Shows O start m) : bus.beginBatch.2.Shows O start m :=
  ⟨h.enabled, h.listening, fun hzero => absurd hzero (Nat.succ_ne_zero _), h.told⟩

/-- Closing a batch tells what was pending, or leaves it to the batch around. -/
theorem endBatch (hO : O.Robust) (h : bus.Shows O start m) {token : BatchToken}
    (hend : bus.endBatch token = .ok bus') : bus'.Shows O start m := by
  obtain ⟨m0, hheard, hpending⟩ := h.told
  simp only [Bus.endBatch] at hend
  split at hend
  · split at hend
    · cases hend
      have hstart : ({ bus with depth := bus.depth - 1, pending := [] } : Bus).Shows O start m0 :=
        ⟨h.enabled, h.listening, fun _ => rfl, m0, hheard, Observer.leads_nil.2 rfl⟩
      exact hstart.deliverAll rfl (hO.coalesce hpending)
    · rename_i hdepth
      cases hend
      exact ⟨h.enabled, h.listening, fun hzero => absurd hzero hdepth, m0, hheard, hpending⟩
  · cases hend

end Shows

end Bus

end BlockGraph
