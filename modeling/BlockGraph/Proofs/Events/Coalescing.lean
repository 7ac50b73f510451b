import Mathlib.Data.List.Chain
import Mathlib.Data.List.Forall2
import Mathlib.Logic.Function.Basic
import BlockGraph.Proofs.Events.Reading

/-!
# What coalescing keeps

Someone who keeps the text of every property (`Store`) can replay a list of events if each change
starts from the text that is there (`Store.Chained`).  Coalescing a batch takes nothing from that:
the coalesced events can be replayed too, and end in the same store (`Store.replay_coalesce`).

`Event.coalesce` is described without its two passes: the events are cut into runs, a run is one
event or consecutive changes of one property, each run becomes the event it amounts to
(`Event.Merges`), and of these the ones that tell of nothing are left out (`Event.exists_runs`).  So
events that are no changes keep their place among those that are.

Before events are left out no two neighbours are changes of one property (`Event.Settled`); to leave
out what stood between two of them can make them neighbours.  `Event.settled_coalesce_iff` says when
that happens.
-/

namespace BlockGraph

variable {event : Event} {events latest : List Event} {runs : List (List Event)}

namespace Event

/-- Whether an event is a change of a property. -/
def isChange : Event → Bool
  | change _ _ _ _ => true
  | _ => false

/-- What a run of events amounts to: one event to itself, and changes of one property to the change
from the first text to the last. -/
inductive Merges : List Event → Event → Prop where
  | one (event : Event) : Merges [event] event
  | more {run : List Event} {b : BlockId} {p : Property} {old new : String} (old' new' : String)
      (h : Merges run (change b p old new)) : Merges (run ++ [change b p old' new'])
      (change b p old new')

theorem Merges.filter_isChange {run : List Event} (h : Merges run event) :
    run.filter (fun e => !e.isChange) = [event].filter fun e => !e.isChange := by
  induction h with
  | one event => rfl
  | more old' new' h ih =>
    rw [List.filter_append, ih]
    rfl

/-- One more event goes into the latest run or starts a run. -/
theorem exists_runs_absorb (h : List.Forall₂ Merges runs latest) (event : Event) : ∃ runs',
      List.Forall₂ Merges runs' (absorb latest event) ∧
      runs'.reverse.flatten = runs.reverse.flatten ++ [event] := by
  have hnew : ∃ runs', List.Forall₂ Merges runs' (event :: latest) ∧
      runs'.reverse.flatten = runs.reverse.flatten ++ [event] :=
    ⟨[event] :: runs, .cons (.one event) h, by simp⟩
  unfold absorb
  split
  · rename_i b p old new rest b' p' old' new'
    split
    · rename_i hsame
      obtain ⟨rfl, rfl⟩ := hsame
      obtain ⟨run, runs, hrun, hruns, rfl⟩ := List.forall₂_cons_right_iff.1 h
      exact ⟨_ :: runs, .cons (hrun.more old' new') hruns, by simp⟩
    · exact hnew
  · exact hnew

theorem exists_runs_foldl (events : List Event) (h : List.Forall₂ Merges runs latest) :
    ∃ runs', List.Forall₂ Merges runs' (events.foldl absorb latest) ∧
      runs'.reverse.flatten = runs.reverse.flatten ++ events := by
  induction events generalizing latest runs with
  | nil => exact ⟨runs, h, (List.append_nil _).symm⟩
  | cons event events ih =>
    obtain ⟨runs1, h1, hflatten1⟩ := exists_runs_absorb h event
    obtain ⟨runs', h', hflatten'⟩ := ih h1
    exact ⟨runs', h', by rw [hflatten', hflatten1, List.append_assoc, List.singleton_append]⟩

/-- The events with consecutive changes of one property merged, those that tell of nothing still
among them. -/
def merge (events : List Event) : List Event := (events.foldl absorb []).reverse

theorem exists_runs_merge (events : List Event) : ∃ runs, runs.flatten = events ∧
    List.Forall₂ Merges runs (merge events) := by
  obtain ⟨runs, hruns, hflatten⟩ := exists_runs_foldl events List.Forall₂.nil
  exact ⟨runs.reverse, hflatten, List.forall₂_reverse_iff.2 hruns⟩

/-- Coalescing cuts the events into runs, and keeps what the runs amount to where that is
something. -/
theorem exists_runs (events : List Event) : ∃ runs merged, runs.flatten = events ∧
    List.Forall₂ Merges runs merged ∧ coalesce events = merged.filter fun e => !e.isNull := by
  obtain ⟨runs, hflatten, hruns⟩ := exists_runs_merge events
  exact ⟨runs, merge events, hflatten, hruns, rfl⟩

theorem filter_isChange_of_merges {merged : List Event} (h : List.Forall₂ Merges runs merged) :
    merged.filter (fun e => !e.isChange) = runs.flatten.filter fun e => !e.isChange := by
  induction h with
  | nil => rfl
  | cons hrun _ ih =>
    rw [List.flatten_cons, List.filter_append, hrun.filter_isChange, ← ih, ← List.filter_append]
    rfl

/-! ## What is left to merge -/

/-- Both events are changes of one property. -/
def SameProperty : Event → Event → Prop
  | change b p _ _, change b' p' _ _ => b = b' ∧ p = p'
  | _, _ => False

theorem SameProperty.symm {e f : Event} (h : e.SameProperty f) : f.SameProperty e := by
  cases e <;> cases f <;> first | exact ⟨h.1.symm, h.2.symm⟩ | exact h

/-- No two neighbours are changes of one property. -/
def Settled (events : List Event) : Prop := events.IsChain fun e f => ¬ e.SameProperty f

theorem settled_reverse : Settled events.reverse ↔ Settled events := by
  rw [Settled, List.isChain_reverse]
  exact ⟨fun h => h.imp fun _ _ hne hsame => hne hsame.symm,
    fun h => h.imp fun _ _ hne hsame => hne hsame.symm⟩

theorem absorb_of_settled (h : Settled (event :: latest)) :
    absorb latest event = event :: latest := by
  unfold absorb
  split
  · rename_i b p old new rest b' p' old' new'
    rw [if_neg]
    rintro ⟨rfl, rfl⟩
    exact (List.isChain_cons_cons.1 h).1 ⟨rfl, rfl⟩
  · rfl

/-- To merge a change into the latest one changes no property, so the neighbours stay apart. -/
theorem settled_absorb (h : Settled latest) (event : Event) :
    Settled (absorb latest event) := by
  by_cases hnew : Settled (event :: latest)
  · rwa [absorb_of_settled hnew]
  · unfold absorb
    split
    · rename_i b p old new rest b' p' old' new'
      split
      · cases rest with
        | nil => exact .singleton _
        | cons next rest =>
          obtain ⟨hhead, hrest⟩ := List.isChain_cons_cons.1 h
          refine List.isChain_cons_cons.2 ⟨?_, hrest⟩
          cases next <;> exact hhead
      · rename_i hne
        exact List.isChain_cons_cons.2 ⟨fun hsame => hne ⟨hsame.1.symm, hsame.2.symm⟩, h⟩
    · rename_i hother
      refine absurd ?_ hnew
      cases latest with
      | nil => exact .singleton _
      | cons next latest =>
        refine List.isChain_cons_cons.2 ⟨?_, h⟩
        cases event with
        | change b' p' old' new' =>
          cases next with
          | change b p old new => exact absurd rfl (hother b p old new latest b' p' old' new' rfl)
          | _ => exact id
        | _ => exact id

theorem settled_foldl_absorb (events : List Event) (h : Settled latest) :
    Settled (events.foldl absorb latest) := by
  induction events generalizing latest with
  | nil => exact h
  | cons event events ih => exact ih (settled_absorb h event)

theorem settled_merge (events : List Event) : Settled (merge events) :=
  settled_reverse.2 (settled_foldl_absorb events .nil)

theorem foldl_absorb_of_settled (h : Settled (latest.reverse ++ events)) :
    events.foldl absorb latest = events.reverse ++ latest := by
  induction events generalizing latest with
  | nil => rfl
  | cons event events ih =>
    rw [← List.singleton_append, ← List.append_assoc, ← List.reverse_cons] at h
    have hnew : Settled (event :: latest) := settled_reverse.1 (List.IsChain.left_of_append h)
    rw [List.foldl_cons, absorb_of_settled hnew, ih h, List.reverse_cons, List.append_assoc,
      List.singleton_append]

/-- Where no run is longer than one event there is nothing to merge. -/
theorem merge_of_settled (h : Settled events) : merge events = events := by
  rw [merge, foldl_absorb_of_settled (show Settled ([].reverse ++ events) from h), List.append_nil,
    List.reverse_reverse]

theorem length_foldl_absorb_le (events latest : List Event) :
    (events.foldl absorb latest).length ≤ latest.length + events.length := by
  induction events generalizing latest with
  | nil => exact le_rfl
  | cons event events ih =>
    have habsorb : (absorb latest event).length ≤ latest.length + 1 := by
      unfold absorb
      split
      · split <;> simp
      · exact le_rfl
    have hrest := ih (absorb latest event)
    rw [List.foldl_cons, List.length_cons]
    omega

theorem isNull_of_mem_coalesce (h : event ∈ coalesce events) : event.isNull = false := by
  simpa using (List.mem_filter.1 h).2

/-- The two ways to say that coalescing is complete: nothing is left to merge, and coalescing again
changes nothing. -/
theorem settled_coalesce_iff_idem : Settled (coalesce events) ↔
    coalesce (coalesce events) = coalesce events := by
  have hkeep : ∀ e ∈ coalesce events, (!e.isNull) = true := fun e he => by
    rw [isNull_of_mem_coalesce he, Bool.not_false]
  constructor
  · intro h
    change (merge (coalesce events)).filter _ = _
    rw [merge_of_settled h, List.filter_eq_self.2 hkeep]
  · intro h
    -- the second pass loses no event, neither when it merges nor when it drops
    have hsub : (coalesce events).Sublist (merge (coalesce events)) := by
      nth_rewrite 1 [← h]
      exact List.filter_sublist
    have hlength : (merge (coalesce events)).length ≤ (coalesce events).length := by
      simpa [merge] using length_foldl_absorb_le (coalesce events) []
    rw [hsub.eq_of_length_le hlength]
    exact settled_merge _

/-- What is left of a list is a chain if any two that nothing left stands between are related. -/
theorem isChain_filter_iff {α : Type} {R : α → α → Prop} {p : α → Bool} {l : List α} :
    (l.filter p).IsChain R ↔ ∀ before a gap b after, l = before ++ a :: (gap ++ b :: after) →
      p a = true → p b = true → (∀ g ∈ gap, p g = false) → R a b := by
  rw [List.isChain_iff_forall_rel_of_append_cons_cons]
  constructor
  · rintro h before a gap b after rfl ha hb hgap
    have hnone : gap.filter p = [] := List.filter_eq_nil_iff.2 fun g hg => by simp [hgap g hg]
    have hkept : (before ++ a :: (gap ++ b :: after)).filter p = before.filter p ++ a :: b ::
        after.filter p := by
      rw [List.filter_append, List.filter_cons_of_pos ha, List.filter_append,
        List.filter_cons_of_pos hb, hnone, List.nil_append]
    exact h hkept
  · intro h a b l1 l2 hl
    obtain ⟨front, rest, rfl, -, hrest⟩ := List.filter_eq_append_iff.1 hl
    obtain ⟨skipped, rest, rfl, -, ha, hrest⟩ := List.filter_eq_cons_iff.1 hrest
    obtain ⟨gap, rest, rfl, hgap, hb, -⟩ := List.filter_eq_cons_iff.1 hrest
    exact h (front ++ skipped) a gap b rest (by simp) ha hb fun g hg => by simpa using hgap g hg

/-- Merging leaves no two neighbours that are changes of one property.  After the events that tell
of nothing are left out there are such neighbours, or what is the same, coalescing once more changes
something, exactly if between two changes of one property nothing stood but events that tell of
nothing.  It is the coalesced events that every listener hears when the outermost batch is
closed. -/
theorem settled_coalesce_iff (events : List Event) :
    (∃ runs, runs.flatten = events ∧ List.Forall₂ Merges runs (merge events)) ∧
      Settled (merge events) ∧ coalesce events = (merge events).filter (fun e => !e.isNull) ∧
      (Settled (coalesce events) ↔ coalesce (coalesce events) = coalesce events) ∧
      (Settled (coalesce events) ↔
        ∀ before e gap f after, merge events = before ++ e :: (gap ++ f :: after) →
        e.isNull = false → f.isNull = false → (∀ g ∈ gap, g.isNull = true) → ¬ e.SameProperty f) ∧
      ∀ (bus bus' : Bus) (token : BatchToken) (listener : Nat), bus.pending = events →
        bus.depth = 1 → listener < bus.listeners → bus.endBatch token = .ok bus' →
        bus'.heard listener = bus.heard listener ++ coalesce events := by
  refine ⟨exists_runs_merge events, settled_merge events, rfl, settled_coalesce_iff_idem, ?_, ?_⟩
  · refine (isChain_filter_iff (l := merge events)).trans ?_
    simp only [Bool.not_eq_true', Bool.not_eq_false']
  · rintro bus bus' token listener rfl hdepth hlistener hend
    simp only [Bus.endBatch, hdepth, Nat.sub_self, if_true] at hend
    split at hend
    · cases hend
      exact Bus.heard_foldl_deliver _ hlistener
    · cases hend

/-- One number changes twice, and in between another one changes and changes back. -/
example : let number : Property := { element := .field, name := some "NUM" }
    coalesce [.change ⟨1⟩ number "0" "1", .change ⟨2⟩ number "0" "1", .change ⟨2⟩ number "1" "0",
      .change ⟨1⟩ number "1" "2"] = [.change ⟨1⟩ number "0" "1", .change ⟨1⟩ number "1" "2"] := rfl

end Event

/-! ## Stores -/

/-- The text of every property of every block. -/
abbrev Store := BlockId × Property → String

namespace Store

variable {S S' : Store}

/-- What an event leaves of a store. -/
def follow (S : Store) : Event → Store
  | .change b p _ new => Function.update S (b, p) new
  | _ => S

def replay (S : Store) (events : List Event) : Store := events.foldl follow S

/-- A change starts from the text that is there. -/
def Agrees (S : Store) : Event → Prop
  | .change b p old _ => S (b, p) = old
  | _ => True

/-- Each change starts from the text that the events before it have left. -/
def Chained (S : Store) : List Event → Prop
  | [] => True
  | event :: events => S.Agrees event ∧ (S.follow event).Chained events

/-- Events are followed as long as they agree with the store. -/
def observer : Observer Store := ⟨fun S event S' => S.Agrees event ∧ S.follow event = S'⟩

theorem leads_iff : observer.Leads S events S' ↔ S.Chained events ∧ S.replay events = S' := by
  induction events generalizing S with
  | nil => exact (and_iff_right trivial).symm
  | cons event events ih =>
    rw [Observer.leads_cons]
    constructor
    · rintro ⟨S1, ⟨hagrees, rfl⟩, hrest⟩
      exact ⟨⟨hagrees, (ih.1 hrest).1⟩, (ih.1 hrest).2⟩
    · rintro ⟨⟨hagrees, hchained⟩, hreplay⟩
      exact ⟨_, ⟨hagrees, rfl⟩, ih.2 ⟨hchained, hreplay⟩⟩

theorem robust : observer.Robust where
  merge {S S1 S2 b p old new old' new'} h h' := by
    obtain ⟨hold, rfl⟩ := h
    obtain ⟨-, rfl⟩ := h'
    exact ⟨hold, (Function.update_idem _ _ _).symm⟩
  null {S S' event} hnull h := by
    obtain ⟨hagrees, rfl⟩ := h
    cases event with
    | create b kind | delete b ids | move b old new => rfl
    | change b p old new =>
      simp only [Event.isNull, beq_iff_eq] at hnull
      exact Function.update_eq_self_iff.2 (hnull.symm.trans hagrees.symm)

/-- Coalesced events can be replayed where the events could, and end in the same store.  No event of
them tells of nothing, and those that are no changes are the events' own, less the moves that tell
of nothing, each where it was among what the changes before and after it amount to. -/
theorem replay_coalesce (S : Store) (events : List Event) (h : S.Chained events) :
    S.Chained (Event.coalesce events) ∧ S.replay (Event.coalesce events) = S.replay events ∧
      (∀ event ∈ Event.coalesce events, event.isNull = false) ∧
      (Event.coalesce events).filter (fun e => !e.isChange) =
        events.filter (fun e => !e.isChange && !e.isNull) ∧
      ∃ runs merged, runs.flatten = events ∧ List.Forall₂ Event.Merges runs merged ∧
        Event.coalesce events = merged.filter fun e => !e.isNull := by
  obtain ⟨hchained, hreplay⟩ := leads_iff.1 (robust.coalesce (leads_iff.2 ⟨h, rfl⟩))
  obtain ⟨runs, merged, hflatten, hmerges, hcoalesce⟩ := Event.exists_runs events
  refine ⟨hchained, hreplay, fun event => Event.isNull_of_mem_coalesce, ?_, runs, merged, hflatten,
    hmerges, hcoalesce⟩
  rw [hcoalesce, List.filter_comm, Event.filter_isChange_of_merges hmerges, hflatten,
    List.filter_filter]
  simp only [Bool.and_comm]

/-- A flag goes on and off again, a block is moved to where it was, and a comment changes twice
around it. -/
theorem replay_coalesce_flagAndComment :
    let disabled : Property := { element := .disabled }
    let comment : Property := { element := .comment }
    let S : Store := fun _ => ""
    let events : List Event := [.change ⟨1⟩ disabled "" "true", .change ⟨1⟩ disabled "true" "",
      .create ⟨2⟩ .listEmpty, .change ⟨1⟩ comment "" "a", .move ⟨2⟩ {} {},
      .change ⟨1⟩ comment "a" "b"]
    S.Chained events ∧ S.Chained (Event.coalesce events) ∧
      S.replay (Event.coalesce events) (⟨1⟩, comment) = "b" ∧
      Event.coalesce events = [.create ⟨2⟩ .listEmpty, .change ⟨1⟩ comment "" "a",
        .change ⟨1⟩ comment "a" "b"] := by
  intro disabled comment S events
  have h : S.Chained events := by
    simp [Chained, Agrees, follow, S, events, disabled, comment]
  obtain ⟨hchained, hreplay, -⟩ := replay_coalesce S events h
  refine ⟨h, hchained, ?_, rfl⟩
  rw [hreplay]
  simp [replay, follow, events]

end Store

end BlockGraph
