import Mathlib.Logic.Function.Basic
import BlockGraph.Proofs.Events.Reading

/-!
# Replicas

An observer that never looks at a workspace can keep a copy of its trees: of each block the kind,
the parent, and the input it is plugged into (`Replica`).  `Replica.follow` says what it does with
an event, `Replica.Agrees` when an event fits what it knows, and `Replica.Leads` puts the two
together for a list.  Events that were coalesced lead to the same replica (`Replica.robust`).
-/

namespace BlockGraph

/-- What an observer knows of a block. -/
structure Entry where
  kind : Kind
  parent : Option BlockId := none
  /-- The name of the parent's input; none for its next connection, and without a parent. -/
  input : Option String := none
deriving DecidableEq

/-- What an observer knows of all blocks. -/
abbrev Replica := BlockId → Option Entry

namespace Replica

variable {m m' m'' : Replica} {event : Event} {events : List Event} {b : BlockId}

def empty : Replica := fun _ => none

/-- What an observer makes of an event. -/
def follow (m : Replica) : Event → Replica
  | .create b kind => Function.update m b (some { kind })
  | .move b _ new =>
    Function.update m b ((m b).map fun e => { e with parent := new.parent, input := new.input })
  | .delete _ ids => fun b => if b ∈ ids then none else m b
  | .change _ _ _ _ => m

/-- An event fits what an observer knows: a block that is made is new, a block that moves is where
the event says it was, and blocks that are deleted are there. -/
def Agrees (m : Replica) : Event → Prop
  | .create b _ => m b = none
  | .move b old _ => (m b).map (fun e => (e.parent, e.input)) = some (old.parent, old.input)
  | .delete _ ids => ∀ b ∈ ids, m b ≠ none
  | .change _ _ _ _ => True

def run (m : Replica) (events : List Event) : Replica := events.foldl follow m

/-- Each event fits what the events before it have led to. -/
def Tracks (m : Replica) : List Event → Prop
  | [] => True
  | event :: events => m.Agrees event ∧ (m.follow event).Tracks events

/-- Events that fit lead from one replica to another. -/
def Leads (m : Replica) (events : List Event) (m' : Replica) : Prop := m.Tracks events ∧
  m.run events = m'

theorem leads_nil : m.Leads [] m' ↔ m = m' := and_iff_right trivial

theorem leads_cons :
    m.Leads (event :: events) m' ↔ m.Agrees event ∧ (m.follow event).Leads events m' := and_assoc

theorem leads_singleton : m.Leads [event] m' ↔ m.Agrees event ∧ m.follow event = m' := by
  rw [leads_cons, leads_nil]

/-- A move that starts from what the replica shows. -/
theorem leads_move {entry : Entry} {old new : Place} (hb : m b = some entry)
    (hparent : old.parent = entry.parent) (hinput : old.input = entry.input)
    (hb' : m' b = some { entry with parent := new.parent, input := new.input })
    (hother : ∀ x, x ≠ b → m' x = m x) : m.Leads [.move b old new] m' := by
  refine leads_singleton.2 ⟨?_, ?_⟩
  · simp [Agrees, hb, hparent, hinput]
  · funext x
    rw [follow, hb, Function.update_apply]
    split
    · rename_i hx
      rw [hx, hb']
      rfl
    · rename_i hx
      exact (hother x hx).symm

theorem leads_change {property : Property} {old new : String} :
    m.Leads (.change b property old new :: events) m' ↔ m.Leads events m' := by
  rw [leads_cons]
  exact and_iff_right trivial

/-! ## The observer -/

/-- An event that fits is followed. -/
def observer : Observer Replica := ⟨fun m event m' => m.Agrees event ∧ m.follow event = m'⟩

theorem leads_iff : observer.Leads m events m' ↔ m.Leads events m' := by
  induction events generalizing m with
  | nil => rw [Observer.leads_nil, leads_nil]
  | cons event events ih =>
    rw [Observer.leads_cons, leads_cons]
    constructor
    · rintro ⟨m1, ⟨hagrees, rfl⟩, hrest⟩
      exact ⟨hagrees, ih.1 hrest⟩
    · rintro ⟨hagrees, hrest⟩
      exact ⟨_, ⟨hagrees, rfl⟩, ih.2 hrest⟩

theorem leads_append {l l' : List Event} : m.Leads (l ++ l') m'' ↔ ∃ m', m.Leads l m' ∧
    m'.Leads l' m'' := by
  simp only [← leads_iff, Observer.leads_append]

/-- An event that tells of nothing changes nothing. -/
theorem follow_of_isNull (hnull : event.isNull = true) (h : m.Agrees event) :
    m.follow event = m := by
  cases event with
  | create b kind | delete b ids => cases hnull
  | change b property old new => rfl
  | move b old new =>
    simp only [Event.isNull, Place.same, Bool.and_eq_true, beq_iff_eq] at hnull
    obtain ⟨entry, hentry, hplace⟩ := Option.map_eq_some_iff.1 h
    rw [Prod.mk.injEq, hnull.1.1, hnull.1.2] at hplace
    rw [follow, hentry, ← hplace.1, ← hplace.2]
    exact Function.update_eq_iff.2 ⟨hentry.symm, fun _ _ => rfl⟩

/-- Changes of properties are nothing to a replica, so it does not matter which of them are
merged. -/
theorem robust : observer.Robust where
  merge h h' := ⟨trivial, h.2.trans h'.2⟩
  null hnull h := h.2.symm.trans (follow_of_isNull hnull h.1)

end Replica

end BlockGraph
