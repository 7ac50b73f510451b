import BlockGraph.Event
import BlockGraph.Fault

/-!
# The event bus

Listeners are numbered in the order they subscribe, and each event reaches them in that order.  The
bus keeps a log of what reached whom.  While a batch is open events wait; closing the outermost
batch delivers them coalesced.  A bus that is switched off drops the events fired on it.
-/

namespace BlockGraph

/-- An event that reached a listener. -/
structure Delivery where
  listener : Nat
  event : Event

/-- The right to close a batch: the depth at which it was opened. -/
structure BatchToken where
  depth : Nat
deriving DecidableEq, Inhabited

structure Bus where
  listeners : Nat := 0
  enabled : Bool := true
  /-- How many batches are open. -/
  depth : Nat := 0
  /-- The events waiting for the batch to close, oldest first. -/
  pending : List Event := []
  /-- Everything delivered so far, oldest first. -/
  delivered : List Delivery := []

namespace Bus

def empty : Bus := {}

/-- Registers a listener and gives its number. -/
def subscribe (b : Bus) : Nat × Bus := (b.listeners, { b with listeners := b.listeners + 1 })

def setEnabled (b : Bus) (enabled : Bool) : Bus := { b with enabled }

def inBatch (b : Bus) : Bool := decide (0 < b.depth)

/-- Hands an event to every listener. -/
def deliver (b : Bus) (event : Event) : Bus :=
  { b with delivered := b.delivered ++ (List.range b.listeners).map (⟨·, event⟩) }

def fire (b : Bus) (event : Event) : Bus :=
  if !b.enabled then b
  else if 0 < b.depth then { b with pending := b.pending ++ [event] }
  else b.deliver event

def beginBatch (b : Bus) : BatchToken × Bus :=
  (⟨b.depth + 1⟩, { b with depth := b.depth + 1 })

/-- Closes the innermost batch; its token has to be the one given. -/
def endBatch (b : Bus) (token : BatchToken) : Except Fault Bus :=
  if token.depth = b.depth then
    let b := { b with depth := b.depth - 1 }
    if b.depth = 0 then
      .ok ((Event.coalesce b.pending).foldl deliver { b with pending := [] })
    else .ok b
  else .error .batchOrder

/-- Takes the log, leaving an empty one. -/
def drain (b : Bus) : List Delivery × Bus := (b.delivered, { b with delivered := [] })

/-- A one-line account of the bus. -/
def describe (b : Bus) : String :=
  "EventBus \x7b listeners: " ++ toString b.listeners ++ ", enabled: " ++ toString b.enabled ++
    ", batch_depth: " ++ toString b.depth ++ ", pending: " ++ toString b.pending.length ++ " \x7d"

end Bus

end BlockGraph
