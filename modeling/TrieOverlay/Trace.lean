import TrieOverlay.Node.Cycle

/-!
# Traces

A trace is what a node on its own hands to its router.  `Trace.router` writes down every dispatch
with the entries that it stands for at that moment.  Then it reports the outcome that was set for
the kind of target, or it holds the dispatch, and the outcome is reported later or never.
-/

namespace TrieOverlay

/-- What becomes of a dispatch. -/
inductive Outcome where
  | delivered
  | failed
  /-- Nothing is reported yet. -/
  | held
deriving DecidableEq, Repr

/-- A dispatch as it was seen. -/
structure Sighting where
  /-- The dispatch. -/
  dispatch : Dispatch
  /-- The entries that it stood for, unless its file could not be read. -/
  entries : Option (List Entry)
deriving DecidableEq, Repr

/-- What a node handed to its router. -/
structure Trace where
  /-- What becomes of dispatches toward a key. -/
  toward : Outcome
  /-- What becomes of dispatches to the replicas. -/
  replicas : Outcome
  /-- The dispatches seen, in order. -/
  sightings : List Sighting
  /-- The dispatches whose outcome was not reported, in order. -/
  held : List Dispatch
deriving DecidableEq, Repr

namespace Trace

/-- A trace before the first dispatch, of a router that delivers everything. -/
def start : Trace := ⟨.delivered, .delivered, [], []⟩

/-- The entries that a cargo stands for. -/
def entriesOf : Cargo → TryDisk (List Entry)
  | .entries batch => return batch
  | .file path => Bulk.readEntries path

/-- What becomes of dispatches to a target. -/
def outcomeFor (t : Trace) : Target → Outcome
  | .toward _ => t.toward
  | .replicas => t.replicas

/-- The outcome of a dispatch is reported to its sender. -/
def tell (d : Dispatch) (delivered : Bool) (n : Node) : Node :=
  n.report d.sender d.message.header.id delivered

/-- The router that writes down what it gets. -/
def router : Router Trace := fun d n t =>
  let (entries, n) := n.tryOnDisk (entriesOf d.message.cargo)
  let seen : Sighting := ⟨d, entries.toOption⟩
  let t := { t with sightings := t.sightings ++ [seen] }
  match t.outcomeFor d.target with
  | .delivered => (tell d true n, t)
  | .failed => (tell d false n, t)
  | .held => (n, { t with held := t.held ++ [d] })

/-- The sightings so far, which are forgotten. -/
def takeSightings (t : Trace) : List Sighting × Trace :=
  (t.sightings, { t with sightings := [] })

/-- The first dispatches that are held, and are no longer. -/
def takeHeld (t : Trace) (count : Nat) : List Dispatch × Trace :=
  (t.held.take count, { t with held := t.held.drop count })

end Trace

end TrieOverlay
