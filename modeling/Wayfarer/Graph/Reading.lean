import Wayfarer.Desk
import Wayfarer.Rulebook

/-!
# Reading the graph

Every operation on the graph is done by an actor: a tenant under a rulebook.
Reading asks for the level `read`; what the tenant may not read is left out of
listings as if it were not there.

* `Actor.anchor`, `Actor.node`, `Actor.edge`, `Actor.get` and `Actor.typeOf`
  read one object.
* `Actor.neighbors` and `Actor.edges` list what is next to a node,
  `Actor.reachable` everything below it.
-/

namespace Wayfarer

/-- A tenant that acts under a rulebook. -/
structure Actor where
  rulebook : Rulebook
  requester : RootId

/-- Which edges of a node a query looks at. -/
inductive Direction
  | outgoing | incoming | both
  deriving DecidableEq, Inhabited

/-- Which neighbors a query asks for. A type also stands for its descendants. -/
structure NeighborQuery where
  direction : Direction
  edgeType : Option TypeId
  nodeType : Option TypeId
  deriving DecidableEq, Inhabited

/-- All edges that leave a node. -/
def NeighborQuery.outgoing : NeighborQuery := ⟨.outgoing, none, none⟩

/-- The edges of a node that a query looks at, each with the side it is on;
those that leave the node come first. -/
def NeighborQuery.candidates (q : NeighborQuery) (n : NodeRecord) : List (EdgeId × Direction) :=
  let out := n.outgoing.map fun e => (e, Direction.outgoing)
  let into := n.incoming.map fun e => (e, Direction.incoming)
  match q.direction with
  | .outgoing => out
  | .incoming => into
  | .both => out ++ into

namespace Actor

variable {σ : Type} [Durable σ]

/-- The object if it is there and the tenant has the level on it. -/
def check (actor : Actor) (id : ObjectId) (level : Level) : Work σ Anchor := do
  match ← Desk.load id with
  | none => throw (.notFound id)
  | some a =>
    if a.permits actor.requester level then pure a else throw (.denied id level)

/-- The object if it is there and the tenant may read it. -/
def readable (actor : Actor) (id : ObjectId) : Work σ (Option Anchor) := do
  pure ((← Desk.load id).filter fun a => a.permits actor.requester .read)

/-- The type of an object that the tenant may read. -/
def readableType (actor : Actor) (id : ObjectId) : Work σ (Option TypeId) := do
  pure ((← actor.readable id).map (·.type))

/-- A part of an object; without it the object counts as missing. -/
def part {α : Type} (id : ObjectId) (found : Option α) : Work σ α :=
  match found with
  | some x => pure x
  | none => throw (.notFound id)

/-- The whole object. -/
def anchor (actor : Actor) (id : ObjectId) : Work σ Anchor := actor.check id .read

/-- The record of a node. -/
def node (actor : Actor) (id : NodeId) : Work σ NodeRecord := do
  part id (← actor.check id .read).node?

/-- The record of an edge. -/
def edge (actor : Actor) (id : EdgeId) : Work σ EdgeRecord := do
  part id (← actor.check id .read).edge?

/-- One field of an object. -/
def get (actor : Actor) (id : ObjectId) (field : String) : Work σ (Option Value) := do
  pure ((← actor.check id .read).fields.get? field)

/-- The type of an object. -/
def typeOf (actor : Actor) (id : ObjectId) : Work σ TypeId := do
  pure (← actor.check id .read).type

/-- Whether a type passes an optional filter. -/
def passes (actor : Actor) (type : TypeId) (wanted : Option TypeId) : Bool :=
  match wanted with
  | some ancestor => actor.rulebook.types.isA type ancestor
  | none => true

/-- The one name of the two halves of an undirected link. -/
def pairName (edge twin : EdgeId) : EdgeId := if compare edge twin = .gt then twin else edge

/-- The pairs seen so far with the pair of this edge, or `none` if it was
already there. A directed edge belongs to no pair. -/
def notePair (pairs : OrdSet EdgeId) (edge : EdgeId) (twin : Option EdgeId) :
    Option (OrdSet EdgeId) :=
  match twin with
  | none => some pairs
  | some twin =>
    let name := pairName edge twin
    if pairs.contains name then none else some (pairs.add name)

/-- The neighbor that an edge leads to, if the edge passes the filters and the
neighbor may be read. -/
def neighborAt (actor : Actor) (q : NeighborQuery) (side : Direction) (e : EdgeRecord) :
    Work σ (Option NodeId) := do
  if !actor.passes e.type q.edgeType then
    pure none
  else
    let neighbor := if side = .incoming then e.source else e.target
    match ← actor.readableType neighbor with
    | none => pure none
    | some type => pure (if actor.passes type q.nodeType then some neighbor else none)

/-- The edges that match a query with the neighbors they lead to. Of an
undirected link only the half that comes first is looked at. -/
def matchingFrom (actor : Actor) (q : NeighborQuery) :
    OrdSet EdgeId → List (EdgeId × Direction) → Work σ (List (EdgeId × NodeId))
  | _, [] => pure []
  | pairs, (edge, side) :: rest => do
    match (← actor.readable edge).bind Anchor.edge? with
    | none => matchingFrom actor q pairs rest
    | some e =>
      match notePair pairs edge e.twin with
      | none => matchingFrom actor q pairs rest
      | some pairs =>
        match ← actor.neighborAt q side e with
        | none => matchingFrom actor q pairs rest
        | some neighbor => do
          pure ((edge, neighbor) :: (← matchingFrom actor q pairs rest))

/-- The edges of a node that match a query with the neighbors they lead to, in
the order in which they were attached. -/
def matching (actor : Actor) (node : NodeId) (q : NeighborQuery) :
    Work σ (List (EdgeId × NodeId)) := do
  let n ← actor.node node
  actor.matchingFrom q Table.empty (q.candidates n)

/-- The edges of a node that match a query. -/
def edges (actor : Actor) (node : NodeId) (q : NeighborQuery) : Work σ (List EdgeId) := do
  pure ((← actor.matching node q).map (·.1))

/-- The neighbors of a node that match a query. -/
def neighbors (actor : Actor) (node : NodeId) (q : NeighborQuery) : Work σ (List NodeId) := do
  pure ((← actor.matching node q).map (·.2))

/-- The nodes seen so far and the waiting ones, with newly met nodes added to
both. -/
def meet (seen : OrdSet NodeId) (waiting : List NodeId) : List NodeId → OrdSet NodeId × List NodeId
  | [] => (seen, waiting)
  | next :: rest =>
    if seen.contains next then meet seen waiting rest
    else meet (seen.add next) (waiting ++ [next]) rest

/-- Follows outgoing edges from the waiting nodes. Every node waits at most
once, so as much fuel as there are objects suffices. -/
def spread (actor : Actor) : Nat → OrdSet NodeId → List NodeId → Work σ (OrdSet NodeId)
  | _, seen, [] => pure seen
  | 0, _, _ :: _ => throw .unfinished
  | fuel + 1, seen, node :: waiting => do
    let next ← actor.neighbors node .outgoing
    let (seen, waiting) := meet seen waiting next
    spread actor fuel seen waiting

/-- All nodes that can be read and reached from a node along outgoing edges, the
node included, in the order of identities. -/
def reachable (actor : Actor) (start : NodeId) : Work σ (List NodeId) := do
  let _ ← actor.check start .read
  let fuel := (← MonadState.get).bound + 1
  pure (← actor.spread fuel (OrdSet.ofList [start]) [start]).keys

end Actor

end Wayfarer
