import Wayfarer.Graph.Reading

/-!
# Building the graph

Creating and removing nodes and edges. All checks come before the first change.
An undirected link is stored as two edges, each the twin of the other; they are
made and removed together.

* `Actor.create`, `Actor.connect` and their variants add to the graph.
* `Actor.disconnect`, `Actor.destroy` and `Actor.destroyIsolated` take from it.
-/

namespace Wayfarer

namespace Actor

variable {σ : Type}

/-- The declared type of a name and kind. -/
def resolve (actor : Actor) (kind : Kind) (name : String) : Work σ TypeId :=
  match actor.rulebook.types.resolveKind kind name with
  | some type => pure type
  | none => throw (.unknownType kind name)

/-- Why a value cannot stand in a field of a record. -/
def fieldFault? (actor : Actor) (type : TypeId) (declared : Fields) (name : String)
    (value : Value) : Option Error :=
  match declared.get? name with
  | none => some (.unknownField ((actor.rulebook.types.name? type).getD "?") name)
  | some old => if old.sameKind value then none else some (.typeMismatch name)

/-- A record with given fields set one after another, or the first fault. -/
def overlayFields (actor : Actor) (type : TypeId) :
    Fields → List (String × Value) → Except Error Fields
  | filled, [] => .ok filled
  | filled, (name, value) :: rest =>
    match actor.fieldFault? type filled name value with
    | some e => .error e
    | none => overlayFields actor type (filled.set name value) rest

/-- The declared defaults of a type. -/
def declared (actor : Actor) (type : TypeId) : Fields :=
  (actor.rulebook.types.defaults type).getD Fields.empty

/-- The declared defaults of a type with given fields in their place. -/
def filledFields (actor : Actor) (type : TypeId) (given : Fields) : Except Error Fields :=
  actor.overlayFields type (actor.declared type) given.entries

/-- The declared defaults of a type with given fields in their place. -/
def fillFields (actor : Actor) (type : TypeId) (given : Fields) : Work σ Fields :=
  match actor.filledFields type given with
  | .ok fields => pure fields
  | .error e => throw e

/-- A fresh node identity. -/
def mintNode : Work σ NodeId := do
  let mint := (← MonadState.get).shared.mint
  modify fun d => { d with shared := { d.shared with mint := mint.advance } }
  pure mint.nextNode

/-- A fresh edge identity. -/
def mintEdge : Work σ EdgeId := do
  let mint := (← MonadState.get).shared.mint
  modify fun d => { d with shared := { d.shared with mint := mint.advance } }
  pure mint.nextEdge

variable [Durable σ]

/-- Creates a node that the tenant owns. Roots cannot be made this way. -/
def create (actor : Actor) (type : String) (fields : Fields) : Work σ NodeId := do
  let typeId ← actor.resolve .node type
  if type = rootTypeName then
    throw (.rootPinned actor.requester)
  let fields ← actor.fillFields typeId fields
  let id ← mintNode
  Desk.stage (Anchor.ofNode id actor.requester (NodeRecord.isolated typeId fields))
  pure id

/-- Creates a tenant's root if it is not there; the answer tells whether it was
created. -/
def insertRoot (root : RootId) : Work σ Bool := do
  match ← Desk.load root with
  | some _ => pure false
  | none =>
    Desk.stage (Anchor.ofNode root.node root (NodeRecord.isolated rootType Fields.empty))
    pure true

/-- Changes a node's record; anything but a node counts as missing. -/
def changeNode (id : NodeId) (change : NodeRecord → NodeRecord) : Work σ Unit := do
  match (← Desk.update? id (·.mapNode change)).bind Anchor.node? with
  | some _ => pure ()
  | none => throw (.notFound id)

/-- Stores a link between two nodes that were checked before. -/
def link (actor : Actor) (source target : NodeId) (type : TypeId) (fields : Fields)
    (directed : Bool) : Work σ EdgeId := do
  let edge ← mintEdge
  if directed then
    Desk.stage (Anchor.ofEdge edge actor.requester ⟨type, fields, source, target, true, none⟩)
    changeNode source (·.attachOut edge)
    changeNode target (·.attachIn edge)
  else
    let twin ← mintEdge
    Desk.stage
      (Anchor.ofEdge twin actor.requester ⟨type, fields, target, source, false, some edge⟩)
    Desk.stage
      (Anchor.ofEdge edge actor.requester ⟨type, fields, source, target, false, some twin⟩)
    changeNode source (·.attachOut edge)
    changeNode target (·.attachIn edge)
    changeNode target (·.attachOut twin)
    changeNode source (·.attachIn twin)
  pure edge

/-- Creates a node and links another one to it. -/
def createLinked (actor : Actor) (source : NodeId) (type : String) (fields : Fields)
    (edgeType : String) : Work σ (NodeId × EdgeId) := do
  let edgeTypeId ← actor.resolve .edge edgeType
  let edgeFields ← actor.fillFields edgeTypeId Fields.empty
  let _ ← actor.check source .connect
  let node ← actor.create type fields
  let edge ← actor.link source node edgeTypeId edgeFields true
  pure (node, edge)

/-- Links two nodes. Both ends have to allow it. -/
def connect (actor : Actor) (source target : NodeId) (edgeType : String) (fields : Fields)
    (directed : Bool) : Work σ EdgeId := do
  let type ← actor.resolve .edge edgeType
  let fields ← actor.fillFields type fields
  let _ ← actor.check source .connect
  let _ ← actor.check target .connect
  actor.link source target type fields directed

/-- Links a node to each of several, all or none. -/
def connectMany (actor : Actor) (source : NodeId) (targets : List NodeId) (edgeType : String)
    (fields : Fields) (directed : Bool) : Work σ (List EdgeId) := do
  let type ← actor.resolve .edge edgeType
  let fields ← actor.fillFields type fields
  let _ ← actor.check source .connect
  targets.forM fun (target : NodeId) => do
    let _ ← actor.check target .connect
  targets.mapM fun target => actor.link source target type fields directed

/-- Takes an edge off a node, if that is there and is a node. -/
def detachAt (edge : EdgeId) (node : NodeId) : Work σ Unit := do
  let _ ← Desk.update? node (·.mapNode (·.detach edge))

/-- Removes an edge and takes it off both ends. -/
def unlink (edge : EdgeId) : Work σ Unit := do
  match ← Desk.loadEdge edge with
  | none => pure ()
  | some e =>
    detachAt edge e.source
    detachAt edge e.target
    Desk.delete edge

/-- Removes a link, both halves of an undirected one. Both ends have to allow
it. -/
def disconnect (actor : Actor) (edge : EdgeId) : Work σ Unit := do
  let e ← part edge (← Desk.loadEdge edge)
  let _ ← actor.check e.source .connect
  let _ ← actor.check e.target .connect
  unlink edge
  match e.twin with
  | some twin => unlink twin
  | none => pure ()

/-- The record of a node that the tenant may remove. -/
def destroyable (actor : Actor) (node : NodeId) : Work σ NodeRecord := do
  let n ← part node (← actor.check node .write).node?
  if n.type = rootType then
    throw (.rootPinned node)
  pure n

/-- The twin of an edge; `none` also if the edge cannot be read from storage. -/
def twinOf (edge : EdgeId) : Work σ (Option EdgeId) :=
  tryCatch (do pure ((← Desk.loadEdge edge).bind (·.twin))) fun _ => pure none

/-- The edges of a node and their twins. -/
def doomed (node : NodeRecord) : Work σ (OrdSet EdgeId) :=
  (node.outgoing ++ node.incoming).foldlM
    (fun acc edge => do pure ((acc.add edge).addAll (← twinOf edge).toList)) Table.empty

/-- Removes a node and all its links. -/
def destroy (actor : Actor) (node : NodeId) : Work σ Unit := do
  let n ← actor.destroyable node
  (← doomed n).keys.forM unlink
  Desk.delete node

/-- Removes a node that has no links. -/
def destroyIsolated (actor : Actor) (node : NodeId) : Work σ Unit := do
  let n ← actor.destroyable node
  if n.isIncident then
    throw (.stillReferenced node)
  Desk.delete node

end Actor

end Wayfarer
