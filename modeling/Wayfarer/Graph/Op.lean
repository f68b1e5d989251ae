import Wayfarer.Graph.Editing

/-!
# Graph operations

The operations on the graph as data, with the type of each one's answer. A
request is a sequence of such operations, and so is what an ability does to the
graph.
-/

namespace Wayfarer

/-- An operation on the graph. -/
inductive Op
  | create (type : String) (fields : Fields)
  | createLinked (source : NodeId) (type : String) (fields : Fields) (edgeType : String)
  | connect (source target : NodeId) (edgeType : String) (fields : Fields) (directed : Bool)
  | connectMany (source : NodeId) (targets : List NodeId) (edgeType : String) (fields : Fields)
      (directed : Bool)
  | disconnect (edge : EdgeId)
  | destroy (node : NodeId)
  | destroyIsolated (node : NodeId)
  | anchor (id : ObjectId)
  | node (id : NodeId)
  | edge (id : EdgeId)
  | get (id : ObjectId) (field : String)
  | typeOf (id : ObjectId)
  | readableType (id : ObjectId)
  | neighbors (node : NodeId) (query : NeighborQuery)
  | edges (node : NodeId) (query : NeighborQuery)
  | reachable (node : NodeId)
  | setField (id : ObjectId) (field : String) (value : Value)
  | grant (id : ObjectId) (level : Level)
  | revoke (id : ObjectId)
  | allow (id : ObjectId) (root : RootId) (level : Level)
  | disallow (id : ObjectId) (root : RootId)
  deriving Inhabited

namespace Op

/-- What an operation answers. -/
@[reducible] def Answer : Op → Type
  | .create .. => NodeId
  | .createLinked .. => NodeId × EdgeId
  | .connect .. => EdgeId
  | .connectMany .. => List EdgeId
  | .disconnect .. => Unit
  | .destroy .. => Unit
  | .destroyIsolated .. => Unit
  | .anchor .. => Anchor
  | .node .. => NodeRecord
  | .edge .. => EdgeRecord
  | .get .. => Option Value
  | .typeOf .. => TypeId
  | .readableType .. => Option TypeId
  | .neighbors .. => List NodeId
  | .edges .. => List EdgeId
  | .reachable .. => List NodeId
  | .setField .. => Option Value
  | .grant .. => Unit
  | .revoke .. => Unit
  | .allow .. => Unit
  | .disallow .. => Bool

/-- Carries an operation out on behalf of an actor. -/
def run {σ : Type} [Durable σ] (actor : Actor) : (op : Op) → Work σ op.Answer
  | .create type fields => actor.create type fields
  | .createLinked source type fields edgeType => actor.createLinked source type fields edgeType
  | .connect source target edgeType fields directed =>
    actor.connect source target edgeType fields directed
  | .connectMany source targets edgeType fields directed =>
    actor.connectMany source targets edgeType fields directed
  | .disconnect e => actor.disconnect e
  | .destroy n => actor.destroy n
  | .destroyIsolated n => actor.destroyIsolated n
  | .anchor id => actor.anchor id
  | .node id => actor.node id
  | .edge id => actor.edge id
  | .get id field => actor.get id field
  | .typeOf id => actor.typeOf id
  | .readableType id => actor.readableType id
  | .neighbors n query => actor.neighbors n query
  | .edges n query => actor.edges n query
  | .reachable n => actor.reachable n
  | .setField id field value => actor.setField id field value
  | .grant id level => actor.grant id level
  | .revoke id => actor.revoke id
  | .allow id root level => actor.allow id root level
  | .disallow id root => actor.disallow id root

/-- Whether an operation only reads. -/
def isRead : Op → Bool
  | .anchor .. | .node .. | .edge .. | .get .. | .typeOf .. | .readableType .. => true
  | .neighbors .. | .edges .. | .reachable .. => true
  | _ => false

end Op

end Wayfarer
