import Wayfarer.Scenario.Term
import Wayfarer.Travel

/-!
# Calls

What a scenario can ask of a session: graph operations, small ready-made graphs,
and questions about the session itself. A call is written with handles
(`CallTerm`) and resolved before it runs, so an unbound handle has no effect.
-/

namespace Wayfarer.Scenario

/-- A call whose objects are known. -/
inductive Call
  | op (o : Op)
  | place (name : String)
  | chain (source : NodeId) (names : List String)
  | star (hub : NodeId) (names : List String)
  | names (ids : List ObjectId)
  | stats
  | pending
  | requester

namespace Call

/-- What a call answers. -/
@[reducible] def Answer : Call → Type
  | .op o => o.Answer
  | .place _ => NodeId
  | .chain .. => List NodeId
  | .star .. => List NodeId
  | .names _ => List String
  | .stats => Stats
  | .pending => Bool
  | .requester => RootId

/-- Carries a call out on behalf of an actor. -/
def run {σ : Type} [Durable σ] (actor : Actor) : (c : Call) → Work σ c.Answer
  | .op o => o.run actor
  | .place name => (Travel.place name : ReaderT Actor (Work σ) NodeId) actor
  | .chain source list => (Travel.chain source list : ReaderT Actor (Work σ) _) actor
  | .star hub list => (Travel.star hub list : ReaderT Actor (Work σ) _) actor
  | .names ids => (ids.mapM Travel.nameOf : ReaderT Actor (Work σ) _) actor
  | .stats => do pure (← get).draft.stats
  | .pending => do pure (← get).draft.hasPending
  | .requester => pure actor.requester

/-- The objects that an answer gives names to, in order. -/
def ids : (c : Call) → c.Answer → List ObjectId
  | .op (.create ..) => fun (n : NodeId) => [.node n]
  | .op (.createLinked ..) => fun (n, e) => [.node n, .edge e]
  | .op (.connect ..) => fun (e : EdgeId) => [.edge e]
  | .op (.connectMany ..) => fun (es : List EdgeId) => es.map .edge
  | .op (.edge _) => fun (e : EdgeRecord) => e.twin.toList.map .edge
  | .op (.neighbors ..) => fun (ns : List NodeId) => ns.map .node
  | .op (.edges ..) => fun (es : List EdgeId) => es.map .edge
  | .place _ => fun (n : NodeId) => [.node n]
  | .chain .. => fun (ns : List NodeId) => ns.map .node
  | .star .. => fun (ns : List NodeId) => ns.map .node
  | _ => fun _ => []

/-- Carries a call out as part of a conduct. Of its answer the conduct gets the
objects that can be given names. -/
def perform : Call → Conduct (List ObjectId)
  | .op o => do pure (ids (.op o) (← Conduct.perform o))
  | .place name => do pure (ids (.place name) (← (Travel.place name : Conduct NodeId)))
  | .chain source list => do
    pure (ids (.chain source list) (← (Travel.chain source list : Conduct (List NodeId))))
  | .star hub list => do
    pure (ids (.star hub list) (← (Travel.star hub list : Conduct (List NodeId))))
  | .names list => do
    let _ : List String ← list.mapM Travel.nameOf
    pure []
  | .stats => pure []
  | .pending => pure []
  | .requester => pure []

end Call

/-- A call whose objects are still handles. -/
inductive CallTerm
  | create (type : String) (fields : List (String × Term))
  | createLinked (source type : String) (fields : List (String × Term)) (edgeType : String)
  | connect (source target edgeType : String) (fields : List (String × Term)) (directed : Bool)
  | connectMany (source : String) (targets : List String) (edgeType : String)
      (fields : List (String × Term)) (directed : Bool)
  | disconnect (edge : String)
  | destroy (node : String)
  | destroyIsolated (node : String)
  | anchor (id : String)
  | node (id : String)
  | edge (id : String)
  | get (id field : String)
  | typeOf (id : String)
  | readableType (id : String)
  | neighbors (node : String) (query : NeighborQuery)
  | edges (node : String) (query : NeighborQuery)
  | reachable (node : String)
  | setField (id field : String) (value : Term)
  | grant (id : String) (level : Level)
  | revoke (id : String)
  | allow (id tenant : String) (level : Level)
  | disallow (id tenant : String)
  | place (name : String)
  | chain (source : String) (names : List String)
  | star (hub : String) (names : List String)
  | names (ids : List String)
  | stats
  | pending
  | requester
  deriving Inhabited

namespace CallTerm

/-- The call with its handles resolved, from left to right; the targets of a
multiple link come before its source. -/
def resolve (s : Scope) : CallTerm → Except String Call
  | .create type fields => do pure (.op (.create type (← Term.resolveFields s fields)))
  | .createLinked source type fields edgeType => do
    let source ← s.resolve source
    pure (.op (.createLinked source.asNode type (← Term.resolveFields s fields) edgeType))
  | .connect source target edgeType fields directed => do
    let source ← s.resolve source
    let target ← s.resolve target
    let fields ← Term.resolveFields s fields
    pure (.op (.connect source.asNode target.asNode edgeType fields directed))
  | .connectMany source targets edgeType fields directed => do
    let targets ← s.resolveAll targets
    let source ← s.resolve source
    let fields ← Term.resolveFields s fields
    pure (.op (.connectMany source.asNode (targets.map (·.asNode)) edgeType fields directed))
  | .disconnect e => do pure (.op (.disconnect (← s.resolve e).asEdge))
  | .destroy n => do pure (.op (.destroy (← s.resolve n).asNode))
  | .destroyIsolated n => do pure (.op (.destroyIsolated (← s.resolve n).asNode))
  | .anchor id => do pure (.op (.anchor (← s.resolve id)))
  | .node id => do pure (.op (.node (← s.resolve id).asNode))
  | .edge id => do pure (.op (.edge (← s.resolve id).asEdge))
  | .get id field => do pure (.op (.get (← s.resolve id) field))
  | .typeOf id => do pure (.op (.typeOf (← s.resolve id)))
  | .readableType id => do pure (.op (.readableType (← s.resolve id)))
  | .neighbors n query => do pure (.op (.neighbors (← s.resolve n).asNode query))
  | .edges n query => do pure (.op (.edges (← s.resolve n).asNode query))
  | .reachable n => do pure (.op (.reachable (← s.resolve n).asNode))
  | .setField id field value => do
    let id ← s.resolve id
    pure (.op (.setField id field (← value.resolve s)))
  | .grant id level => do pure (.op (.grant (← s.resolve id) level))
  | .revoke id => do pure (.op (.revoke (← s.resolve id)))
  | .allow id tenant level => do
    pure (.op (.allow (← s.resolve id) (RootId.ofTenant tenant) level))
  | .disallow id tenant => do pure (.op (.disallow (← s.resolve id) (RootId.ofTenant tenant)))
  | .place name => pure (.place name)
  | .chain source list => do pure (.chain (← s.resolve source).asNode list)
  | .star hub list => do pure (.star (← s.resolve hub).asNode list)
  | .names ids => do pure (.names (← s.resolveAll ids))
  | .stats => pure .stats
  | .pending => pure .pending
  | .requester => pure .requester

end CallTerm

end Wayfarer.Scenario
