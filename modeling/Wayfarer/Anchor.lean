import Wayfarer.Access
import Wayfarer.Fields

/-!
# Anchors

What is stored about an object: a node with the edges that leave and enter it,
or an edge with its two ends. The anchor around it says who owns it, who else
may use it and how often it was committed. An undirected link is a pair of
edges, each the twin of the other.
-/

namespace Wayfarer

/-- A node: its type, its fields, and its edges in the order in which they were
attached. -/
structure NodeRecord where
  type : TypeId
  fields : Fields
  outgoing : List EdgeId
  incoming : List EdgeId
  deriving Inhabited

namespace NodeRecord

/-- A node without edges. -/
def isolated (type : TypeId) (fields : Fields) : NodeRecord := ⟨type, fields, [], []⟩

/-- Whether any edge leaves or enters the node. -/
def isIncident (n : NodeRecord) : Bool := !n.outgoing.isEmpty || !n.incoming.isEmpty

/-- The node without an edge. -/
def detach (n : NodeRecord) (edge : EdgeId) : NodeRecord :=
  { n with
    outgoing := n.outgoing.filter (fun e => e ≠ edge),
    incoming := n.incoming.filter (fun e => e ≠ edge) }

/-- The node with one more edge that leaves it. -/
def attachOut (n : NodeRecord) (edge : EdgeId) : NodeRecord :=
  { n with outgoing := n.outgoing ++ [edge] }

/-- The node with one more edge that enters it. -/
def attachIn (n : NodeRecord) (edge : EdgeId) : NodeRecord :=
  { n with incoming := n.incoming ++ [edge] }

end NodeRecord

/-- An edge: its type, its fields and its ends. -/
structure EdgeRecord where
  type : TypeId
  fields : Fields
  source : NodeId
  target : NodeId
  directed : Bool
  twin : Option EdgeId
  deriving Inhabited

/-- Where an edge leads for somebody who comes from `here`: to its target,
unless they already stand there. -/
def EdgeRecord.farEnd (e : EdgeRecord) (here : Option NodeId) : NodeId :=
  if here = some e.target ∧ e.target ≠ e.source then e.source else e.target

/-- The content of an anchor. -/
inductive Body
  | node (record : NodeRecord)
  | edge (record : EdgeRecord)
  deriving Inhabited

/-- A stored object. `version` counts its commits; `dirty` marks a change that
no commit has written yet. -/
structure Anchor where
  id : ObjectId
  owner : RootId
  access : Access
  version : UInt64
  body : Body
  dirty : Bool
  deriving Inhabited

namespace Anchor

/-- A new node. -/
def ofNode (id : NodeId) (owner : RootId) (record : NodeRecord) : Anchor :=
  ⟨id, owner, Access.ownerOnly, 0, .node record, true⟩

/-- A new edge. -/
def ofEdge (id : EdgeId) (owner : RootId) (record : EdgeRecord) : Anchor :=
  ⟨id, owner, Access.ownerOnly, 0, .edge record, true⟩

/-- The type of the object. -/
def type (a : Anchor) : TypeId :=
  match a.body with
  | .node n => n.type
  | .edge e => e.type

/-- The fields of the object. -/
def fields (a : Anchor) : Fields :=
  match a.body with
  | .node n => n.fields
  | .edge e => e.fields

/-- The object with other fields. -/
def withFields (a : Anchor) (f : Fields) : Anchor :=
  match a.body with
  | .node n => { a with body := .node { n with fields := f } }
  | .edge e => { a with body := .edge { e with fields := f } }

/-- The node record, if the body is one. -/
def node? (a : Anchor) : Option NodeRecord :=
  match a.body with
  | .node n => some n
  | .edge _ => none

/-- The edge record, if the body is one. -/
def edge? (a : Anchor) : Option EdgeRecord :=
  match a.body with
  | .edge e => some e
  | .node _ => none

/-- The object with its node record changed; an edge stays as it is. -/
def mapNode (a : Anchor) (f : NodeRecord → NodeRecord) : Anchor :=
  match a.body with
  | .node n => { a with body := .node (f n) }
  | .edge _ => a

/-- The object without its mark of change. -/
def clean (a : Anchor) : Anchor := { a with dirty := false }

/-- The level a tenant has on the object; its owner has every level. -/
def effective (a : Anchor) (requester : RootId) : Option Level :=
  if a.owner = requester then some .write else a.access.levelFor requester

/-- Whether a tenant has at least a given level. -/
def permits (a : Anchor) (requester : RootId) (required : Level) : Bool :=
  match a.effective requester with
  | some held => held.covers required
  | none => false

end Anchor

end Wayfarer
