import Wayfarer.Desk

/-!
# Reclaiming

At the end of a request the nodes that it touched are kept only if some tenant
root still leads to them. A node that no root leads to is removed together with
its edges, and the nodes it pointed to are examined next.

* `Reclaim.anchored` searches backwards along incoming edges for a root.
* `Desk.evictUnreachable` removes what is not anchored and lists it.
-/

namespace Wayfarer

variable {σ : Type} [Durable σ]

namespace Reclaim

/-- What earlier searches found. `anchored` nodes have a path from a root that
avoids all dead nodes; they are forgotten when more nodes die. `stranded` nodes
have none and never get one. -/
structure Reach where
  anchored : OrdSet NodeId
  stranded : OrdSet NodeId

/-- A search backwards. Every waiting node stands at the head of the path by
which it leads to the node the search started from. -/
structure Search where
  seen : OrdSet NodeId
  waiting : List (List NodeId)

/-- Looks at the edges that enter the head of `path`. The answer is a path from
a root, or the search with new nodes waiting. -/
def scan (dead : OrdSet NodeId) (reach : Reach) (path : List NodeId) :
    List EdgeId → Search → Work σ (List NodeId ⊕ Search)
  | [], search => pure (.inr search)
  | edge :: rest, search => do
    match ← Desk.loadEdge edge with
    | none => scan dead reach path rest search
    | some e =>
      let source := e.source
      if dead.contains source || reach.stranded.contains source || search.seen.contains source then
        scan dead reach path rest search
      else
        let search := { search with seen := search.seen.add source }
        match ← Desk.load source with
        | none => scan dead reach path rest search
        | some a =>
          if a.type = rootType || reach.anchored.contains source then
            pure (.inl (source :: path))
          else
            scan dead reach path rest { search with waiting := search.waiting ++ [source :: path] }

/-- Takes the waiting nodes in order until a root is found or none is left.
Every node waits at most once, so as much fuel as there are objects suffices. -/
def explore (dead : OrdSet NodeId) (reach : Reach) :
    Nat → Search → Work σ (List NodeId ⊕ OrdSet NodeId)
  | 0, _ => throw .unfinished
  | fuel + 1, search => do
    match search.waiting with
    | [] => pure (.inr search.seen)
    | [] :: waiting => explore dead reach fuel { search with waiting := waiting }
    | (node :: below) :: waiting =>
      let incoming := ((← Desk.loadNode node).map (·.incoming)).getD []
      match ← scan dead reach (node :: below) incoming { search with waiting := waiting } with
      | .inl path => pure (.inl path)
      | .inr search => explore dead reach fuel search

/-- Whether some root leads to a node without passing a dead one, and what is
known afterwards. -/
def anchored (node : NodeId) (dead : OrdSet NodeId) (reach : Reach) : Work σ (Bool × Reach) := do
  if reach.anchored.contains node then
    pure (true, reach)
  else if reach.stranded.contains node then
    pure (false, reach)
  else
    let fuel := (← get).bound + 2
    match ← explore dead reach fuel ⟨OrdSet.ofList [node], [[node]]⟩ with
    | .inl path => pure (true, { reach with anchored := reach.anchored.addAll path })
    | .inr seen => pure (false, { reach with stranded := reach.stranded.addAll seen.keys })

/-- The state of the rounds: nodes to examine, dead nodes and what searches
found. -/
structure Survey where
  candidates : OrdSet NodeId
  dead : OrdSet NodeId
  reach : Reach

/-- Examines nodes in order; the answer lists those found dead. -/
def examine : List NodeId → Survey → Work σ (List NodeId × Survey)
  | [], survey => pure ([], survey)
  | node :: rest, survey => do
    if survey.dead.contains node then
      examine rest survey
    else
      let (kept, reach) ← anchored node survey.dead survey.reach
      if kept then
        examine rest { survey with reach := reach }
      else
        let (more, survey) ← examine rest
          { survey with dead := survey.dead.add node, reach := reach }
        pure (node :: more, survey)

/-- The targets of a node's outgoing edges. -/
def children (node : NodeId) : Work σ (List NodeId) := do
  match ← Desk.loadNode node with
  | none => pure []
  | some n =>
    let edges ← n.outgoing.mapM fun (edge : EdgeId) => Desk.loadEdge edge
    pure ((edges.filterMap id).map (·.target))

/-- The candidates with a child of a dead node, if it belongs to the tenant and
is no root. -/
def nominate (root : RootId) (candidates : OrdSet NodeId) (child : NodeId) :
    Work σ (OrdSet NodeId) := do
  match ← Desk.load child with
  | none => pure candidates
  | some a =>
    pure (if a.owner = root ∧ a.type ≠ rootType then candidates.add child else candidates)

/-- Rounds of examination until no more nodes die. Every round but the last
finds a dead node, so as much fuel as there are objects suffices. -/
def rounds (root : RootId) : Nat → Survey → Work σ (OrdSet NodeId)
  | 0, _ => throw .unfinished
  | fuel + 1, survey => do
    let fresh := { survey with reach := { survey.reach with anchored := Table.empty } }
    let (newly, survey) ← examine fresh.candidates.keys fresh
    if newly.isEmpty then
      pure survey.dead
    else
      let candidates ← newly.foldlM
        (fun candidates node => do
          (← children node).foldlM (nominate root) candidates) survey.candidates
      rounds root fuel { survey with candidates := candidates }

/-- Takes an edge off one of its ends, unless that end is dead. -/
def release (edge : EdgeId) (dead : OrdSet NodeId) (node : NodeId) : Work σ Unit := do
  if dead.contains node then
    pure ()
  else
    let _ ← Desk.update? node (·.mapNode (·.detach edge))

/-- Removes an edge and takes it off the ends that survive. The answer tells
whether it was there. -/
def removeEdge (dead : OrdSet NodeId) (edge : EdgeId) : Work σ Bool := do
  match ← Desk.loadEdge edge with
  | none => pure false
  | some e =>
    release edge dead e.source
    release edge dead e.target
    Desk.delete edge
    pure true

/-- Removes a dead node and its edges; the answer lists what was removed. -/
def removeNode (dead : OrdSet NodeId) (node : NodeId) : Work σ (List ObjectId) := do
  match ← Desk.loadNode node with
  | none => pure []
  | some n =>
    let incident := OrdSet.ofList (n.outgoing ++ n.incoming)
    let removed ← incident.keys.filterM (removeEdge dead)
    Desk.delete node
    pure (removed.map ObjectId.edge ++ [.node node])

/-- The nodes of a draft that may have to go: changed, owned by the tenant and
no roots. -/
def candidates (draft : Draft) (root : RootId) : OrdSet NodeId :=
  let touched := draft.volatile.values.filter fun a =>
    a.dirty && a.owner = root && a.type ≠ rootType
  OrdSet.ofList (touched.filterMap (·.id.node?))

end Reclaim

/-- Removes the changed nodes of a tenant that no root leads to, with their
edges and with the tenant's nodes below them that are left without a root. The
answer lists everything removed. -/
def Desk.evictUnreachable (root : RootId) : Work σ (List ObjectId) := do
  let d ← get
  let start : Reclaim.Survey :=
    ⟨Reclaim.candidates d.draft root, Table.empty, ⟨Table.empty, Table.empty⟩⟩
  let dead ← Reclaim.rounds root (d.bound + 2) start
  let removed ← dead.keys.mapM (Reclaim.removeNode dead)
  pure removed.flatten

end Wayfarer
