import Wayfarer.Proofs.History
import Wayfarer.Graph.Op

/-!
# Wiring

How nodes and edges hang together. An edge meets a node at one of two ports: it
leaves its source and enters its target. A table of anchors is `Whole` if every
edge is listed exactly once at each of its ends, every listed edge is there, and
twins belong together.

A request works on copies that may have been read at different times, so what it
sees need not be whole. What does hold of a draft is that its *changes* fit
together: `Wired` says so, relative to the committed anchors that the copies
started from. Two sets mark what is under way in the middle of an operation.
Edges that are `due` are being attached or removed; nodes that are `dead` are
going to be removed, so edges are not taken off them any more.
-/

namespace Wayfarer

/-! ## Anchors and their records -/

namespace Anchor

theorem type_of_node? {a : Anchor} {r : NodeRecord} (h : a.node? = some r) :
    a.type = r.type := by
  cases hb : a.body with
  | node n =>
    simp only [node?, hb, Option.some.injEq] at h
    simp [type, hb, h]
  | edge e => simp [node?, hb] at h

theorem type_of_edge? {a : Anchor} {r : EdgeRecord} (h : a.edge? = some r) :
    a.type = r.type := by
  cases hb : a.body with
  | node n => simp [edge?, hb] at h
  | edge e =>
    simp only [edge?, hb, Option.some.injEq] at h
    simp [type, hb, h]

@[simp] theorem mapNode_id (a : Anchor) (f : NodeRecord → NodeRecord) :
    (a.mapNode f).id = a.id := by
  unfold mapNode
  split <;> rfl

@[simp] theorem mapNode_version (a : Anchor) (f : NodeRecord → NodeRecord) :
    (a.mapNode f).version = a.version := by
  unfold mapNode
  split <;> rfl

@[simp] theorem mapNode_owner (a : Anchor) (f : NodeRecord → NodeRecord) :
    (a.mapNode f).owner = a.owner := by
  unfold mapNode
  split <;> rfl

@[simp] theorem mapNode_access (a : Anchor) (f : NodeRecord → NodeRecord) :
    (a.mapNode f).access = a.access := by
  unfold mapNode
  split <;> rfl

@[simp] theorem mapNode_permits (a : Anchor) (f : NodeRecord → NodeRecord) (root : RootId)
    (level : Level) : (a.mapNode f).permits root level = a.permits root level := by
  simp only [permits, effective, mapNode_owner, mapNode_access]

theorem mapNode_edge? (a : Anchor) (f : NodeRecord → NodeRecord) :
    (a.mapNode f).edge? = a.edge? := by
  unfold mapNode
  split
  · rename_i hb
    simp [edge?, hb]
  · rfl

theorem mapNode_type {f : NodeRecord → NodeRecord} (a : Anchor) (hf : ∀ r, (f r).type = r.type) :
    (a.mapNode f).type = a.type := by
  unfold mapNode
  split
  · rename_i r hb
    simp [type, hb, hf]
  · rfl

theorem mapNode_fields {f : NodeRecord → NodeRecord} (a : Anchor)
    (hf : ∀ r, (f r).fields = r.fields) : (a.mapNode f).fields = a.fields := by
  unfold mapNode
  split
  · rename_i r hb
    simp [fields, hb, hf]
  · rfl

theorem mapNode_node? {a : Anchor} {r : NodeRecord} (h : a.node? = some r)
    (f : NodeRecord → NodeRecord) : (a.mapNode f).node? = some (f r) := by
  cases hb : a.body with
  | node s =>
    simp only [node?, hb, Option.some.injEq] at h
    simp [mapNode, node?, hb, h]
  | edge s => simp [node?, hb] at h

@[simp] theorem withFields_id (a : Anchor) (f : Fields) : (a.withFields f).id = a.id := by
  unfold withFields
  split <;> rfl

@[simp] theorem withFields_owner (a : Anchor) (f : Fields) : (a.withFields f).owner = a.owner := by
  unfold withFields
  split <;> rfl

@[simp] theorem withFields_fields (a : Anchor) (f : Fields) : (a.withFields f).fields = f := by
  unfold withFields
  split <;> rfl

@[simp] theorem withFields_type (a : Anchor) (f : Fields) : (a.withFields f).type = a.type := by
  cases hb : a.body <;> simp [withFields, type, hb]

@[simp] theorem withFields_twin (a : Anchor) (f : Fields) :
    (a.withFields f).edge?.bind (·.twin) = a.edge?.bind (·.twin) := by
  cases hb : a.body <;> simp [withFields, edge?, hb]

@[simp] theorem clean_id (a : Anchor) : a.clean.id = a.id := rfl
@[simp] theorem clean_owner (a : Anchor) : a.clean.owner = a.owner := rfl
@[simp] theorem clean_access (a : Anchor) : a.clean.access = a.access := rfl
@[simp] theorem clean_version (a : Anchor) : a.clean.version = a.version := rfl
@[simp] theorem clean_type (a : Anchor) : a.clean.type = a.type := rfl
@[simp] theorem clean_fields (a : Anchor) : a.clean.fields = a.fields := rfl
@[simp] theorem clean_node? (a : Anchor) : a.clean.node? = a.node? := rfl
@[simp] theorem clean_edge? (a : Anchor) : a.clean.edge? = a.edge? := rfl
@[simp] theorem clean_effective (a : Anchor) (root : RootId) :
    a.clean.effective root = a.effective root := rfl
@[simp] theorem clean_permits (a : Anchor) (root : RootId) (level : Level) :
    a.clean.permits root level = a.permits root level := rfl
@[simp] theorem clean_clean (a : Anchor) : a.clean.clean = a.clean := rfl

end Anchor

/-! ## Ports -/

/-- Where an edge meets a node. -/
inductive Port
  | out | into
  deriving DecidableEq

/-- The other port. -/
def Port.flip : Port → Port
  | .out => .into
  | .into => .out

@[simp] theorem Port.flip_flip (p : Port) : p.flip.flip = p := by
  cases p <;> rfl

/-- The edges that a node lists at a port. -/
def NodeRecord.edgesAt (n : NodeRecord) : Port → List EdgeId
  | .out => n.outgoing
  | .into => n.incoming

/-- The node that an edge meets at a port: it leaves its source and enters its
target. -/
def EdgeRecord.endAt (e : EdgeRecord) : Port → NodeId
  | .out => e.source
  | .into => e.target

/-- Edges with the same ends and the same twin. -/
def EdgeRecord.Alike (r s : EdgeRecord) : Prop :=
  r.twin = s.twin ∧ ∀ p, r.endAt p = s.endAt p

/-- The edge `s` runs opposite to `r`, which is the edge `e`, and names it as
its twin. -/
def EdgeRecord.Mirrors (s r : EdgeRecord) (e : EdgeId) : Prop :=
  s.twin = some e ∧ ∀ p, s.endAt p = r.endAt p.flip

/-- The body of an anchor is of the kind that its identity says. -/
structure Anchor.Fits (a : Anchor) : Prop where
  node : ∀ {n}, a.id = .node n → ∃ r, a.node? = some r
  edge : ∀ {e}, a.id = .edge e → ∃ r, a.edge? = some r

/-- An anchor with a node record under the identity of a node. -/
def NodeIn (f : ObjectId → Option Anchor) (n : NodeId) (a : Anchor) (r : NodeRecord) : Prop :=
  f (.node n) = some a ∧ a.node? = some r

/-- An anchor with an edge record under the identity of an edge. -/
def EdgeIn (f : ObjectId → Option Anchor) (e : EdgeId) (a : Anchor) (r : EdgeRecord) : Prop :=
  f (.edge e) = some a ∧ a.edge? = some r

section Update

variable {f f' : ObjectId → Option Anchor} {x : Option Anchor} {n m : NodeId} {e k : EdgeId}
  {a : Anchor}

theorem NodeIn.of_node {r : NodeRecord} (hf : ∀ j, f' j = if j = .node n then x else f j)
    (h : NodeIn f' m a r) : (m = n ∧ x = some a ∧ a.node? = some r) ∨ (m ≠ n ∧ NodeIn f m a r) := by
  obtain ⟨ha, hr⟩ := h
  rw [hf] at ha
  by_cases hm : m = n
  · rw [if_pos (by rw [hm])] at ha
    exact .inl ⟨hm, ha, hr⟩
  · rw [if_neg (by simpa using hm)] at ha
    exact .inr ⟨hm, ha, hr⟩

theorem nodeIn_congr_edge {r : NodeRecord} (hf : ∀ j, f' j = if j = .edge e then x else f j) :
    NodeIn f' m a r ↔ NodeIn f m a r := by
  simp [NodeIn, hf]

theorem edgeIn_congr_node {r : EdgeRecord} (hf : ∀ j, f' j = if j = .node n then x else f j) :
    EdgeIn f' k a r ↔ EdgeIn f k a r := by
  simp [EdgeIn, hf]

theorem NodeIn.keep {r : NodeRecord} (hf : ∀ j, f' j = if j = .node n then x else f j)
    (hm : m ≠ n) (h : NodeIn f m a r) : NodeIn f' m a r := by
  refine ⟨?_, h.2⟩
  rw [hf, if_neg (by simpa using hm)]
  exact h.1

theorem EdgeIn.keep {r : EdgeRecord} (hf : ∀ j, f' j = if j = .edge e then x else f j)
    (hk : k ≠ e) (h : EdgeIn f k a r) : EdgeIn f' k a r := by
  refine ⟨?_, h.2⟩
  rw [hf, if_neg (by simpa using hk)]
  exact h.1

/-- A record is determined by where it is found. -/
theorem NodeIn.unique {b : Anchor} {r s : NodeRecord} (h : NodeIn f n a r) (h' : NodeIn f n b s) :
    a = b ∧ r = s := by
  obtain ⟨ha, hr⟩ := h
  obtain ⟨hb, hs⟩ := h'
  rw [ha] at hb
  cases hb
  rw [hr] at hs
  cases hs
  exact ⟨rfl, rfl⟩

theorem EdgeIn.unique {b : Anchor} {r s : EdgeRecord} (h : EdgeIn f e a r) (h' : EdgeIn f e b s) :
    a = b ∧ r = s := by
  obtain ⟨ha, hr⟩ := h
  obtain ⟨hb, hs⟩ := h'
  rw [ha] at hb
  cases hb
  rw [hr] at hs
  cases hs
  exact ⟨rfl, rfl⟩

end Update

/-- Referential integrity of a table of anchors: every edge has both its ends
and is listed exactly once at each of them, every listed edge is there and has
the listing node at that port, and the twin of an edge runs opposite to it and
names it as its own twin. -/
structure Whole (t : Table ObjectId Anchor) : Prop where
  fits : ∀ {id a}, t.get? id = some a → a.id = id ∧ a.Fits
  ends : ∀ {e a r}, EdgeIn t.get? e a r → ∀ p, ∃ b s, NodeIn t.get? (r.endAt p) b s ∧
    (s.edgesAt p).count e = 1
  listed : ∀ {n a r p e}, NodeIn t.get? n a r → e ∈ r.edgesAt p →
    ∃ b s, EdgeIn t.get? e b s ∧ s.endAt p = n
  twins : ∀ {e a r t'}, EdgeIn t.get? e a r → r.twin = some t' →
    ∃ b s, EdgeIn t.get? t' b s ∧ s.Mirrors r e

/-- A committed node. -/
def Setting.WasNode (c : Setting) (n : NodeId) (a : Anchor) (r : NodeRecord) : Prop :=
  c.past a ∧ a.id = .node n ∧ a.node? = some r

/-- A committed edge. -/
def Setting.WasEdge (c : Setting) (e : EdgeId) (a : Anchor) (r : EdgeRecord) : Prop :=
  c.past a ∧ a.id = .edge e ∧ a.edge? = some r

/-- What all committed anchors have in common, over all times: ends and twins of
an edge and the type of an object never change, and a node was always listing
edges that were there with it. -/
structure Lineage (c : Setting) : Prop where
  fits : ∀ {a}, c.past a → a.Fits
  alike : ∀ {e a r b s}, c.WasEdge e a r → c.WasEdge e b s → r.Alike s
  typed : ∀ {a b}, c.past a → c.past b → a.id = b.id → a.type = b.type
  nodup : ∀ {n a r}, c.WasNode n a r → ∀ p, (r.edgesAt p).Nodup
  listed : ∀ {n a r p e}, c.WasNode n a r → e ∈ r.edgesAt p →
    ∃ b s, c.WasEdge e b s ∧ s.endAt p = n
  paired : ∀ {n a r p e b s t}, c.WasNode n a r → e ∈ r.edgesAt p → c.WasEdge e b s →
    s.twin = some t → t ∈ r.edgesAt p.flip
  ends : ∀ {e a r}, c.WasEdge e a r → ∀ p, c.Committed (.node (r.endAt p))
  twins : ∀ {e a r t}, c.WasEdge e a r → r.twin = some t → ∃ b s, c.WasEdge t b s ∧ s.Mirrors r e

section Terms

variable (c : Setting) (dead : NodeId → Prop) (d : Draft)

/-- An edge that the commit of this draft would not leave behind. -/
def Gone (e : EdgeId) : Prop :=
  (∃ v, d.removed? (.edge e) = some v) ∨ c.stored.get? (.edge e) = none

/-- A node that no longer lists a removed edge, or will not once the draft is
committed. -/
def Freed (n : NodeId) : Prop :=
  (∃ v, d.removed? (.node n) = some v) ∨
    (∃ b, d.copy? (.node n) = some b ∧ (b.dirty = true ∨ dead n)) ∨
    (d.copy? (.node n) = none ∧ c.stored.get? (.node n) = none)

/-- An edge that the request does not see. -/
def Unseen (e : EdgeId) : Prop :=
  (∃ v, d.removed? (.edge e) = some v) ∨
    (d.copy? (.edge e) = none ∧ c.stored.get? (.edge e) = none)

/-- An edge that the commit of this draft would not leave behind, and that is
not new either. -/
def Lapsed (e : EdgeId) : Prop :=
  Gone c d e ∧ ∀ a, d.copy? (.edge e) = some a → a.version ≠ 0

/-- A new edge that is listed at both ends, together with its twin if it has
one. -/
def Attached (e : EdgeId) (r : EdgeRecord) : Prop :=
  (∀ p, ∃ b s, NodeIn d.copy? (r.endAt p) b s ∧ b.dirty = true ∧ e ∈ s.edgesAt p) ∧
    ∀ t, r.twin = some t → ∃ b s, EdgeIn d.copy? t b s ∧ b.version = 0 ∧ s.Mirrors r e

end Terms

/-- The changes of a draft fit together. -/
structure Wired (c : Setting) (due : EdgeId → Prop) (dead : NodeId → Prop) (d : Draft) : Prop where
  fits : ∀ {id a}, d.copy? id = some a → a.Fits
  alike : ∀ {e a r b s}, EdgeIn d.copy? e a r → c.WasEdge e b s → r.Alike s
  typed : ∀ {id a b}, d.copy? id = some a → c.past b → b.id = id → a.type = b.type
  nodup : ∀ {n a r}, NodeIn d.copy? n a r → ∀ p, (r.edgesAt p).Nodup
  /-- An edge that a copy no longer lists was removed, or is missing from the
  vault. -/
  lost : ∀ {n a r b s p e}, NodeIn d.copy? n a r → c.WasNode n b s → b.version = a.version →
    e ∈ s.edgesAt p → e ∈ r.edgesAt p ∨ Gone c d e ∨ due e
  /-- An edge that a copy lists was listed when the copy was made, or it is
  new. -/
  listed : ∀ {n a r p e}, NodeIn d.copy? n a r → e ∈ r.edgesAt p →
    (∃ b s, c.WasNode n b s ∧ b.version = a.version ∧ e ∈ s.edgesAt p) ∨
    (∃ b s, EdgeIn d.copy? e b s ∧ b.version = 0 ∧ s.endAt p = n) ∨
    (dead n ∧ d.copy? (.edge e) = none ∧ c.stored.get? (.edge e) = none)
  current : ∀ {n a r p e}, NodeIn d.copy? n a r → e ∈ r.edgesAt p → ¬ dead n →
    d.removed? (.edge e) = none
  attached : ∀ {e a r}, EdgeIn d.copy? e a r → a.version = 0 → ¬ due e → Attached d e r
  cut : ∀ {e v b s}, d.removed? (.edge e) = some v → c.WasEdge e b s →
    ∀ p, Freed c dead d (s.endAt p)
  cleared : ∀ {n v b s}, d.removed? (.node n) = some v → c.WasNode n b s → b.version = v →
    b.type ≠ rootType ∧ ∀ p, ∀ e ∈ s.edgesAt p, Gone c d e
  paired : ∀ {e v b s t}, d.removed? (.edge e) = some v → c.WasEdge e b s → s.twin = some t →
    Gone c d t ∨ due t

end Wayfarer
