import Wayfarer.Blake3
import Wayfarer.Bytes

/-!
# Identities

Everything stored is named by a 256-bit digest. Digests compare as numbers,
which is the order of their bytes. Nodes, edges, tenant roots and types have
identities of their own so that they cannot be mixed up; an `ObjectId` is a node
or an edge, all nodes before all edges.

* `TypeId.ofName`, `NodeId.ofLabel`, `EdgeId.ofLabel` and `RootId.ofTenant`
  derive identities from text, each under its own domain.
* `Mint` hands out fresh identities from a seed, an epoch and a counter.
-/

namespace Wayfarer

/-- A 256-bit digest. -/
structure Digest where
  bits : BitVec 256
  deriving DecidableEq, Inhabited

namespace Digest

/-- The digest whose big-endian bytes are given. -/
def ofBytes (bytes : Bytes) : Digest := ⟨BitVec.ofNat 256 (Bytes.ofBigEndian bytes)⟩

/-- The 32 bytes of a digest, most significant first. -/
def bytes (d : Digest) : Bytes := Bytes.bigEndian 32 d.bits.toNat

/-- The digest of a byte string. -/
def hash (bytes : Bytes) : Digest := ofBytes (Blake3.hash bytes)

/-- The digest of a text under a domain that keeps the uses of digests apart. -/
def ofText (domain text : String) : Digest :=
  hash (Bytes.ofString domain ++ Bytes.ofString text)

/-- All 64 hexadecimal digits. -/
def hex (d : Digest) : String := Bytes.hex d.bytes

/-- The first sixteen hexadecimal digits, by which messages name an object. -/
def short (d : Digest) : String := Bytes.hex (d.bytes.take 8)

@[simp] theorem length_bytes (d : Digest) : d.bytes.length = 32 := by simp [bytes]

@[simp] theorem ofBytes_bytes (d : Digest) : ofBytes d.bytes = d := by
  have h : d.bits.toNat < Bytes.limit 32 := by
    exact d.bits.isLt
  simp [ofBytes, bytes, Bytes.ofBigEndian_bigEndian h]

instance : Ord Digest := ⟨compareOn Digest.bits⟩

instance : Std.TransOrd Digest := inferInstanceAs (Std.TransCmp (compareOn Digest.bits))

instance : Std.LawfulEqOrd Digest where
  eq_of_compare {a b} h := by
    have hb : a.bits = b.bits :=
      Std.LawfulEqCmp.eq_of_compare (show compare a.bits b.bits = .eq from h)
    cases a
    cases b
    simpa using hb

end Digest

/-- The identity of a node. -/
structure NodeId where
  digest : Digest
  deriving DecidableEq, Inhabited

/-- The identity of an edge. -/
structure EdgeId where
  digest : Digest
  deriving DecidableEq, Inhabited

/-- The identity of a type of node, edge or walker. -/
structure TypeId where
  digest : Digest
  deriving DecidableEq, Inhabited

/-- The identity of a tenant: its root node, used as an owner and as a
principal. -/
structure RootId where
  node : NodeId
  deriving DecidableEq, Inhabited

/-- The identity of a stored object, which is also a position of a traveler. -/
inductive ObjectId
  | node (id : NodeId)
  | edge (id : EdgeId)
  deriving DecidableEq, Inhabited

instance : Coe NodeId ObjectId := ⟨.node⟩
instance : Coe EdgeId ObjectId := ⟨.edge⟩
instance : Coe RootId ObjectId := ⟨fun root => .node root.node⟩

instance : Ord NodeId := ⟨compareOn NodeId.digest⟩
instance : Ord EdgeId := ⟨compareOn EdgeId.digest⟩
instance : Ord TypeId := ⟨compareOn TypeId.digest⟩
instance : Ord RootId := ⟨compareOn RootId.node⟩

instance : Std.TransOrd NodeId := inferInstanceAs (Std.TransCmp (compareOn NodeId.digest))
instance : Std.TransOrd EdgeId := inferInstanceAs (Std.TransCmp (compareOn EdgeId.digest))
instance : Std.TransOrd TypeId := inferInstanceAs (Std.TransCmp (compareOn TypeId.digest))
instance : Std.TransOrd RootId := inferInstanceAs (Std.TransCmp (compareOn RootId.node))

instance : Std.LawfulEqOrd NodeId where
  eq_of_compare {a b} h := by
    have hb : a.digest = b.digest :=
      Std.LawfulEqCmp.eq_of_compare (show compare a.digest b.digest = .eq from h)
    cases a
    cases b
    simpa using hb

instance : Std.LawfulEqOrd EdgeId where
  eq_of_compare {a b} h := by
    have hb : a.digest = b.digest :=
      Std.LawfulEqCmp.eq_of_compare (show compare a.digest b.digest = .eq from h)
    cases a
    cases b
    simpa using hb

instance : Std.LawfulEqOrd TypeId where
  eq_of_compare {a b} h := by
    have hb : a.digest = b.digest :=
      Std.LawfulEqCmp.eq_of_compare (show compare a.digest b.digest = .eq from h)
    cases a
    cases b
    simpa using hb

instance : Std.LawfulEqOrd RootId where
  eq_of_compare {a b} h := by
    have hb : a.node = b.node :=
      Std.LawfulEqCmp.eq_of_compare (show compare a.node b.node = .eq from h)
    cases a
    cases b
    simpa using hb

namespace ObjectId

/-- The digest, whatever the kind of object. -/
def digest : ObjectId → Digest
  | .node id => id.digest
  | .edge id => id.digest

/-- The node, if the object is one. -/
def node? : ObjectId → Option NodeId
  | .node id => some id
  | .edge _ => none

/-- The edge, if the object is one. -/
def edge? : ObjectId → Option EdgeId
  | .edge id => some id
  | .node _ => none

/-- Whether the object is a node. -/
def isNode : ObjectId → Bool
  | .node _ => true
  | .edge _ => false

/-- The node whose digest this object has. -/
def asNode (id : ObjectId) : NodeId := ⟨id.digest⟩

/-- The edge whose digest this object has. -/
def asEdge (id : ObjectId) : EdgeId := ⟨id.digest⟩

/-- The text by which messages name an object. -/
def text : ObjectId → String
  | .node id => "n:" ++ id.digest.short
  | .edge id => "e:" ++ id.digest.short

/-- All nodes stand before all edges; within a kind the digests decide. -/
def order : ObjectId → ObjectId → Ordering
  | .node a, .node b => compare a b
  | .edge a, .edge b => compare a b
  | .node _, .edge _ => .lt
  | .edge _, .node _ => .gt

instance : Ord ObjectId := ⟨order⟩

theorem compare_node (a b : NodeId) : compare (node a) (node b) = compare a b := rfl
theorem compare_edge (a b : EdgeId) : compare (edge a) (edge b) = compare a b := rfl
theorem compare_node_edge (a : NodeId) (b : EdgeId) : compare (node a) (edge b) = .lt := rfl
theorem compare_edge_node (a : EdgeId) (b : NodeId) : compare (edge a) (node b) = .gt := rfl

instance : Std.OrientedOrd ObjectId where
  eq_swap {a b} := by
    cases a <;> cases b <;>
      simp only [compare_node, compare_edge, compare_node_edge, compare_edge_node]
    · exact Std.OrientedCmp.eq_swap
    · rfl
    · rfl
    · exact Std.OrientedCmp.eq_swap

instance : Std.TransOrd ObjectId where
  isLE_trans {a b c} h h' := by
    cases a <;> cases b <;> cases c <;>
      simp only [compare_node, compare_edge, compare_node_edge, compare_edge_node] at h h' ⊢
    all_goals first
      | exact Std.TransCmp.isLE_trans h h'
      | simp at h h' ⊢

instance : Std.LawfulEqOrd ObjectId where
  eq_of_compare {a b} h := by
    cases a <;> cases b <;>
      simp only [compare_node, compare_edge, compare_node_edge, compare_edge_node] at h
    · exact congrArg _ (Std.LawfulEqCmp.eq_of_compare h)
    · cases h
    · cases h
    · exact congrArg _ (Std.LawfulEqCmp.eq_of_compare h)

end ObjectId

/-- The text by which answers name a type. -/
def TypeId.text (id : TypeId) : String := "t:" ++ id.digest.short

/-- The type of a given name. -/
def TypeId.ofName (name : String) : TypeId := ⟨Digest.ofText "type:" name⟩

/-- The node of a given label. -/
def NodeId.ofLabel (label : String) : NodeId := ⟨Digest.ofText "node:" label⟩

/-- The edge of a given label. -/
def EdgeId.ofLabel (label : String) : EdgeId := ⟨Digest.ofText "edge:" label⟩

/-- The root of a tenant, a function of the tenant's name alone. -/
def RootId.ofTenant (tenant : String) : RootId := ⟨⟨Digest.ofText "root:" tenant⟩⟩

/-- A source of fresh identities. Its stamp depends on a seed and on an epoch
that no two mints over one durable tier share; its counter is shared by nodes
and edges. -/
structure Mint where
  stamp : Digest
  count : UInt64
  deriving DecidableEq, Inhabited

namespace Mint

/-- The mint of a seed in an epoch. -/
def new (seed : String) (epoch : UInt64) : Mint where
  stamp := Digest.hash
    (Bytes.ofString "mint:" ++ Bytes.ofString seed ++ Bytes.littleEndian 8 epoch.toNat)
  count := 0

/-- The digest a mint with a given stamp hands out at a given count. -/
def digestAt (domain : String) (stamp : Digest) (count : UInt64) : Digest :=
  Digest.hash (Bytes.ofString domain ++ stamp.bytes ++ Bytes.littleEndian 8 count.toNat)

/-- The mint after one more identity. -/
def advance (m : Mint) : Mint := { m with count := m.count + 1 }

/-- The next identity as a node. -/
def nextNode (m : Mint) : NodeId := ⟨digestAt "node:" m.stamp m.count⟩

/-- The next identity as an edge. -/
def nextEdge (m : Mint) : EdgeId := ⟨digestAt "edge:" m.stamp m.count⟩

end Mint

end Wayfarer
