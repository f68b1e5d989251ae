import Wayfarer.Proofs.View.Search

/-!
# Views as graphs

A view is `Consistent` if nodes and edges are found under identities of their
kind, and if the lists of nodes and the ends of edges tell the same story: both
ends of an edge are there and list it, and whatever a node lists is an edge with
that node as its end. The searches of `Reclaim` then follow the edges as they
are (`Consistent.feeds_eq`, `Consistent.offers_eq`).

A view is `Twinned` if the two halves of every undirected link belong together.
-/

namespace Wayfarer

namespace View

/-- Some edge leads from `m` to `n`. -/
def Leads (v : View) (m n : NodeId) : Prop :=
  ∃ e a r, EdgeIn v e a r ∧ r.source = m ∧ r.target = n

/-- A path of edges leads to the node from a root of some tenant. -/
def Anchored (v : View) (n : NodeId) : Prop := v.Rooted v.Leads n

/-- Nodes and edges are found under identities of their kind, and lists and ends
agree. -/
structure Consistent (v : View) : Prop where
  nodes : ∀ {n a}, v (.node n) = some a → ∃ r, a.node? = some r
  edges : ∀ {e a}, v (.edge e) = some a → ∃ r, a.edge? = some r
  ends : ∀ {e a r}, EdgeIn v e a r → ∀ p, ∃ b s, NodeIn v (r.endAt p) b s ∧ e ∈ s.edgesAt p
  listed : ∀ {n a r p e}, NodeIn v n a r → e ∈ r.edgesAt p →
    ∃ b s, EdgeIn v e b s ∧ s.endAt p = n

/-- The twin of an edge is there, runs opposite and names it as its own twin. -/
def Mirrored (v : View) : Prop :=
  ∀ {e a r t}, EdgeIn v e a r → r.twin = some t → ∃ b s, EdgeIn v t b s ∧ s.Mirrors r e

/-- Twins are mirrored, and both have the same owner and the same access
list. -/
def Twinned (v : View) : Prop :=
  ∀ {e a r t}, EdgeIn v e a r → r.twin = some t →
    ∃ b s, EdgeIn v t b s ∧ s.Mirrors r e ∧ b.owner = a.owner ∧ b.access = a.access

namespace Consistent

variable {v : View} {m n : NodeId} {root : RootId} {first : NodeId → Prop}

theorem listed_iff (h : v.Consistent) {a : Anchor} {r : NodeRecord} {p : Port} {e : EdgeId}
    (ha : NodeIn v n a r) : e ∈ r.edgesAt p ↔ ∃ b s, EdgeIn v e b s ∧ s.endAt p = n := by
  refine ⟨h.listed ha, ?_⟩
  rintro ⟨b, s, hb, rfl⟩
  obtain ⟨c, u, hc, hin⟩ := h.ends hb p
  obtain ⟨_, rfl⟩ := ha.unique hc
  exact hin

/-- An edge that a node lists at a port has the node as its end there. -/
theorem endAt_eq (h : v.Consistent) {a b : Anchor} {r : NodeRecord} {s : EdgeRecord} {p : Port}
    {e : EdgeId} (ha : NodeIn v n a r) (he : e ∈ r.edgesAt p) (hb : EdgeIn v e b s) :
    s.endAt p = n := by
  obtain ⟨b', s', hb', hend⟩ := h.listed ha he
  obtain ⟨-, rfl⟩ := hb.unique hb'
  exact hend

/-- What a node lists next to it is what an edge connects it with. -/
theorem beside_iff (h : v.Consistent) {p : Port} :
    v.Beside p n m ↔ ∃ e a r, EdgeIn v e a r ∧ r.endAt p = n ∧ r.endAt p.flip = m := by
  constructor
  · rintro ⟨a, r, e, b, s, ha, hin, hb, hend⟩
    obtain ⟨b', s', hb', hn⟩ := h.listed ha hin
    obtain ⟨_, rfl⟩ := hb.unique hb'
    exact ⟨e, b, s, hb, hn, hend⟩
  · rintro ⟨e, b, s, hb, rfl, hm⟩
    obtain ⟨a, r, ha, hin⟩ := h.ends hb p
    exact ⟨a, r, e, b, s, ha, hin, hb, hm⟩

/-- A node lists the twin of an edge that it lists. -/
theorem lists_twin (h : v.Consistent) (hm : v.Mirrored) {a b : Anchor} {r : NodeRecord}
    {s : EdgeRecord} {e t : EdgeId} {p : Port} (ha : NodeIn v n a r) (he : e ∈ r.edgesAt p)
    (hb : EdgeIn v e b s) (ht : s.twin = some t) : t ∈ r.edgesAt p.flip := by
  obtain ⟨b', s', hb', hend⟩ := h.listed ha he
  obtain ⟨_, rfl⟩ := hb.unique hb'
  obtain ⟨c, u, hc, hmir⟩ := hm hb ht
  refine (h.listed_iff ha).2 ⟨c, u, hc, ?_⟩
  rw [hmir.2, Port.flip_flip, hend]

theorem feeds_eq (h : v.Consistent) : v.Feeds = v.Leads := by
  funext m n
  exact propext (h.beside_iff.trans (exists_congr fun _ => exists_congr fun _ =>
    exists_congr fun _ => and_congr_right fun _ => and_comm))

theorem offers_eq (h : v.Consistent) : v.Offers = v.Leads := by
  funext m n
  exact propext h.beside_iff

end Consistent

end View

end Wayfarer
