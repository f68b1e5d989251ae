import Wayfarer.Proofs.View.Reclaiming

/-!
# Confinement

What one tenant's work may do to the objects that others see: `View.Confined`
says it of the views before and after. Work keeps a view `Orderly`, that is
consistent and with matching twins.
-/

namespace Wayfarer

/-- What an object is does not change: its identity, owner, type and kind, and
the ends, the direction and the twin of an edge. -/
structure Anchor.Persists (a b : Anchor) : Prop where
  id : b.id = a.id
  owner : b.owner = a.owner
  type : b.type = a.type
  node : ∀ {r}, a.node? = some r → ∃ s, b.node? = some s
  edge : ∀ {r}, a.edge? = some r → ∃ s, b.edge? = some s ∧ s.source = r.source ∧
    s.target = r.target ∧ s.directed = r.directed ∧ s.twin = r.twin

namespace View

/-- A consistent view with matching twins. -/
structure Orderly (v : View) : Prop extends Consistent v where
  twinned : v.Twinned

theorem Orderly.mirrored {v : View} (h : v.Orderly) : v.Mirrored := fun ha ht => by
  obtain ⟨b, s, hb, hmir, _⟩ := h.twinned ha ht
  exact ⟨b, s, hb, hmir⟩

/-- A tenant has at least a certain level on a node. -/
def Permits (v : View) (root : RootId) (n : NodeId) (level : Level) : Prop :=
  ∃ a, v (.node n) = some a ∧ a.permits root level = true

/-- An edge of which an end has disappeared. -/
def Severed (v v' : View) (e : EdgeId) : Prop :=
  ∃ a r, EdgeIn v e a r ∧ ∃ p, v' (.node (r.endAt p)) = none

/-- The difference between two views is one that a tenant may make. -/
structure Confined (root : RootId) (v v' : View) : Prop where
  persists : ∀ {id a b}, v id = some a → v' id = some b → a.Persists b
  edits : ∀ {id a b}, v id = some a → v' id = some b → b.fields ≠ a.fields ∨ b.access ≠ a.access →
    a.effective root = some .write
  nodes : ∀ {n a}, v (.node n) = some a → v' (.node n) = none →
    a.effective root = some .write ∧ a.type ≠ rootType
  edges : ∀ {e a r}, EdgeIn v e a r → v' (.edge e) = none →
    (∀ p, v.Permits root (r.endAt p) .connect) ∨ ∃ p, v.Permits root (r.endAt p) .write
  lists : ∀ {n a r b s}, NodeIn v n a r → NodeIn v' n b s → (∃ p, s.edgesAt p ≠ r.edgesAt p) →
    a.permits root .connect = true ∨ ∃ gone : List EdgeId, (∀ e, e ∈ gone ↔ v.Severed v' e) ∧
      ∀ p, s.edgesAt p = (r.edgesAt p).filter fun e => e ∉ gone
  fresh : ∀ {id b}, v id = none → v' id = some b → b.owner = root ∧ b.access = Access.ownerOnly

end View

/-! ## Objects that persist -/

namespace Anchor

namespace Persists

variable {a b c : Anchor}

theorem refl (a : Anchor) : a.Persists a :=
  ⟨rfl, rfl, rfl, fun {r} hr => ⟨r, hr⟩, fun {r} hr => ⟨r, hr, rfl, rfl, rfl, rfl⟩⟩

theorem trans (h : a.Persists b) (h' : b.Persists c) : a.Persists c := by
  refine ⟨h'.id.trans h.id, h'.owner.trans h.owner, h'.type.trans h.type, fun hr => ?_,
    fun hr => ?_⟩
  · obtain ⟨s, hs⟩ := h.node hr
    exact h'.node hs
  · obtain ⟨s, hs, hsource, htarget, hdir, htwin⟩ := h.edge hr
    obtain ⟨u, hu, hsource', htarget', hdir', htwin'⟩ := h'.edge hs
    exact ⟨u, hu, hsource'.trans hsource, htarget'.trans htarget, hdir'.trans hdir,
      htwin'.trans htwin⟩

theorem mapNode {f : NodeRecord → NodeRecord} (hf : ∀ r, (f r).type = r.type) :
    a.Persists (a.mapNode f) := by
  refine ⟨mapNode_id .., mapNode_owner .., mapNode_type a hf, fun {r} hr => ?_, fun {r} hr => ?_⟩
  · exact ⟨f r, mapNode_node? hr f⟩
  · exact ⟨r, (mapNode_edge? ..).trans hr, rfl, rfl, rfl, rfl⟩

/-- The record of an edge keeps its ends and its twin. -/
theorem alike {r s : EdgeRecord} (h : a.Persists b) (hr : a.edge? = some r)
    (hs : b.edge? = some s) : s.Alike r := by
  obtain ⟨u, hu, hsource, htarget, _, htwin⟩ := h.edge hr
  rw [hs] at hu
  cases hu
  refine ⟨htwin, ?_⟩
  rintro (_ | _)
  · exact hsource
  · exact htarget

end Persists

end Anchor

/-! ## Levels -/

theorem Anchor.effective_of_owner {a : Anchor} {root : RootId} (h : a.owner = root) :
    a.effective root = some .write := if_pos h

theorem Anchor.permits_of_write {a : Anchor} {root : RootId} {level : Level}
    (h : a.effective root = some .write) : a.permits root level = true := by
  unfold permits
  rw [h]
  cases level <;> rfl

theorem Anchor.effective_of_permits {a : Anchor} {root : RootId}
    (h : a.permits root .write = true) : a.effective root = some .write := by
  unfold permits at h
  split at h
  · rename_i held hheld
    cases held with
    | write => exact hheld
    | read => cases h
    | connect => cases h
  · cases h

namespace View

variable {v v' v'' : View} {root : RootId}

theorem Confined.refl : v.Confined root v := by
  refine ⟨fun ha hb => ?_, fun ha hb hne => ?_, fun ha hn => ?_, fun ha hn => ?_,
    fun ha hb hne => ?_, fun hn hb => ?_⟩
  · rw [ha] at hb
    cases hb
    exact .refl _
  · rw [ha] at hb
    cases hb
    exact (hne.elim (fun h => h rfl) fun h => h rfl).elim
  · rw [ha] at hn
    cases hn
  · rw [ha.1] at hn
    cases hn
  · obtain ⟨_, rfl⟩ := ha.unique hb
    obtain ⟨p, hp⟩ := hne
    exact absurd rfl hp
  · rw [hn] at hb
    cases hb

end View

end Wayfarer
