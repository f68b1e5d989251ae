import Wayfarer.Proofs.Concourse.Opening
import Wayfarer.Proofs.Tenancy.Requests

/-!
# Stored if and only if reachable

What the requests of a single tenant commit is what the tenant's root leads to
(`stores_exactly_what_is_reachable`). The vault is one of the durable tiers of
which this is true (`Store.vault`).
-/

namespace Wayfarer

/-- A tier that holds nothing is settled, whoever the tenant is. -/
theorem Tier.settled_of_empty {σ : Type} [Durable σ] {t : Tier σ} (root : RootId)
    (h : ∀ id, t.stored id = none) : t.Settled root := by
  have hno : ∀ {id a}, t.stored id ≠ some a := fun {id a} ha => by
    cases (h id).symm.trans ha
  exact ⟨⟨⟨⟨fun ha => absurd ha hno, fun ha => absurd ha hno, fun ha => absurd ha.1 hno,
    fun ha => absurd ha.1 hno⟩, fun ha => absurd ha.1 hno⟩, fun ha => absurd ha hno,
    fun ha => absurd ha.1 hno⟩, fun ha => absurd ha hno, fun ha => absurd ha hno⟩

/-- In a realm in which a single tenant works, whatever sessions and walks
follow one another: after every commit that succeeds the tenant's root leads to
every stored node that is no root, and whatever it led to in the view of the
committing request is stored. The realm starts over a durable tier that is empty
or that requests like these have left; each operation mints identities that are
new. -/
theorem stores_exactly_what_is_reachable {σ : Type} [Durable σ] (store : Store σ) {root : RootId}
    {rulebook : Rulebook} {config : RealmConfig} {durable durable' : σ} {realm : Realm σ}
    (hstart : Realm.start rulebook config durable = .ok realm durable')
    (hs : store.holds durable) (ht : (store.tier hs).Settled root) (requests : List Request)
    (hops : ∀ {desk op}, .performs desk op ∈ realm.journal root requests → store.Admits desk op) :
    (∀ {before after}, .commits before after ∈ realm.journal root requests →
        store.Reconciles root before after) ∧
      ∃ h : store.holds (realm.play root requests).shared.durable, (store.tier h).Settled root := by
  have hallowed : ∀ x ∈ realm.journal root requests, store.Allows x := by
    intro x hx
    cases x with
    | performs desk op => exact hops hx
    | commits before after => trivial
  obtain ⟨hend, hvouch⟩ := (Store.Rests.start hstart hs ht).journal requests hallowed
  exact ⟨fun hx => hvouch _ hx, hend.holds, hend.settled⟩

/-! ## The vault -/

theorem Vault.tidy_writes {writes : List Anchor} {t : Table ObjectId Anchor} {id : ObjectId}
    {b : Anchor} (htidy : ∀ {id a}, t.get? id = some a → a.id = id ∧ a.dirty = false)
    (hb : (writes.foldl (fun t a => t.insert a.id a.clean) t).get? id = some b) :
    b.id = id ∧ b.dirty = false := by
  induction writes generalizing t with
  | nil => exact htidy hb
  | cons x rest ih =>
    refine ih (fun ha => ?_) hb
    rw [Table.get?_insert] at ha
    split at ha
    · rename_i hid
      cases ha
      exact ⟨hid.symm, rfl⟩
    · exact htidy ha

/-- Vaults with clean anchors under their own identities. -/
def Store.vault : Store Vault where
  holds v := ∀ {id a}, v.anchors.get? id = some a → a.id = id ∧ a.dirty = false
  content := Vault.anchors
  tidy h ha := h ha
  size_le _ := Nat.le_refl _
  fetch h id := ⟨_, rfl, h, rfl⟩
  applied := by
    intro v v' batch u h happly
    change Vault.apply batch v = _ at happly
    unfold Vault.apply at happly
    split at happly
    · rename_i hcheck
      cases happly
      refine ⟨⟨fun {id a} ha => ?_, rfl⟩, ?_⟩
      · simp only [Vault.overlay, Vault.get?_deletes] at ha
        split at ha
        · cases ha
        · exact Vault.tidy_writes h ha
      · unfold Batch.check at hcheck
        split at hcheck
        · assumption
        · cases hcheck
    · cases happly
  refused := by
    intro v v' batch e h happly
    change Vault.apply batch v = _ at happly
    unfold Vault.apply at happly
    split at happly
    · cases happly
    · cases happly
      exact ⟨h, rfl⟩
  begun := by
    intro v v' epoch h hepoch
    cases hepoch
    exact ⟨h, rfl⟩

section Outing

/-- A schema of places. -/
def Travel.places : Rulebook :=
  (Rulebook.build
    (Schema.base.extend [⟨"place", .node, none, Fields.empty⟩] [])).toOption.getD default

/-- A realm of places that has just started over an empty vault. -/
def Travel.unsettled : Realm Vault := .over Travel.places .default Vault.empty

theorem Travel.unsettled_starts : Realm.start Travel.places .default Vault.empty =
    .ok Travel.unsettled Travel.unsettled.shared.durable := Realm.start_eq

/-- A tenant gets a root, links a place to it and commits. -/
def Travel.outing : List Request :=
  let root := RootId.ofTenant "acme"
  [.createRoot "acme",
    .session [.perform (.createLinked root.node "place" Fields.empty plainEdgeName), .commit]]

/-- Whether an operation noted creates places only, under names that the request
does not know. -/
def Incident.modest : Incident Vault → Bool
  | .performs d (.createLinked source type fields edgeType) =>
    let names := d.shared.mint.upcoming (Op.createLinked source type fields edgeType).mints
    decide names.Nodup && names.all (fun id =>
      !d.draft.volatile.contains id && !d.draft.tombstones.contains id &&
        !d.shared.durable.anchors.contains id) && decide (TypeId.ofName type ≠ rootType)
  | .performs _ _ => false
  | .commits _ _ => true

theorem Store.admits_of_modest {d : Desk Vault} {op : Op}
    (h : (Incident.performs d op).modest = true) : Store.vault.Admits d op := by
  cases op with
  | createLinked source type fields edgeType =>
    simp only [Incident.modest, Bool.and_eq_true, decide_eq_true_eq, List.all_eq_true,
      Bool.not_eq_true'] at h
    obtain ⟨⟨hnodup, hnew⟩, htype⟩ := h
    refine ⟨Mint.ample_of_nodup hnodup fun id hid => ?_, fun hc => htype hc.1.symm⟩
    obtain ⟨⟨hcopy, hremoved⟩, hstored⟩ := hnew id hid
    rintro ((hm | hm) | hm)
    · exact absurd (Table.contains_iff.2 hm) (Bool.eq_false_iff.1 hcopy)
    · exact absurd (Table.contains_iff.2 hm) (Bool.eq_false_iff.1 hremoved)
    · exact absurd (Table.contains_iff.2 hm) (Bool.eq_false_iff.1 hstored)
  | _ => cases h

/-- Whether a commit noted leaves so many objects stored. -/
def Incident.fills (size : Nat) : Incident Vault → Bool
  | .performs _ _ => false
  | .commits _ after => after.shared.durable.anchors.size = size

theorem Travel.outing_modest :
    (Travel.unsettled.journal (RootId.ofTenant "acme") Travel.outing).all Incident.modest = true ∧
      (Travel.unsettled.journal (RootId.ofTenant "acme") Travel.outing).any (Incident.fills 3) =
        true := by
  decide +kernel

/-- The place and the road to it are stored, and the root leads there. -/
theorem outing_stores_what_is_reachable : ∃ before after,
    .commits before after ∈ Travel.unsettled.journal (RootId.ofTenant "acme") Travel.outing ∧
      after.shared.durable.anchors.size = 3 ∧
      Store.vault.Reconciles (RootId.ofTenant "acme") before after := by
  obtain ⟨hmodest, hfills⟩ := Travel.outing_modest
  obtain ⟨x, hx, hsize⟩ := List.any_eq_true.1 hfills
  cases x with
  | performs => cases hsize
  | commits before after =>
    refine ⟨before, after, hx, of_decide_eq_true hsize, ?_⟩
    exact (stores_exactly_what_is_reachable Store.vault Travel.unsettled_starts
      (fun ha => by cases ha) (Tier.settled_of_empty _ fun _ => rfl) Travel.outing
      fun hop => Store.admits_of_modest (List.all_eq_true.1 hmodest _ hop)).1 hx

end Outing

end Wayfarer
