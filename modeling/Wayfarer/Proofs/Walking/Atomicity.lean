import Wayfarer.Proofs.Assembly
import Wayfarer.Proofs.Strokes

/-!
# All of a walk or nothing

While a traveler walks, nothing reaches the vault, whatever its abilities do. A
walk that fails or is stopped leaves the vault as it was; one that comes to an
end by itself sends its draft there in one batch, after what its root does not
lead to was removed from it (`Realm.walk_is_all_or_nothing`).

* `Draft.Flushed` says of two vaults that a draft was sent in between.
-/

namespace Wayfarer

/-! ## One batch -/

/-- The vault after a draft was sent to it as one batch: what was changed is
stored one version later, over the version that the change started from; what
was removed is gone, and everything else is as it was. -/
structure Draft.Flushed (d : Draft) (v v' : Vault) : Prop where
  batch : Vault.apply d.batch v = .ok () v'
  epoch : v'.epoch = v.epoch
  written : ∀ {id a}, d.copy? id = some a → a.dirty = true →
    v'.anchors.get? id = some { a with version := a.version + 1, dirty := false } ∧
      (a.version + 1 ≠ 0 → (v.version? id).getD 0 = a.version)
  removed : ∀ {id version}, d.removed? id = some version →
    v'.anchors.get? id = none ∧ (v.version? id).getD 0 = version
  rest : ∀ {id}, ¬ d.Pending id → v'.anchors.get? id = v.anchors.get? id

theorem Draft.Keyed.flushed {d : Draft} (h : d.Keyed) {v : Vault}
    (hconflict : Batch.conflict? v.version? d.batch.expectations = none) :
    d.Flushed v { v with anchors := Vault.overlay v.anchors d.batch } := by
  have hmet := Batch.conflict?_eq_none.1 hconflict
  refine ⟨by simp only [Vault.apply, Batch.check, hconflict], rfl, ?_, ?_, h.overlay_of_idle⟩
  · intro id a ha hdirty
    refine ⟨h.overlay_of_dirty ha hdirty, fun hroom => ?_⟩
    have hmem : (id, Batch.expected (a.version + 1)) ∈ d.batch.expectations := by
      refine List.mem_append_left _ (List.mem_map.2 ⟨a.committed, ?_, ?_⟩)
      · exact Draft.mem_writes.2 ⟨id, a, ha, hdirty, rfl⟩
      · rw [h.own_committed ha, Anchor.committed_version]
    rw [hmet _ _ hmem, expected_succ hroom]
  · intro id version hr
    exact ⟨overlay_of_removed hr, hmet _ _ (List.mem_append_right _ (Draft.mem_deletes.2 hr))⟩

/-! ## During a walk -/

/-- Anything may be given. -/
def Terms.any : Terms := ⟨fun _ _ => True, fun _ _ => True, fun _ => True⟩

theorem Op.meets_any (op : Op) : op.Meets Terms.any := by
  cases op <;> first | exact trivial | exact ⟨trivial, trivial⟩

/-- Anchors under their own identities above a vault that stays as it is. -/
def Vault.untouched (v : Vault) (hown : ∀ {id a}, v.anchors.get? id = some a → a.id = id) :
    Holdings Vault where
  good id a := a.id = id
  own h := h
  marked _ _ h := h
  holds v' := v' = v
  fetched := by
    rintro _ v' id a rfl hfetch
    injection hfetch with hfound
    exact hown hfound
  kept := by
    rintro _ id rfl
    rfl

/-- Something noted that is no commit. -/
def Incident.Inward {σ : Type} : Incident σ → Prop
  | .performs _ _ => True
  | .commits _ _ => False

section Untouched

variable {v : Vault} {hown : ∀ {id a}, v.anchors.get? id = some a → a.id = id} {rules : Rulebook}

theorem Vault.untouched_strokes :
    Strokes rules Terms.any (fun _ => True) fun _ => (v.untouched hown).Desks :=
  Holdings.strokes (fun _ _ _ => rfl) (fun _ _ _ _ _ _ => rfl)
    (fun _ hid => (Anchor.mapNode_id ..).trans hid) (fun _ hid => hid)
    fun _ _ hid => (Anchor.withFields_id ..).trans hid

/-- Up to the next commit nothing that is done at a desk reaches the vault. -/
theorem Vault.untouched_custom :
    Desk.Custom rules Incident.Inward (fun _ => True) fun _ => (v.untouched hown).Desks where
  browses _ := Holdings.browses
  shared h _ := ⟨h.draft, h.tiers.durable, h.tiers.cached⟩
  rollback h := ⟨.of_empty rfl, h.tiers⟩
  evict h := ⟨h.draft.evict, h.tiers⟩
  performs {n} _ _ op ha h _ := ⟨untouched_strokes.run (n := n) ha op.meets_any h, trivial⟩
  concludes {_ d} root h hx := by
    have hconclude : Work.Ends (Desk.conclude root) d (fun _ _ => True)
        fun _ => (v.untouched hown).Desks := by
      have hstrokes : Strokes rules Terms.any (fun _ => True) fun _ => (v.untouched hown).Desks :=
        untouched_strokes
      refine (hstrokes.evictUnreachable (n := 0) root d h).andThen fun _ ready h' => ?_
      exact ready.commit_outcome.mono (fun _ _ _ => trivial) fun _ _ hend => hend.2 ▸ h'
    refine ⟨?_, fun _ _ => trivial⟩
    unfold Desk.attempt at hx
    unfold endOf
    cases hw : Desk.conclude root d with
    | ok receipt d' =>
      simp only [hw] at hx
      exact (hx _ (List.mem_singleton_self _)).elim
    | error e d' => exact hconclude.error hw

end Untouched

/-! ## Walks -/

namespace Realm

variable {r : Realm Vault} {root : RootId} {conduct : Ability → Conduct Unit} {fuel : Nat}
  {request : SpawnRequest}

/-- What a walk that came to an end by itself did to the vault: what it had
staged and changed at its end was sent there in one batch, without what its root
did not lead to. -/
def Settled (r : Realm Vault) (conduct : Ability → Conduct Unit) (fuel : Nat) (root : RootId)
    (request : SpawnRequest) (journey : Journey) (v : Vault) : Prop :=
  ∃ departure start final gone ready,
    r.depart (r.semantics root conduct) root request ⟨Draft.empty, r.shared⟩ = .ok departure start ∧
      departure.walk.run fuel departure.traveler departure.start start = .ok journey final ∧
        Desk.evictUnreachable root final = .ok gone ready ∧
          ready.draft.Flushed r.shared.durable v

/-- The end of a walk that came to an end by itself: the vault stays as it is,
or receives all. -/
theorem arrival_ends {journey : Journey} {final : Desk Vault} {v : Vault}
    {hown : ∀ {id a}, v.anchors.get? id = some a → a.id = id} (h : (v.untouched hown).Desks final)
    (hhalt : journey.halt.commits = true) :
    Work.Ends (arrival root journey) final
      (fun answer d' => answer = journey ∧ ∃ gone ready,
        Desk.evictUnreachable root final = .ok gone ready ∧
          ready.draft.Flushed v d'.shared.durable)
      fun _ d' => d'.shared.durable = v := by
  have hstrokes : Strokes default Terms.any (fun _ => True) fun _ => (v.untouched hown).Desks :=
    Vault.untouched_strokes
  have hevict := hstrokes.evictUnreachable (n := 0) root final h
  unfold arrival
  rw [if_pos hhalt]
  cases hw : Desk.evictUnreachable root final with
  | error e d => exact .bind (.bind (.of_error hw (hevict.error hw).tiers.durable))
  | ok gone ready =>
    have hready := hevict.ok hw
    refine .bind (.bind (.of_ok hw (ready.commit_outcome.mono ?_ ?_)))
    · rintro receipt d' ⟨_, hconflict, rfl⟩
      refine .pure ⟨rfl, gone, ready, rfl, ?_⟩
      obtain rfl : ready.shared.durable = v := hready.tiers.durable
      have hpublished : ready.published.shared.durable =
          { ready.shared.durable with
            anchors := Vault.overlay ready.stored ready.draft.batch } := by
        simp only [Desk.published, Shared.settle_durable]
      exact hpublished ▸ hready.draft.keyed.flushed hconflict
    · rintro e d' ⟨_, rfl⟩
      exact hready.tiers.durable

/-- The request of a walk, from the departure to the end. -/
theorem journey_ends (hstored : ∀ {id a}, r.shared.durable.anchors.get? id = some a → a.id = id)
    (hcached : ∀ {id e a}, r.shared.cache.entries.get? id = some e → e.anchor = some a →
      a.id = id) :
    Work.Ends (r.journey (r.semantics root conduct) fuel root request) ⟨Draft.empty, r.shared⟩
      (fun journey d => if journey.halt.commits then
          r.Settled conduct fuel root request journey d.shared.durable
        else d.shared.durable = r.shared.durable)
      fun _ d => d.shared.durable = r.shared.durable := by
  -- setting out and walking work at the desk of the request; the vault is left alone
  -- until the end
  have hcustom : Desk.Custom r.rulebook Incident.Inward (fun _ => True)
      fun _ => (r.shared.durable.untouched hstored).Desks := Vault.untouched_custom
  have hstart : (r.shared.durable.untouched hstored).Desks ⟨Draft.empty, r.shared⟩ :=
    ⟨.of_empty rfl, rfl, hcached⟩
  have hdepart := hcustom.depart (n := 0) r root (r.semantics root conduct) request hstart
  rw [journey_eq]
  cases hw : r.depart (r.semantics root conduct) root request ⟨Draft.empty, r.shared⟩ with
  | error e d => exact .bind (.of_error hw (hdepart.error hw).tiers.durable)
  | ok departure d =>
    obtain ⟨hd, hsem⟩ := hdepart.ok hw
    have hactor : (r.actor root).rulebook = r.rulebook := rfl
    have hwalk : Work.Ends (departure.walk.run fuel departure.traveler departure.start) d
        (fun _ => (r.shared.durable.untouched hstored).Desks)
        fun _ => (r.shared.durable.untouched hstored).Desks :=
      ((hcustom.affords hactor hsem).run (n := 0) hd fun _ _ => trivial).1
    refine .bind (.of_ok hw (.bind ?_))
    cases hrun : departure.walk.run fuel departure.traveler departure.start d with
    | error e final => exact .of_error hrun (hwalk.error hrun).tiers.durable
    | ok journey final =>
      have hfinal := hwalk.ok hrun
      refine .of_ok hrun ?_
      cases hhalt : journey.halt.commits with
      | false =>
        unfold arrival
        rw [hhalt, if_neg Bool.false_ne_true]
        refine .pure ?_
        rw [hhalt, if_neg Bool.false_ne_true]
        exact hfinal.tiers.durable
      | true =>
        refine (arrival_ends hfinal hhalt).imp ?_
        rintro answer d' ⟨rfl, gone, ready, hevict, hflushed⟩
        rw [if_pos hhalt]
        exact ⟨departure, d, final, gone, ready, hw, hrun, hevict, hflushed⟩

theorem spawn_eq (r : Realm Vault) : spawn conduct fuel root request r =
    match r.journey (r.semantics root conduct) fuel root request ⟨Draft.empty, r.shared⟩ with
    | .ok journey d => .ok journey { r with shared := d.shared }
    | .error e d => .error e { r with shared := d.shared } := by
  unfold spawn Realm.request work semantics
  simp only
  split <;> rename_i heq <;> split at heq <;> cases heq <;> rename_i hw <;> rw [hw]

/-- If a walk fails or was stopped, the vault is as it was before; if it came to
an end by itself, exactly its draft was sent to the vault. -/
theorem walk_is_all_or_nothing (conduct : Ability → Conduct Unit) (fuel : Nat) (root : RootId)
    (request : SpawnRequest)
    (hstored : ∀ {id a}, r.shared.durable.anchors.get? id = some a → a.id = id)
    (hcached : ∀ {id e a}, r.shared.cache.entries.get? id = some e → e.anchor = some a →
      a.id = id) :
    (∀ {e r'}, spawn conduct fuel root request r = .error e r' →
      r'.shared.durable = r.shared.durable) ∧
    ∀ {journey r'}, spawn conduct fuel root request r = .ok journey r' →
      match journey.halt with
      | .completed | .disengaged => r.Settled conduct fuel root request journey r'.shared.durable
      | .cancelled | .timedOut | .stepLimit => r'.shared.durable = r.shared.durable := by
  have hends : Work.Ends (r.journey (r.semantics root conduct) fuel root request) _ _ _ :=
    journey_ends hstored hcached
  rw [spawn_eq]
  cases hw : r.journey (r.semantics root conduct) fuel root request ⟨Draft.empty, r.shared⟩ with
  | error e d =>
    refine ⟨fun hspawn => ?_, fun hspawn => by cases hspawn⟩
    cases hspawn
    exact hends.error hw
  | ok journey d =>
    refine ⟨fun hspawn => by (cases hspawn), fun hspawn => ?_⟩
    cases hspawn
    have hend := hends.ok hw
    cases hhalt : journey.halt <;> rw [hhalt] at hend <;> exact hend

end Realm

/-! ## A walk that opens a root to everybody -/

namespace Travel

/-- A schema of hosts, who do something wherever they enter. -/
def hospitality : Rulebook :=
  (Rulebook.build (Schema.base.extend [⟨"host", .walker, none, Fields.empty⟩]
    [⟨"open", "host", .entry, []⟩])).toOption.getD default

/-- A root that was committed once. -/
def inn : Anchor :=
  { Anchor.ofNode ⟨⟨1⟩⟩ ⟨⟨⟨1⟩⟩⟩ (.isolated rootType Fields.empty) with
    version := 1, dirty := false }

/-- A realm over a vault with this root and nothing else. -/
def country : Realm Vault :=
  ⟨hospitality, .default,
    ⟨⟨Table.empty.insert inn.id inn, 0⟩, Cache.new 0 0, ⟨⟨0⟩, 0⟩, 0, Table.empty, Table.empty⟩⟩

/-- Lets everybody read the place. -/
def openUp : Conduct Unit := do
  Conduct.perform (.grant (← Conduct.stop).here .read)

/-- A host that starts at the root. -/
def visit : SpawnRequest := ⟨"host", Fields.empty, none, ⟨none, none, none⟩⟩

theorem visit_ends : (match country.spawn (fun _ => openUp) 9 inn.owner visit with
    | .ok journey r => some (journey.halt, r.shared.durable.version? inn.id)
    | .error _ _ => none) = some (.completed, some 2) := by
  decide +kernel

end Travel

/-- The walk succeeds, and all it did is that the root is stored once more. -/
theorem Realm.completed_walk_stores_root_once :
    ∃ journey r,
      spawn (fun _ => Travel.openUp) 9 Travel.inn.owner Travel.visit Travel.country =
        .ok journey r ∧
      r.shared.durable.version? Travel.inn.id = some 2 ∧
      Travel.country.Settled (fun _ => Travel.openUp) 9 Travel.inn.owner Travel.visit journey
        r.shared.durable := by
  have hstored : ∀ {id a}, Travel.country.shared.durable.anchors.get? id = some a → a.id = id := by
    intro id a ha
    have hget : (Table.empty.insert Travel.inn.id Travel.inn).get? id = some a := ha
    rw [Table.get?_insert] at hget
    split at hget
    · rename_i hid
      cases hget
      exact hid.symm
    · cases hget
  have hcached : ∀ {id e a}, Travel.country.shared.cache.entries.get? id = some e →
      e.anchor = some a → a.id = id := fun he _ => by cases he
  have hends := Travel.visit_ends
  cases hw : spawn (fun _ => Travel.openUp) 9 Travel.inn.owner Travel.visit Travel.country with
  | error e r =>
    rw [hw] at hends
    cases hends
  | ok journey r =>
    simp only [hw, Option.some.injEq, Prod.mk.injEq] at hends
    have hsettled :=
      (walk_is_all_or_nothing (fun _ => Travel.openUp) 9 Travel.inn.owner Travel.visit
        hstored hcached).2 hw
    rw [hends.1] at hsettled
    exact ⟨journey, r, rfl, hends.2, hsettled⟩

end Wayfarer
