import Wayfarer.Proofs.Caching

/-!
# What a commit publishes

A request that commits goes on to see what it saw; only what it wrote is one
version later and clean. A request that begins afterwards over the same vault
sees what the commit wrote, does not see what it removed and sees everything
else as it was stored before, whatever the cache holds by then. A commit that
fails changes nothing (`Office.commit_publishes_view`).

* `Desk.Loads` is what loading an object answers. At a desk in good order that
  is what the draft shows over the vault (`Desk.loads_view`).
* `Draft.Based` is the condition on the draft: its changes were made to what is
  stored.
* `Draft.Keyed.view_settle` says what the committing request sees afterwards,
  and `Draft.Keyed.lists` what the receipt lists.
* `Office.Orderly` is the order of all desks in an office, which every event
  keeps.
-/

namespace Wayfarer

/-! ## Drafts -/

/-- A changed anchor of a draft. -/
def Draft.Changed (d : Draft) (id : ObjectId) (a : Anchor) : Prop :=
  d.copy? id = some a ∧ a.dirty = true

/-- Every changed anchor of a draft carries the version that is stored; what is
not stored counts as version zero. -/
def Draft.Based (d : Draft) (stored : Table ObjectId Anchor) : Prop :=
  ∀ id a, d.Changed id a → a.version = ((stored.get? id).map (·.version)).getD 0

instance (d : Draft) (stored : Table ObjectId Anchor) : Decidable (d.Based stored) :=
  decidable_of_iff (∀ e ∈ d.volatile.toList, e.2.dirty = true →
      e.2.version = ((stored.get? e.1).map (·.version)).getD 0)
    ⟨fun h _ _ hchanged => h _ (Table.mem_toList.2 hchanged.1) hchanged.2,
      fun h _ he hdirty => h _ _ ⟨Table.mem_toList.1 he, hdirty⟩⟩

/-- A receipt that lists the changed and the removed objects of a draft, in the
order of identities. -/
structure Receipt.Lists (r : Receipt) (d : Draft) : Prop where
  written : ∀ id, id ∈ r.written ↔ ∃ a, d.Changed id a
  deleted : ∀ id, id ∈ r.deleted ↔ ∃ v, d.removed? id = some v
  written_sorted : r.written.Pairwise fun i j => compare i j = .lt
  deleted_sorted : r.deleted.Pairwise fun i j => compare i j = .lt

namespace Draft

variable {d : Draft} {id : ObjectId} {a : Anchor} {stored : Table ObjectId Anchor}

theorem hasPending_eq (d : Draft) : d.hasPending = !d.batch.isEmpty := by
  have hwrites : d.volatile.values.any (·.dirty) = !d.writes.isEmpty := by
    rw [Bool.eq_iff_iff]
    simp [writes]
  rw [hasPending, hwrites, Batch.isEmpty, Bool.not_and, Bool.or_comm]
  rfl

theorem view_empty (stored : Table ObjectId Anchor) (id : ObjectId) :
    Draft.empty.view stored id = stored.get? id :=
  view_of_content rfl rfl

namespace Keyed

/-- The written objects of a receipt are the keys that eviction would keep. -/
theorem receipt_written (h : d.Keyed) : d.receipt.written = d.evictVolatile.volatile.keys := by
  have hkey : ∀ e ∈ d.volatile.entries, e.2.id = e.1 := fun e he => h.own (Table.mem_toList.1 he)
  change d.writes.map (·.id) = (d.volatile.entries.filter fun e => e.2.dirty).map (·.1)
  unfold writes Table.values
  rw [List.filter_map, List.map_map, List.map_map]
  exact List.map_congr_left fun e he => hkey e (List.mem_filter.1 he).1

theorem lists (h : d.Keyed) : d.receipt.Lists d := by
  refine ⟨fun id => ?_, fun id => Table.mem_keys, ?_, ?_⟩
  · rw [h.receipt_written, Table.mem_keys]
    exact exists_congr fun a =>
      ⟨copy?_of_evictVolatile, fun hchanged => evictVolatile_of_dirty hchanged.1 hchanged.2⟩
  · rw [h.receipt_written]
    exact List.pairwise_map.2 d.evictVolatile.volatile.sorted
  · exact List.pairwise_map.2 d.tombstones.sorted

/-- A change to what is stored can only pass the check if there is a version
after it: the one after the last is zero, which is taken for a new object. -/
theorem spare_of_based (h : d.Keyed) (hbased : d.Based stored)
    (hcheck : Batch.conflict? (fun id => (stored.get? id).map (·.version)) d.batch.expectations =
      none) : d.Spare := by
  intro a ha hdirty hover
  obtain ⟨id, hcopy⟩ := Table.mem_values.1 ha
  have hexpects : (id, Batch.expected (a.version + 1)) ∈ d.batch.expectations :=
    List.mem_append_left _ (List.mem_map.2
      ⟨a.committed, mem_writes.2 ⟨id, a, hcopy, hdirty, rfl⟩, by
        rw [h.own_committed hcopy, Anchor.committed_version]⟩)
  have hzero := Batch.conflict?_eq_none.1 hcheck _ _ hexpects
  rw [← hbased id a ⟨hcopy, hdirty⟩, hover] at hzero
  rw [hzero] at hover
  exact absurd hover (by decide)

/-- Nothing awaits a commit after one. -/
theorem hasPending_settle (h : d.Keyed) : (d.settle d.batch).hasPending = false := by
  have hclean : ∀ b ∈ (d.settle d.batch).volatile.values, b.dirty = false := by
    intro b hb
    obtain ⟨id, hcopy⟩ := Table.mem_values.1 hb
    rcases h.settle_copy? hcopy with ⟨a, -, -, rfl⟩ | ⟨-, hclean⟩
    · rfl
    · exact hclean
  rw [hasPending, show (d.settle d.batch).tombstones = Table.empty from rfl]
  simpa [Table.isEmpty, Table.empty] using hclean

/-- After a commit the request sees what it saw, and what it wrote as it was
written. -/
theorem view_settle (h : d.Keyed)
    (tidy : ∀ {id a}, stored.get? id = some a → a.id = id ∧ a.dirty = false) (id : ObjectId) :
    (d.settle d.batch).view (Vault.overlay stored d.batch) id =
      (d.view stored id).map Anchor.settled := by
  have hcopy := h.copy?_settle id
  cases hr : d.removed? id with
  | some v =>
    rw [h.apart hr] at hcopy
    rw [view_of_tombstone hr, view_of_content rfl hcopy, overlay_of_removed hr]
    rfl
  | none =>
    cases ha : d.copy? id with
    | some a =>
      rw [ha] at hcopy
      rw [view_of_volatile hr ha, view_of_volatile rfl hcopy]
      rfl
    | none =>
      have hidle : ¬ d.Pending id := by
        rintro (⟨a, hchanged, -⟩ | ⟨v, hv⟩)
        · rw [ha] at hchanged
          cases hchanged
        · rw [hr] at hv
          cases hv
      rw [ha] at hcopy
      rw [view_of_content hr ha, view_of_content rfl hcopy, h.overlay_of_idle hidle]
      cases hs : stored.get? id with
      | none => rfl
      | some a => simp [Anchor.settled, (tidy hs).2]

end Keyed

end Draft

/-! ## Desks -/

namespace Desk

variable {d : Desk Vault}

/-- Loading an object at a desk answers so. -/
def Loads (d : Desk Vault) (id : ObjectId) (found : Option Anchor) : Prop :=
  ∃ d', load id d = .ok found d'

theorem loads_view (h : d.shared.Agreed) (id : ObjectId) :
    d.Loads id (d.draft.view d.stored id) := by
  obtain ⟨_, d', hload, rfl, -⟩ := (load_ends (over_tier h) id).exists_ok
  exact ⟨d', hload⟩

/-- A request that begins over tiers in good order sees what is stored. -/
theorem loads_stored {s : Shared Vault} (h : s.Agreed) (id : ObjectId) :
    (⟨Draft.empty, s⟩ : Desk Vault).Loads id (s.stored.get? id) := by
  have hview := loads_view (d := ⟨Draft.empty, s⟩) h id
  rwa [Draft.view_empty] at hview

/-- A request that sees a vault with a draft written to it sees what the draft
changed, does not see what it removed, and sees the rest as it was. -/
theorem loads_overlay {draft : Draft} (hk : draft.Keyed) {stored : Table ObjectId Anchor}
    (h : ∀ id, d.Loads id ((Vault.overlay stored draft.batch).get? id)) :
    (∀ id a, draft.Changed id a → d.Loads id (some a.settled)) ∧
      (∀ id v, draft.removed? id = some v → d.Loads id none) ∧
      ∀ id, ¬ draft.Pending id → d.Loads id (stored.get? id) := by
  refine ⟨fun id a hchanged => ?_, fun id v hv => ?_, fun id hidle => ?_⟩
  · have hget := h id
    rw [hk.overlay_of_dirty hchanged.1 hchanged.2] at hget
    rwa [show a.settled = a.committed from if_pos hchanged.2]
  · have hget := h id
    rwa [Draft.overlay_of_removed hv] at hget
  · have hget := h id
    rwa [hk.overlay_of_idle hidle] at hget

theorem commit_of_nothing (h : d.draft.hasPending = false) : commit d = .ok Receipt.empty d := by
  have hempty : d.draft.batch.isEmpty = true := by
    rwa [Draft.hasPending_eq, Bool.not_eq_false'] at h
  change (if d.draft.batch.isEmpty = true then pure Receipt.empty else _ : Work Vault Receipt) d = _
  rw [if_pos hempty]
  rfl

end Desk

/-! ## Offices -/

namespace Office

variable {o : Office}

/-- Every desk in an office is in good order. -/
def Orderly (o : Office) : Prop := o.Alike o

theorem Orderly.play (h : o.Orderly) {events : List Event} (hspare : o.Spare events) :
    (o.play events).Orderly :=
  (Alike.play h hspare).2

theorem orderly_opened {vault : Vault}
    (tidy : ∀ {id a}, vault.anchors.get? id = some a → a.id = id ∧ a.dirty = false)
    (ttl capacity : Nat) : (opened vault ttl capacity).Orderly := fun _ =>
  ⟨rfl, rfl, rfl, .of_empty rfl, .of_coherent tidy (.of_empty rfl),
    .of_coherent tidy (.of_empty rfl)⟩

/-- A commit of changes that were made to what is stored succeeds only if the
draft is current, and then leaves a desk in good order. -/
theorem Orderly.commit (h : o.Orderly) (name : String)
    (hbased : (o.draft name).Based o.shared.stored) :
    Work.Ends Desk.commit (o.desk name)
      (fun receipt d' => receipt = (o.draft name).receipt ∧ d' = (o.desk name).published ∧
        (o.left name d').Orderly)
      fun _ d' => d' = o.desk name := by
  have hk := (h name).keyed
  refine (o.desk name).commit_outcome.mono ?_ fun _ _ hfail => hfail.2
  rintro _ _ ⟨rfl, hcheck, rfl⟩
  have hspare := hk.spare_of_based hbased hcheck
  have hagreed := Desk.agreed_published hk hspare (h name).agreed
    ((hk.check_iff hspare o.shared.stored).1 hcheck)
  exact ⟨rfl, rfl, Alike.left h name ⟨rfl, rfl, rfl, hk.settle, hagreed, hagreed⟩⟩

/-- A request in a running office whose changed anchors carry the stored
versions commits. If that succeeds, the receipt lists what was changed and what
was removed; the request sees what it saw, with what it wrote one version later
and clean; nothing is pending, so that another commit does nothing. A request
that begins then, or after anything that leaves the vault as it is, sees what
was written, does not see what was removed, and sees the rest as it was stored.
If the commit fails, nothing has changed. Versions have an end: no commit of the
run so far has come to it. -/
theorem commit_publishes_view (vault : Vault)
    (tidy : ∀ {id a}, vault.anchors.get? id = some a → a.id = id ∧ a.dirty = false)
    (ttl capacity : Nat) (events : List Event) (hspare : (opened vault ttl capacity).Spare events)
    (name : String) :
    let o := (opened vault ttl capacity).play events
    let d := o.desk name
    d.draft.Based d.stored →
      (∀ receipt d', Desk.commit d = .ok receipt d' →
        receipt.Lists d.draft ∧
        (∀ id, ∃ found, d.Loads id found ∧ d'.Loads id (found.map Anchor.settled)) ∧
        (∀ id a, d.draft.Changed id a → d.Loads id (some a) ∧ a.settled =
          { a with version := a.version + 1, dirty := false }) ∧
        (∀ id, ¬ d.draft.Pending id → d'.stored.get? id = d.stored.get? id) ∧
        d'.draft.hasPending = false ∧ Desk.commit d' = .ok Receipt.empty d' ∧
        ∀ later, (o.left name d').Spare later →
          let s := ((o.left name d').play later).shared
          let fresh : Desk Vault := ⟨Draft.empty, s⟩
          s.stored = d'.stored →
            (∀ id a, d.draft.Changed id a → fresh.Loads id (some a.settled)) ∧
            (∀ id v, d.draft.removed? id = some v → fresh.Loads id none) ∧
            ∀ id, ¬ d.draft.Pending id → fresh.Loads id (d.stored.get? id)) ∧
      ∀ e d', Desk.commit d = .error e d' → d' = d := by
  intro o d hbased
  have horder : o.Orderly := (orderly_opened tidy ttl capacity).play hspare
  have hk : d.draft.Keyed := (horder name).keyed
  have htier : d.shared.Agreed := (horder name).agreed
  have hcommit := horder.commit name hbased
  refine ⟨fun receipt d' hrun => ?_, fun e d' hrun => hcommit.error hrun⟩
  obtain ⟨rfl, rfl, hleft⟩ := hcommit.ok hrun
  have hstored : d.published.stored = Vault.overlay d.stored d.draft.batch :=
    Sound.stored_published d
  have hafter : d.published.shared.Agreed := by
    have hdesk := (hleft name).agreed
    exact hdesk
  have hdone : d.published.draft.hasPending = false := hk.hasPending_settle
  refine ⟨hk.lists, fun id => ⟨_, Desk.loads_view htier id, ?_⟩, fun id a hchanged => ?_,
    fun id hidle => ?_, hdone, Desk.commit_of_nothing hdone, ?_⟩
  · have hview := Desk.loads_view hafter id
    rw [hstored] at hview
    rwa [← hk.view_settle htier.tidy id]
  · have hview := Desk.loads_view htier id
    rw [Draft.view_of_volatile (hk.removed?_of_copy? hchanged.1) hchanged.1] at hview
    exact ⟨hview, if_pos hchanged.2⟩
  · rw [hstored]
    exact hk.overlay_of_idle hidle
  · intro later hlater s fresh hsame
    refine Desk.loads_overlay hk fun id => ?_
    rw [← hstored, ← hsame]
    exact Desk.loads_stored ((hleft.play hlater) name).agreed id

/-- A request that has changed one node, removed another, looked at a third and
created a fourth, after somebody else had read them all. -/
def reworking : List Event :=
  let node (n : Nat) : Anchor := .ofNode ⟨⟨n⟩⟩ ⟨⟨⟨0⟩⟩⟩ (.isolated ⟨⟨9⟩⟩ Fields.empty)
  let shown : Amendment := ⟨fun a => { a with access := a.access.grant .write }, fun _ => rfl⟩
  [.errand "founder" (.stage (node 1)), .errand "founder" (.stage (node 2)),
    .errand "founder" (.stage (node 3)), .errand "founder" .commit, .wait 1,
    .errand "guest" (.load (node 1).id), .errand "guest" (.load (node 2).id),
    .errand "keeper" (.update (node 1).id shown), .errand "keeper" (.delete (node 2).id),
    .errand "keeper" (.load (node 3).id), .errand "keeper" (.stage (node 4))]

theorem commit_publishes_view_of_reworking :
    let o := (opened Vault.empty 9 2).play reworking
    let d := o.desk "keeper"
    (opened Vault.empty 9 2).Spare reworking ∧ d.draft.Based d.stored ∧
      ∃ d', Desk.commit d = .ok ⟨[.node ⟨⟨1⟩⟩, .node ⟨⟨4⟩⟩], [.node ⟨⟨2⟩⟩]⟩ d' ∧
        Desk.commit d' = .ok Receipt.empty d' ∧
        (⟨Draft.empty, d'.shared⟩ : Desk Vault).Loads (.node ⟨⟨2⟩⟩) none := by
  intro o d
  have hspare : (opened Vault.empty 9 2).Spare reworking := by decide
  have hbased : d.draft.Based d.stored := by decide
  have hpublishes := commit_publishes_view Vault.empty (fun ha => by cases ha) 9 2 reworking hspare
    "keeper" hbased
  refine ⟨hspare, hbased, d.published, rfl, ?_⟩
  obtain ⟨-, -, -, -, -, hagain, hlater⟩ := hpublishes.1 _ d.published rfl
  exact ⟨hagain, (hlater [] trivial rfl).2.1 _ 1 rfl⟩

end Office

end Wayfarer
