import Wayfarer.Proofs.Concourse

/-!
# What acts do to a concourse

An act lets one request work at its desk, and all others find the shared tiers
changed. There are four ways in which a concourse goes on, and it stays orderly
in each of them.

* `Orderly.share`: the request read something, or time passed.
* `Orderly.put`: a session goes on with another draft.
* `Orderly.drop`: a session is closed.
* `Orderly.publish`: a request committed.
-/

namespace Wayfarer

variable {roots : ObjectId → Prop} {n n' k m m' : Nat} {past past' : Anchor → Prop}
  {stored : Table ObjectId Anchor} {w w' : Concourse} {c c' : Setting} {draft : Draft}
  {d : Desk Vault} {name : String} {root : RootId} {s : Session} {id : ObjectId} {a p : Anchor}

/-! ## Settings with the same commits -/

theorem Lineage.congr (h : Lineage c) (hp : c'.past = c.past) : Lineage c' := by
  cases c
  cases c'
  cases hp
  exact ⟨h.fits, h.alike, h.typed, h.nodup, h.listed, h.paired, h.ends, h.twins⟩

theorem Wired.congr {due : EdgeId → Prop} {dead : NodeId → Prop} (h : Wired c due dead draft)
    (hp : c'.past = c.past) (hs : c'.stored = c.stored) : Wired c' due dead draft := by
  cases c
  cases c'
  cases hp
  cases hs
  exact ⟨h.fits, h.alike, h.typed, h.nodup, h.lost, h.listed, h.current, h.attached, h.cut,
    h.cleared, h.paired⟩

namespace Draft

theorem Bears.mentions (h : draft.Bears id) : draft.Mentions id := by
  obtain ⟨a, ha, _⟩ := h
  exact .inl ⟨a, ha⟩

/-- A draft in good order within some setting is in order by itself. -/
theorem Orderly.of_calm (h : Calm c n d) (hp : c.past = past) (hs : c.stored = stored) :
    d.draft.Orderly past stored := by
  subst hp
  subst hs
  exact ⟨h.dated.follow (fun hp => hp) (fun ha hz => ⟨(h.dated.born ha hz).2.1, not_false⟩)
    fun _ => rfl, h.wired.congr rfl rfl⟩

/-- A mentioned object was committed before, or it is new. -/
theorem Orderly.of_mentions (h : draft.Orderly past stored) (hm : draft.Mentions id) :
    (∃ p, past p ∧ p.id = id) ∨ draft.Bears id := by
  rcases hm with ⟨a, ha⟩ | ⟨v, hv⟩
  · by_cases hz : a.version = 0
    · exact .inr ⟨a, ha, hz⟩
    · obtain ⟨p, hp, hid, _⟩ := h.dated.based ha hz
      exact .inl ⟨p, hp, hid⟩
  · exact .inl (h.dated.committed_of_removed hv)

/-- A draft that holds only committed anchors is in order. -/
theorem Orderly.of_past (hc : Chronicle past stored) (hl : Lineage c) (hp : c.past = past)
    (hcopy : ∀ {id a}, draft.copy? id = some a → past a ∧ a.id = id)
    (hrem : ∀ id, draft.removed? id = none) : draft.Orderly past stored :=
  ⟨.of_past hc hcopy hrem fun _ => rfl, .of_past hc (hl.congr hp.symm) hcopy hrem⟩

theorem not_bears_of_past (hc : Chronicle past stored)
    (hcopy : ∀ {id a}, draft.copy? id = some a → past a ∧ a.id = id) : ¬ draft.Bears id := by
  rintro ⟨a, ha, hz⟩
  exact hc.positive (hcopy ha).1 hz

end Draft

/-- Identities that a session must not use for new objects. -/
def Concourse.taken (w : Concourse) (roots : ObjectId → Prop) (name : String) (id : ObjectId) :
    Prop :=
  roots id ∨ ∃ other, other ≠ name ∧ w.Bears other id

@[simp] theorem Concourse.get?_after (other : String) : (w.after name root d).sessions.get? other =
    if other = name then some ⟨root, d.draft⟩ else w.sessions.get? other :=
  Table.get?_insert ..

theorem Concourse.bears_after {other : String} (h : (w.after name root d).Bears other id) :
    (other = name ∧ d.draft.Bears id) ∨ (other ≠ name ∧ w.Bears other id) := by
  obtain ⟨s, hs, hb⟩ := h
  rw [get?_after] at hs
  split at hs
  · rename_i ho
    cases hs
    exact .inl ⟨ho, hb⟩
  · rename_i ho
    exact .inr ⟨ho, s, hs, hb⟩

namespace Orderly

/-! ## A request at its desk -/

/-- A request whose draft is in order can work, provided that its new objects
are nobody else's. -/
theorem calm_of (h : Orderly roots n m past w) {reserved : ObjectId → Prop}
    (hd : draft.Orderly past w.stored)
    (hown : ∀ {id}, draft.Bears id → ¬ reserved id ∧ ∃ name, w.Bears name id)
    (hres : ∀ {id}, reserved id → roots id ∨ ∃ name, w.Bears name id) :
    Calm (draft.setting past w.stored reserved) n (w.desk draft) := by
  refine ⟨h.chronicle, h.lineage.congr rfl, h.agreed, rfl, ?_, hd.wired.congr rfl rfl, ?_⟩
  · exact hd.dated.follow (fun hp => hp)
      (fun ha hz => ⟨(hd.dated.born ha hz).2.1, (hown ⟨_, ha, hz⟩).1⟩) fun _ => rfl
  · refine h.supply.mono (Nat.le_refl n) ?_
    rintro id (hcom | hr | hm)
    · exact .inl hcom
    · exact .inr (hres hr).symm
    · rcases hd.of_mentions hm with hcom | hb
      · exact .inl hcom
      · exact .inr (.inl (hown hb).2)

/-- A session at its desk. -/
theorem calm (h : Orderly roots n m past w) (hs : w.sessions.get? name = some s) :
    Calm (s.draft.setting past w.stored (w.taken roots name)) n (w.desk s.draft) := by
  refine h.calm_of (h.drafts hs) (fun hb => ?_) ?_
  · have hbears : w.Bears name _ := ⟨s, hs, hb⟩
    refine ⟨?_, name, hbears⟩
    rintro (hr | ⟨other, hne, ho⟩)
    · exact h.unrooted hbears hr
    · exact hne (h.apart ho hbears)
  · rintro id (hr | ⟨other, _, ho⟩)
    · exact .inl hr
    · exact .inr ⟨other, ho⟩

theorem empty_orderly (h : Orderly roots n m past w) : Draft.empty.Orderly past w.stored :=
  .of_past h.chronicle h.lineage rfl (fun ha => by cases ha) fun _ => rfl

theorem empty_not_bears : ¬ Draft.empty.Bears id := by
  rintro ⟨a, ha, _⟩
  cases ha

/-- A request that has done nothing yet. -/
theorem calm_empty (h : Orderly roots n m past w) {reserved : ObjectId → Prop}
    (hres : ∀ {id}, reserved id → roots id ∨ ∃ name, w.Bears name id) :
    Calm (Draft.empty.setting past w.stored reserved) n (w.desk Draft.empty) :=
  h.calm_of h.empty_orderly (fun hb => absurd hb empty_not_bears) hres

/-! ## Going on without a commit -/

theorem fewer (h : Orderly roots n m past w) {n' m' : Nat} (hn : n' ≤ n) (hm : m' ≤ m) :
    Orderly roots n' m' past w :=
  ⟨h.agreed, h.chronicle, h.lineage, h.whole, h.drafts, h.apart, h.unrooted, h.nodes,
    h.rooted, h.supply.mono hn fun _ hid => hid, fun hv => by have := h.room hv; omega⟩

/-- Reading and waiting change nothing that matters. -/
theorem share (h : Orderly roots n m past w) {shared : Shared Vault} (ha : shared.Agreed)
    (hst : shared.stored = w.stored) (hm : shared.mint = w.realm.shared.mint) :
    Orderly roots n m past { w with realm := { w.realm with shared := shared } } := by
  have hstored : Concourse.stored { w with realm := { w.realm with shared := shared } } =
      w.stored := hst
  refine ⟨ha, ?_, h.lineage.congr rfl, ?_, ?_, h.apart, h.unrooted, h.nodes, ?_, ?_, h.room⟩
  · rw [hstored]
    exact h.chronicle
  · rw [hstored]
    exact h.whole
  · rw [hstored]
    exact h.drafts
  · rw [hstored]
    exact h.rooted
  · exact hm ▸ h.supply

/-- A session goes on with the draft of a desk. -/
theorem put (h : Orderly roots k m past w) (hcalm : Calm c n d) (hp : c.past = past)
    (hs : c.stored = w.stored) (hr : c.reserved = w.taken roots name) :
    Orderly roots n m past (w.after name root d) := by
  have hstored : (w.after name root d).stored = w.stored := hcalm.stored.trans hs
  have hown : ∀ {id}, d.draft.Bears id → ¬ w.taken roots name id := by
    rintro id ⟨a, ha, hz⟩
    exact hr ▸ (hcalm.dated.born ha hz).2.2
  refine ⟨hcalm.agreed, ?_, h.lineage.congr rfl, ?_, ?_, ?_, ?_, h.nodes, ?_, ?_, h.room⟩
  · rw [hstored]
    exact h.chronicle
  · rw [hstored]
    exact h.whole
  · intro other s' hs'
    rw [hstored]
    rw [Concourse.get?_after] at hs'
    split at hs'
    · cases hs'
      exact .of_calm hcalm hp hs
    · exact h.drafts hs'
  -- what the session bears is not taken by the others, and theirs is as before
  · intro x y id hx hy
    rcases Concourse.bears_after hx with ⟨hxn, hbx⟩ | ⟨hxn, hbx⟩ <;>
      rcases Concourse.bears_after hy with ⟨hyn, hby⟩ | ⟨hyn, hby⟩
    · exact hxn.trans hyn.symm
    · exact absurd (.inr ⟨y, hyn, hby⟩) (hown hbx)
    · exact absurd (.inr ⟨x, hxn, hbx⟩) (hown hby)
    · exact h.apart hbx hby
  · intro x id hx
    rcases Concourse.bears_after hx with ⟨_, hbx⟩ | ⟨_, hbx⟩
    · exact fun hroot => hown hbx (.inl hroot)
    · exact h.unrooted hbx
  · rw [hstored]
    exact h.rooted
  · refine hcalm.supply.mono (Nat.le_refl n) ?_
    rintro id (hcom | ⟨x, hx⟩ | hroot)
    · exact .inl (by rwa [Setting.Committed, hp])
    · rcases Concourse.bears_after hx with ⟨_, hx⟩ | ⟨hne, hx⟩
      · exact .inr (.inr hx.mentions)
      · exact .inr (.inl (hr ▸ .inr ⟨x, hne, hx⟩))
    · exact .inr (.inl (hr ▸ .inl hroot))

/-- A session is closed. -/
theorem drop (h : Orderly roots n m past w) (name : String) :
    Orderly roots n m past { w with sessions := w.sessions.erase name } := by
  have hget : ∀ {other s}, (w.sessions.erase name).get? other = some s →
      w.sessions.get? other = some s := by
    intro other s hs
    rw [Table.get?_erase] at hs
    split at hs
    · cases hs
    · exact hs
  have hbears : ∀ {other id},
      Concourse.Bears { w with sessions := w.sessions.erase name } other id →
        w.Bears other id := by
    rintro other id ⟨s, hs, hb⟩
    exact ⟨s, hget hs, hb⟩
  refine ⟨h.agreed, h.chronicle, h.lineage, h.whole, fun hs => h.drafts (hget hs),
    fun hx hy => h.apart (hbears hx) (hbears hy), fun hx => h.unrooted (hbears hx), h.nodes,
    h.rooted, h.supply.mono (Nat.le_refl n) ?_, h.room⟩
  rintro id (hcom | ⟨x, hx⟩ | hroot)
  · exact .inl hcom
  · exact .inr (.inl ⟨x, hbears hx⟩)
  · exact .inr (.inr hroot)

end Orderly

/-! ## A commit -/

section Publish

variable (hcalm : Calm c n d) (hcur : d.draft.Current c.stored)

include hcalm in
/-- An object that the commit writes was committed before, or the draft bears
it. -/
theorem Sound.of_write {p : Anchor} (hw : p ∈ d.draft.writes) :
    c.Committed p.id ∨ d.draft.Bears p.id := by
  obtain ⟨id, a, ha, _, rfl⟩ := Draft.mem_writes.1 hw
  rw [hcalm.dated.keyed.own_committed ha]
  by_cases hz : a.version = 0
  · exact .inr ⟨a, ha, hz⟩
  · obtain ⟨q, hq, hid, _⟩ := hcalm.dated.based ha hz
    exact .inl ⟨q, hq, hid⟩

include hcalm in
/-- A commit takes up one of the commits for which there is room. -/
theorem Sound.room
    (hroom : ∀ {v : UInt64}, (v = 0 ∨ ∃ p, c.past p ∧ p.version = v) →
      v.toNat + (m + 1) + 1 < UInt64.size) {v : UInt64}
    (hv : v = 0 ∨ ∃ p, d.draft.extends c.past p ∧ p.version = v) :
    v.toNat + m + 1 < UInt64.size := by
  rcases hv with hz | ⟨p, hp | hw, hver⟩
  · have := hroom (.inl hz)
    omega
  · have := hroom (.inr ⟨p, hp, hver⟩)
    omega
  · obtain ⟨id, a, ha, _, rfl⟩ := Draft.mem_writes.1 hw
    have hbase : a.version = 0 ∨ ∃ p, c.past p ∧ p.version = a.version := by
      by_cases hz : a.version = 0
      · exact .inl hz
      · obtain ⟨q, hq, _, hqv⟩ := hcalm.dated.based ha hz
        exact .inr ⟨q, hq, hqv⟩
    have := hroom hbase
    have hle : v.toNat ≤ a.version.toNat + 1 := by
      rw [← hver, Anchor.committed_version, UInt64.toNat_add]
      exact Nat.mod_le _ _
    omega

include hcalm hcur in
/-- What was removed at some time does not come back. -/
theorem Sound.absent (hcom : c.Committed id) (hst : c.stored.get? id = none) :
    (Vault.overlay c.stored d.draft.batch).get? id = none := by
  cases hb : (Vault.overlay c.stored d.draft.batch).get? id with
  | none => rfl
  | some b =>
    rcases hcalm.dated.keyed.of_overlay hb with ⟨a, ha, hdirty, _⟩ | ⟨_, hsome⟩
    · by_cases hz : a.version = 0
      · exact absurd hcom (hcalm.dated.born ha hz).2.1
      · obtain ⟨q, hq, _⟩ := hcalm.dated.base_of_dirty hcalm.chronicle hcur ha hdirty hz
        rw [hst] at hq
        cases hq
    · rw [hst] at hsome
      cases hsome

include hcalm hcur in
/-- The draft of another request stays in order when this one commits. -/
theorem Draft.Orderly.follow (h : draft.Orderly c.past c.stored)
    (hres : ∀ {id}, draft.Bears id → c.reserved id)
    (hc' : Chronicle (d.draft.extends c.past) stored) (hl' : Lineage c')
    (hpast : c'.past = d.draft.extends c.past)
    (hst : stored = Vault.overlay c.stored d.draft.batch) :
    draft.Orderly (d.draft.extends c.past) stored := by
  have hborn : ∀ {id a}, draft.copy? id = some a → a.version = 0 →
      ¬ ∃ p, d.draft.extends c.past p ∧ p.id = id := by
    rintro id a ha hz ⟨p, hp | hw, hid⟩
    · exact (h.dated.born ha hz).2.1 ⟨p, hp, hid⟩
    · rcases hcalm.of_write hw with hcom | ⟨x, hx, hxz⟩
      · exact (h.dated.born ha hz).2.1 (hid ▸ hcom)
      · exact (hcalm.dated.born hx hxz).2.2 (hid ▸ hres ⟨a, ha, hz⟩)
  refine ⟨h.dated.follow .inl (fun ha hz => ⟨hborn ha hz, not_false⟩) fun _ => rfl, ?_⟩
  refine Wired.follow (c := draft.setting c.past c.stored fun _ => False) hc'
    (hcalm.lineage.congr rfl) (hl'.congr hpast.symm) h.dated .inl ?_ hborn h.wired
  intro id hcom hnone
  rw [show (draft.setting (d.draft.extends c.past) stored fun _ => False).stored = _ from hst]
  exact hcalm.absent hcur hcom hnone

include hcalm hcur in
theorem Sound.chronicle_extends
    (hroom : ∀ {v : UInt64}, (v = 0 ∨ ∃ p, d.draft.extends c.past p ∧ p.version = v) →
      v.toNat + m + 1 < UInt64.size) :
    Chronicle (d.draft.extends c.past) (Vault.overlay c.stored d.draft.batch) := by
  refine hcalm.chronicle.commit hcalm.dated hcur fun {id b} hb hover => ?_
  have hpast : d.draft.extends c.past b := by
    rcases hcalm.dated.keyed.of_overlay hb with ⟨a, ha, hdirty, rfl⟩ | ⟨_, hold⟩
    · exact .inr (Draft.mem_writes.2 ⟨id, a, ha, hdirty, rfl⟩)
    · exact .inl (hcalm.chronicle.stored_past hold).1
  have hlt := hroom (.inr ⟨b, hpast, rfl⟩)
  exact UInt64.add_one_ne_zero (Nat.lt_of_le_of_lt (by omega) hlt) hover

include hcalm hcur in
/-- A root that is stored is there after the commit, since only other nodes can
be removed. -/
theorem Orderly.root_kept (h : Orderly roots n' m' c.past w) (hst : c.stored = w.stored)
    {p : Anchor} (hp : c.past p) (hroot : roots p.id) :
    p.type = rootType ∧ ∃ a, (Vault.overlay c.stored d.draft.batch).get? p.id = some a := by
  obtain ⟨hty, b, hb⟩ := h.rooted hp hroot
  refine ⟨hty, ?_⟩
  by_cases hpend : d.draft.Pending p.id
  · rcases hpend with ⟨x, hx, hdirty⟩ | ⟨v, hv⟩
    · exact ⟨x.committed, hcalm.dated.keyed.overlay_of_dirty hx hdirty⟩
    · obtain ⟨r, hr, hver⟩ := hcalm.dated.base_of_removed hcalm.chronicle hcur hv
      obtain ⟨hpast, hrid⟩ := hcalm.chronicle.stored_past hr
      obtain ⟨node, hnode⟩ := h.nodes hroot
      obtain ⟨rec, hrec⟩ := (hcalm.lineage.fits hpast).node (hrid.trans hnode)
      have hty' := (h.rooted hpast (hrid ▸ hroot)).1
      rw [hnode] at hv
      exact absurd hty' (hcalm.wired.cleared hv ⟨hpast, hrid.trans hnode, hrec⟩ hver).1
  · rw [hcalm.dated.keyed.overlay_of_idle hpend, hst]
    exact ⟨b, hb⟩

include hcalm hcur in
/-- So is a root that the commit writes. -/
theorem Orderly.rooted_extends (h : Orderly roots n' m' c.past w) (hst : c.stored = w.stored)
    (hnew : ∀ {id a}, d.draft.copy? id = some a → a.version = 0 → roots id → a.type = rootType)
    {p : Anchor} (hp : d.draft.extends c.past p) (hroot : roots p.id) :
    p.type = rootType ∧ ∃ a, (Vault.overlay c.stored d.draft.batch).get? p.id = some a := by
  rcases hp with hp | hw
  · exact h.root_kept hcalm hcur hst hp hroot
  · obtain ⟨id, a, ha, hdirty, rfl⟩ := Draft.mem_writes.1 hw
    have hid : a.committed.id = id := hcalm.dated.keyed.own_committed ha
    by_cases hz : a.version = 0
    · refine ⟨hnew (a := a) ha hz (hid ▸ hroot), a.committed, ?_⟩
      rw [hid]
      exact hcalm.dated.keyed.overlay_of_dirty ha hdirty
    · obtain ⟨q, hq, hqid, _⟩ := hcalm.dated.based ha hz
      have hsame : q.id = a.committed.id := hqid.trans hid.symm
      obtain ⟨hty, hex⟩ := h.root_kept hcalm hcur hst hq (hsame ▸ hroot)
      exact ⟨(hcalm.wired.typed ha hq hqid).trans hty, hsame ▸ hex⟩

end Publish

/-- A request committed. The sessions in `rest` go on. -/
theorem Orderly.publish (h : Orderly roots n (m + 1) c.past w) (hcalm : Calm c n d)
    (hst : c.stored = w.stored) (hcur : d.draft.Current c.stored)
    (hnew : ∀ {id a}, d.draft.copy? id = some a → a.version = 0 → roots id → a.type = rootType)
    (hroots : ∀ {id}, roots id → c.reserved id ∨ d.draft.Mentions id)
    {rest : Table String Session} (hrest : ∀ {name s}, rest.get? name = some s →
      w.sessions.get? name = some s ∧ ∀ {id}, s.draft.Bears id → c.reserved id) :
    Orderly roots n m (d.draft.extends c.past)
      ⟨{ w.realm with shared := d.published.shared }, rest⟩ := by
  have hstored : Concourse.stored ⟨{ w.realm with shared := d.published.shared }, rest⟩ =
      Vault.overlay c.stored d.draft.batch := by
    rw [← hcalm.stored]
    exact Sound.stored_published d
  have hroom := fun {v} => hcalm.room (v := v) h.room
  -- the history grows by what is written; all else follows from that and from who bears
  -- what
  have hchron := hcalm.chronicle_extends hcur hroom
  have hwhole : Whole (Vault.overlay c.stored d.draft.batch) :=
    .commit hcalm.chronicle hcalm.lineage hcalm.dated hcalm.wired hcur (hst ▸ h.whole)
  have hline : Lineage ⟨d.draft.extends c.past, Vault.overlay c.stored d.draft.batch,
      fun _ => False, fun _ => 0⟩ :=
    hcalm.lineage.commit hcalm.dated hcalm.wired hchron rfl rfl hwhole
  have hbears : ∀ {name id},
      Concourse.Bears ⟨{ w.realm with shared := d.published.shared }, rest⟩ name id →
        w.Bears name id ∧ c.reserved id := by
    rintro name id ⟨s, hs, hb⟩
    exact ⟨⟨s, (hrest hs).1, hb⟩, (hrest hs).2 hb⟩
  exact {
    agreed := hcalm.agreed_published hcur
    chronicle := hstored ▸ hchron
    lineage := hline.congr rfl
    whole := hstored ▸ hwhole
    drafts := fun {name s} hs => by
      rw [hstored]
      exact .follow hcalm hcur (hst ▸ h.drafts (hrest hs).1) (hrest hs).2 hchron hline rfl rfl
    apart := fun hx hy => h.apart (hbears hx).1 (hbears hy).1
    unrooted := fun hx => h.unrooted (hbears hx).1
    nodes := h.nodes
    rooted := fun {p} hp hroot => by
      rw [hstored]
      exact h.rooted_extends hcalm hcur hst hnew hp hroot
    supply := by
      change d.published.shared.mint.Ample _ _
      rw [Sound.mint_published]
      refine hcalm.supply.mono (Nat.le_refl n) ?_
      rintro id (⟨p, hp | hw, rfl⟩ | ⟨x, hx⟩ | hroot)
      · exact .inl ⟨p, hp, rfl⟩
      · rcases hcalm.of_write hw with hcom | hb
        · exact .inl hcom
        · exact .inr (.inr hb.mentions)
      · exact .inr (.inl (hbears hx).2)
      · exact .inr (hroots hroot)
    room := hroom }

end Wayfarer
