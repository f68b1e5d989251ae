import Wayfarer.Proofs.Concourse.Runs

/-!
# Opening a concourse

A realm that starts over a vault in good order is orderly before anybody has
done anything, and so it is after any acts (`Supplied.reached`). Given are the
mint, which must name different objects, and room for the version numbers; the
vault is empty or was left behind by an earlier realm (`Vault.Intact`).
-/

namespace Wayfarer

variable {c : Setting}

/-- A vault as commits leave it. -/
structure Vault.Intact (v : Vault) : Prop where
  whole : Whole v.anchors
  clean : ∀ {id a}, v.anchors.get? id = some a → a.dirty = false
  positive : ∀ {id a}, v.anchors.get? id = some a → a.version ≠ 0

/-- What acts in a realm take for granted. The mint names different objects,
none of which is stored or a root; a root that is there already has the type of
roots; and no version number would run out even if every act committed. -/
structure Supplied (realm : Realm Vault) (acts : List Act) : Prop where
  minted : realm.shared.mint.Ample (Act.totalMints acts) fun id =>
    (∃ a, realm.shared.stored.get? id = some a) ∨ Act.Founds acts id
  rooted : ∀ {id a}, realm.shared.stored.get? id = some a → Act.Founds acts id → a.type = rootType
  room : ∀ {v : UInt64}, (v = 0 ∨ ∃ id a, realm.shared.stored.get? id = some a ∧ a.version = v) →
    v.toNat + acts.length + 1 < UInt64.size

/-- A concourse in which nobody has done anything. -/
def Concourse.begin (realm : Realm Vault) : Concourse := ⟨realm, Table.empty⟩

theorem Vault.intact_empty : Vault.empty.Intact := by
  have hnone : ∀ {id a}, ¬ Vault.empty.anchors.get? id = some a := fun h => by cases h
  refine ⟨⟨fun h => absurd h hnone, fun h => absurd h.1 hnone, fun h => absurd h.1 hnone,
    fun h => absurd h.1 hnone⟩, fun h => absurd h hnone, fun h => absurd h hnone⟩

/-- If nothing but what is stored was ever committed, referential integrity is
all there is to the lineage. -/
theorem Lineage.of_whole (h : Whole c.stored)
    (hpast : ∀ {p}, c.past p → c.stored.get? p.id = some p)
    (hstored : ∀ {id a}, c.stored.get? id = some a → c.past a) : Lineage c := by
  have hbefore : Lineage { c with past := fun _ => False } :=
    ⟨False.elim, fun ha => ha.1.elim, False.elim, fun ha => ha.1.elim, fun ha => ha.1.elim,
      fun ha => ha.1.elim, fun ha => ha.1.elim, fun ha => ha.1.elim⟩
  refine hbefore.extend h False.elim (fun hp => .inr (hpast hp)) hstored
    (fun {e a r b s} ha hb => ?_) fun {a b} ha hb hid => ?_
  · have hedge : ∀ {a r}, c.WasEdge e a r → EdgeIn c.stored.get? e a r := fun ha =>
      ⟨ha.2.1 ▸ hpast ha.1, ha.2.2⟩
    rw [((hedge ha).unique (hedge hb)).2]
    exact .refl s
  · have hab := hpast ha
    rw [hid, hpast hb] at hab
    cases hab
    rfl

section Opening

variable {rulebook : Rulebook} {config : RealmConfig} {vault vault' : Vault} {realm : Realm Vault}
  {acts : List Act}

/-- The realm that starts over a vault. -/
def Realm.over (rulebook : Rulebook) (config : RealmConfig) (vault : Vault) : Realm Vault :=
  ⟨rulebook, config, ⟨{ vault with epoch := vault.epoch + 1 },
    Cache.new config.cacheTtl.toNat config.cacheCapacity.toNat,
    Mint.new config.idSeed (vault.epoch + 1), 0, Table.empty, Table.empty⟩⟩

theorem Realm.start_eq : Realm.start rulebook config vault =
    .ok (Realm.over rulebook config vault) (Realm.over rulebook config vault).shared.durable := rfl

theorem Realm.eq_over (h : Realm.start rulebook config vault = .ok realm vault') :
    realm = Realm.over rulebook config vault := by
  rw [start_eq] at h
  cases h
  rfl

theorem Concourse.stored_begin (h : Realm.start rulebook config vault = .ok realm vault') :
    (Concourse.begin realm).stored = vault.anchors := by
  rw [Realm.eq_over h]
  rfl

theorem Vault.Intact.own (hv : vault.Intact) {p : Anchor}
    (hp : ∃ id, vault.anchors.get? id = some p) :
    vault.anchors.get? p.id = some p := by
  obtain ⟨id, hp⟩ := hp
  rwa [(hv.whole.fits hp).1]

/-- The anchors of an intact vault are all that was ever committed. -/
theorem Vault.Intact.chronicle (hv : vault.Intact)
    (hroom : ∀ {id a}, vault.anchors.get? id = some a → a.version + 1 ≠ 0) :
    Chronicle (fun p => ∃ id, vault.anchors.get? id = some p) vault.anchors where
  stored_past ha := ⟨⟨_, ha⟩, (hv.whole.fits ha).1⟩
  clean := fun ⟨_, ha⟩ => hv.clean ha
  positive := fun ⟨_, ha⟩ => hv.positive ha
  unique := fun {a b} ha hb hid _ => by
    have hab := hv.own ha
    rw [hid, hv.own hb] at hab
    cases hab
    rfl
  newest := fun {a b} hb ha => by
    rw [hv.own ha] at hb
    cases hb
    exact UInt64.le_refl _
  roomy := fun ⟨_, ha⟩ => hroom ha

/-- The cache of a realm that has just started is empty. -/
theorem Realm.agreed_over (hv : vault.Intact) :
    (Realm.over rulebook config vault).shared.Agreed where
  tidy ha := ⟨(hv.whole.fits ha).1, hv.clean ha⟩
  idle _ _ := rfl
  served _ _ _ he := by cases he

/-- A realm over an intact vault is orderly when it has just started. -/
theorem Supplied.orderly (h : Supplied realm acts) (hv : vault.Intact)
    (hstart : Realm.start rulebook config vault = .ok realm vault') :
    Orderly (Act.Founds acts) (Act.totalMints acts) acts.length
      (fun p => ∃ id, vault.anchors.get? id = some p) (Concourse.begin realm) := by
  obtain rfl := Realm.eq_over hstart
  have hroom : ∀ {id a}, vault.anchors.get? id = some a → a.version + 1 ≠ 0 :=
    fun {id a} ha hover =>
      UInt64.add_one_ne_zero (Nat.lt_of_le_of_lt (by omega) (h.room (.inr ⟨id, a, ha, rfl⟩))) hover
  have hnobody : ∀ {name s},
      ¬ (Concourse.begin (.over rulebook config vault)).sessions.get? name = some s :=
    fun hs => by cases hs
  have hbears : ∀ {name id}, ¬ (Concourse.begin (.over rulebook config vault)).Bears name id :=
    fun ⟨_, hs, _⟩ => hnobody hs
  refine {
    agreed := Realm.agreed_over hv
    chronicle := hv.chronicle hroom
    lineage := .of_whole hv.whole hv.own fun ha => ⟨_, ha⟩
    whole := hv.whole
    drafts := fun hs => absurd hs hnobody
    apart := fun hx => absurd hx hbears
    unrooted := fun hx => absurd hx hbears
    nodes := fun ⟨tenant, _, hid⟩ => ⟨_, hid⟩
    rooted := fun {p} hp hroot => ⟨h.rooted (hv.own hp) hroot, p, hv.own hp⟩
    supply := h.minted.mono (Nat.le_refl _) ?supply
    room := fun {v} hv' => h.room (hv'.imp_right ?room) }
  case supply =>
    rintro id (⟨p, hp, rfl⟩ | ⟨name, hb⟩ | hroot)
    · exact .inl ⟨p, hv.own hp⟩
    · exact absurd hb hbears
    · exact .inr hroot
  case room =>
    rintro ⟨p, ⟨id, hp⟩, hver⟩
    exact ⟨id, p, hp, hver⟩

/-- Nothing awaits a commit in the beginning. -/
theorem Faithful.begin (past : Anchor → Prop) (origin : String → ObjectId → Option Anchor) :
    Faithful past origin (Concourse.begin realm) := fun hs => by cases hs

end Opening

end Wayfarer
