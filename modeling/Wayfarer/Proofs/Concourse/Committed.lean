import Wayfarer.Travel
import Wayfarer.Proofs.Concourse.Opening

/-!
# What gets committed

* `vault_stays_whole`: the vault has referential integrity after any acts of any
  sessions.
* `commits_lose_nothing`: the vault is what successful commits wrote, in their
  order; each of them replaces what its session has seen, and is refused if that
  is not there any more.
-/

namespace Wayfarer

variable {rulebook : Rulebook} {config : RealmConfig} {vault vault' : Vault} {realm : Realm Vault}
  {acts : List Act} {act : Act} {roots : ObjectId → Prop} {n m : Nat} {past : Anchor → Prop}
  {w : Concourse} {c : Setting} {d : Desk Vault} {name : String} {s : Session} {id : ObjectId}
  {origin : String → ObjectId → Option Anchor}

/-- Over an empty vault it is enough to look at the mint and at the number of
acts. -/
theorem Supplied.of_empty (hstart : Realm.start rulebook config Vault.empty = .ok realm vault')
    (hmint : realm.shared.mint.Ample (Act.totalMints acts) (Act.Founds acts))
    (hlen : acts.length + 1 < UInt64.size) : Supplied realm acts := by
  have hnone : ∀ {id a}, ¬ realm.shared.stored.get? id = some a := by
    intro id a ha
    rw [show realm.shared.stored = Vault.empty.anchors from Concourse.stored_begin hstart] at ha
    cases ha
  refine ⟨hmint.mono (Nat.le_refl _) ?_, fun ha => absurd ha hnone, ?_⟩
  · rintro id (⟨a, ha⟩ | hf)
    · exact absurd ha hnone
    · exact hf
  · rintro v (rfl | ⟨id, a, ha, _⟩)
    · simpa using hlen
    · exact absurd ha hnone

/-- Whatever acts follow one another, the concourse is orderly, the vault holds
what was sent, and the notes of origins are right. -/
theorem Supplied.reached (h : Supplied realm (acts ++ [act])) (hv : vault.Intact)
    (hstart : Realm.start rulebook config vault = .ok realm vault')
    (origin : String → ObjectId → Option Anchor) :
    ((Concourse.begin realm).play acts).stored =
        ((Concourse.begin realm).log acts).foldl Vault.overlay vault.anchors ∧
      ∃ past, Orderly (Act.Founds (acts ++ [act])) act.mints 1 past
          ((Concourse.begin realm).play acts) ∧
        Faithful past ((Concourse.begin realm).origins origin acts)
          ((Concourse.begin realm).play acts) := by
  have hfirst := h.orderly hv hstart
  have hlen : (acts ++ [act]).length = 1 + acts.length := by
    simp [Nat.add_comm]
  rw [Act.totalMints_append, hlen] at hfirst
  have hplay := hfirst.play acts
    (fun tenant ht => ⟨tenant, List.mem_append_left _ ht, rfl⟩) (Faithful.begin _ origin)
  rwa [Concourse.stored_begin hstart] at hplay

/-! ## Referential integrity -/

/-- A realm leaves its vault as it found it: in good order. -/
theorem Supplied.intact (h : Supplied realm acts) (hv : vault.Intact)
    (hstart : Realm.start rulebook config vault = .ok realm vault') :
    ((Concourse.begin realm).play acts).realm.shared.durable.Intact := by
  have hfirst := h.orderly hv hstart
  rw [← Nat.zero_add (Act.totalMints acts), ← Nat.zero_add acts.length] at hfirst
  obtain ⟨_, past, h, _⟩ := hfirst.play acts (fun tenant ht => ⟨tenant, ht, rfl⟩)
    (Faithful.begin _ fun _ _ => none)
  refine ⟨h.whole, fun ha => ?_, fun ha => ?_⟩
  · exact h.chronicle.clean (h.chronicle.stored_past ha).1
  · exact h.chronicle.positive (h.chronicle.stored_past ha).1

/-- The vault of a realm that started empty is whole at any time: whatever any
number of sessions of any tenants do, and in whatever order. The mint is taken
to name different objects, and there are fewer acts than version numbers. -/
theorem vault_stays_whole
    (hstart : Realm.start rulebook config Vault.empty = .ok realm vault') (acts : List Act)
    (hmint : realm.shared.mint.Ample (Act.totalMints acts) (Act.Founds acts))
    (hlen : acts.length + 1 < UInt64.size) : Whole ((Concourse.begin realm).play acts).stored :=
  ((Supplied.of_empty hstart hmint hlen).intact Vault.intact_empty hstart).whole

section Meeting

/-- The rules of the travel schema. -/
def Travel.rules : Rulebook := (Rulebook.build Travel.schema).toOption.getD default

/-- A realm of the travel schema that has just started over an empty vault. -/
def Travel.opened : Realm Vault := .over Travel.rules .default Vault.empty

/-- Two sessions of one tenant. Both change the root, and one commits. -/
def Travel.meeting : List Act :=
  let root := RootId.ofTenant "acme"
  [.createRoot "acme", .enter "left" root, .enter "right" root,
    .perform "left" (.createLinked root.node "place" Fields.empty "road"),
    .perform "right" (.grant root .read), .commit "left"]

theorem Travel.opened_starts : Realm.start Travel.rules .default Vault.empty =
    .ok Travel.opened Travel.opened.shared.durable := Realm.start_eq

theorem Travel.meeting_founds (h : Act.Founds (Travel.meeting ++ [.commit "right"]) id) :
    id = RootId.ofTenant "acme" := by
  obtain ⟨tenant, ht, rfl⟩ := h
  simp only [meeting, List.cons_append, List.nil_append, List.mem_cons, List.not_mem_nil,
    Act.createRoot.injEq, reduceCtorEq, or_false] at ht
  rw [ht]

theorem Travel.opened_ample : Travel.opened.shared.mint.Ample
    (Act.totalMints (Travel.meeting ++ [.commit "right"]))
    (Act.Founds (Travel.meeting ++ [.commit "right"])) := by
  have hnames : ((.node (RootId.ofTenant "acme").node :: Travel.opened.shared.mint.upcoming
      (Act.totalMints (Travel.meeting ++ [.commit "right"]))) : List ObjectId).Nodup := by
    decide +kernel
  rw [List.nodup_cons] at hnames
  exact Mint.ample_of_nodup hnames.2 fun id hid hf => hnames.1 (Travel.meeting_founds hf ▸ hid)

theorem vault_whole_after_meeting :
    Whole ((Concourse.begin Travel.opened).play (Travel.meeting ++ [.commit "right"])).stored :=
  vault_stays_whole Travel.opened_starts _ Travel.opened_ample (by decide)

end Meeting

/-! ## No lost update, no partial commit -/

/-- An object that a batch writes or deletes. -/
def Batch.Touches (b : Batch) (id : ObjectId) : Prop :=
  (∃ a ∈ b.writes, a.id = id) ∨ ∃ v, (id, v) ∈ b.deletes

/-- The stored version of an object; zero if it is not there. -/
def Concourse.version (w : Concourse) (id : ObjectId) : UInt64 :=
  ((w.stored.get? id).map (·.version)).getD 0

/-- What the change to an object that an act commits started from. A new root
starts from nothing. -/
def Concourse.started (w : Concourse) (origin : String → ObjectId → Option Anchor) (act : Act)
    (id : ObjectId) : Option Anchor :=
  match act with
  | .commit name => w.recollect origin name id
  | _ => none

theorem Dated.touches_iff {draft : Draft} (h : Dated c draft) :
    draft.batch.Touches id ↔ draft.Pending id := by
  constructor
  · rintro (⟨x, hx, rfl⟩ | ⟨v, hv⟩)
    · obtain ⟨j, a, ha, hdirty, rfl⟩ := Draft.mem_writes.1 hx
      rw [h.keyed.own_committed ha]
      exact .inl ⟨a, ha, hdirty⟩
    · exact .inr ⟨v, Draft.mem_deletes.1 hv⟩
  · rintro (⟨a, ha, hdirty⟩ | ⟨v, hv⟩)
    · exact .inl ⟨a.committed, Draft.mem_writes.2 ⟨id, a, ha, hdirty, rfl⟩,
        h.keyed.own_committed ha⟩
    · exact .inr ⟨v, Draft.mem_deletes.2 hv⟩

namespace Orderly

/-- At the desk where an act commits the request is calm, and what it holds of a
pending object has the version of the anchor that the change started from. -/
theorem brings (h : Orderly roots n m past w) (hf : Faithful past origin w)
    (hroots : ∀ tenant, act = .createRoot tenant → roots (RootId.ofTenant tenant))
    (hb : w.brings act = some d) :
    ∃ c, c.past = past ∧ c.stored = w.stored ∧ Calm c n d ∧
      ∀ {id}, d.draft.Pending id → (∀ p, w.started origin act id = some p → past p ∧ p.id = id) ∧
        (w.started origin act id).elim 0 Anchor.version = d.draft.held w.stored id := by
  rcases h.brings_cases hroots hb with ⟨tenant, rfl, hfound⟩ | ⟨name, s, rfl, hs, hcalm, _⟩
  · refine ⟨_, rfl, rfl, hfound.calm, fun {id} hp => ⟨fun p hn => (by cases hn), ?_⟩⟩
    rw [← hfound.current id hp, hfound.alone hp, hfound.absent]
    rfl
  · refine ⟨_, rfl, rfl, hcalm, fun {id} _ => ?_⟩
    obtain ⟨hcommitted, hversion⟩ := hf.recollect h hs id
    exact ⟨hcommitted, hversion.trans (hcalm.dated.held id).symm⟩

end Orderly

/-- A commit at a calm desk fails exactly if the vault has another version of
some pending object than the request holds, and then because of a conflict. -/
theorem Sound.refused_iff (h : Calm c n d) :
    ((∃ e d', Desk.commit d = .error e d') ↔ ¬ d.draft.Current c.stored) ∧
      ∀ {e d'}, Desk.commit d = .error e d' → e.isConflict = true := by
  rcases h.sent with ⟨hcur, _, receipt, hok⟩ | ⟨hnot, _, e, hconf, herror⟩
  · rw [hok]
    exact ⟨⟨fun ⟨_, _, he⟩ => (by cases he), fun hn => absurd hcur hn⟩, fun he => by cases he⟩
  · rw [herror]
    exact ⟨⟨fun _ => hnot, fun _ => ⟨e, d, rfl⟩⟩, fun he => by cases he; exact hconf⟩

/-- A commit at a calm desk succeeds exactly if it sends the draft. -/
theorem Sound.accepted_iff (h : Calm c n d) :
    (∃ receipt d', Desk.commit d = .ok receipt d') ↔ d.sent = some d.draft.batch := by
  rcases h.sent with ⟨_, hsome, receipt, hok⟩ | ⟨_, hnone, e, _, herror⟩
  · exact ⟨fun _ => hsome, fun _ => ⟨receipt, _, hok⟩⟩
  · rw [herror, hnone]
    exact ⟨fun ⟨_, _, he⟩ => (by cases he), fun he => by cases he⟩

/-- An act that loses nothing of what others committed. The origins say what the
pending changes of the sessions started from. -/
structure Concourse.LosesNothing (w : Concourse) (origin : String → ObjectId → Option Anchor)
    (act : Act) : Prop where
  /-- Only a commit that succeeds changes the vault, and it writes its whole
  batch. -/
  stored : (w.step act).stored = (w.sends act).elim w.stored (Vault.overlay w.stored)
  sends : ∀ {d}, w.brings act = some d →
    ((∃ receipt d', Desk.commit d = .ok receipt d') ↔ w.sends act = some d.draft.batch)
  /-- What the commit replaces or deletes is exactly what the session's change
  to it started from. -/
  started : ∀ {b id}, w.sends act = some b → b.Touches id →
    w.stored.get? id = w.started origin act id
  written : ∀ {b a}, w.sends act = some b → a ∈ b.writes →
    a.version.toNat = (w.version a.id).toNat + 1 ∧ (w.step act).stored.get? a.id = some a
  deleted : ∀ {b id v}, w.sends act = some b → (id, v) ∈ b.deletes →
    w.version id = v ∧ (w.step act).stored.get? id = none
  untouched : ∀ {id}, (∀ {b}, w.sends act = some b → ¬ b.Touches id) →
    (w.step act).stored.get? id = w.stored.get? id
  /-- A commit is refused because of a conflict, and if and only if there is
  one. -/
  refused : ∀ {d}, w.brings act = some d → ((∃ e d', Desk.commit d = .error e d') ↔
    ∃ id, d.draft.Pending id ∧ w.version id ≠ d.draft.held w.stored id)
  conflict : ∀ {d e d'}, w.brings act = some d → Desk.commit d = .error e d' → e.isConflict = true
  /-- A session's commit reclaims what is unreachable, without fail, and then
  commits. -/
  concludes : ∀ {name s}, act = .commit name → w.sessions.get? name = some s →
    ∃ d, w.brings act = some d ∧ Desk.conclude s.root (w.desk s.draft) = Desk.commit d

theorem UInt64.toNat_add_one {v : UInt64} (h : v + 1 ≠ 0) : (v + 1).toNat = v.toNat + 1 := by
  have hlt := UInt64.lt_iff_toNat_lt.1 (UInt64.lt_add_one h)
  have hle : (v + 1).toNat ≤ v.toNat + 1 := by
    rw [UInt64.toNat_add]
    exact Nat.mod_le _ _
  omega

namespace Orderly

variable (h : Orderly roots (n + act.mints) (m + 1) past w) (hf : Faithful past origin w)
  (hroots : ∀ tenant, act = .createRoot tenant → roots (RootId.ofTenant tenant))

include h hf hroots

/-- What an act sends a change of is still as the change found it: absent, if it
was not there then. -/
theorem stored_eq_started {b : Batch} (hs : w.sends act = some b) (htouch : b.Touches id) :
    w.stored.get? id = w.started origin act id := by
  obtain ⟨d, c, hb, rfl, rfl, hst, hcalm, hcur⟩ := h.sent hroots hs
  obtain ⟨_, _, _, _, horigin⟩ := h.brings hf hroots hb
  have hp := hcalm.dated.touches_iff.1 htouch
  obtain ⟨hcommitted, hversion⟩ := horigin hp
  cases ho : w.started origin act id with
  | none =>
    -- a stored anchor has a version above zero, but no version is held
    rw [ho] at hversion
    have hzero := hcur id hp
    rw [← hversion] at hzero
    cases hget : w.stored.get? id with
    | none => rfl
    | some a =>
      rw [hget] at hzero
      exact absurd hzero (h.chronicle.positive (h.chronicle.stored_past hget).1)
  | some p =>
    rw [ho] at hversion
    obtain ⟨hpast, hid⟩ := hcommitted p ho
    rw [← hst] at hcur hversion ⊢
    exact Dated.stored_of_current hcalm.chronicle hcur hp hpast hid hversion

/-- In an orderly concourse no act loses anything. -/
theorem losesNothing : w.LosesNothing origin act := by
  have hstored := (h.step act hroots).stored
  refine {
    stored := hstored
    sends := fun {d} hb => ?sends
    started := h.stored_eq_started hf hroots
    written := fun {b a} hs ha => ?written
    deleted := fun {b id v} hs hdel => ?deleted
    untouched := fun {id} hno => ?untouched
    refused := fun {d} hb => ?refused
    conflict := fun {d e d'} hb herror => ?conflict
    concludes := ?concludes }
  case sends =>
    obtain ⟨c, _, _, hcalm⟩ := h.brought hroots hb
    rw [show w.sends act = d.sent by simp [Concourse.sends, hb]]
    exact hcalm.accepted_iff
  case written =>
    obtain ⟨d, c, _, rfl, rfl, hst, hcalm, hcur⟩ := h.sent hroots hs
    obtain ⟨id, x, hx, hdirty, rfl⟩ := Draft.mem_writes.1 ha
    rw [hcalm.dated.keyed.own_committed hx]
    refine ⟨?_, ?_⟩
    · have hver : w.version id = x.version := by
        rw [Concourse.version, hcur id (.inl ⟨x, hx, hdirty⟩), hcalm.dated.keyed.held_of_copy hx]
      rw [hver]
      exact UInt64.toNat_add_one (hcalm.dated.roomy hcalm.chronicle hx)
    · rw [hstored, hs]
      exact hcalm.dated.keyed.overlay_of_dirty hx hdirty
  case deleted =>
    obtain ⟨d, c, _, rfl, rfl, hst, hcalm, hcur⟩ := h.sent hroots hs
    have hv := Draft.mem_deletes.1 hdel
    refine ⟨?_, ?_⟩
    · rw [Concourse.version, hcur id (.inr ⟨v, hv⟩), Draft.held_of_removed hv]
    · rw [hstored, hs]
      exact Draft.overlay_of_removed hv
  case untouched =>
    rw [hstored]
    cases hs : w.sends act with
    | none => rfl
    | some b =>
      obtain ⟨d, c, _, rfl, _, _, hcalm, _⟩ := h.sent hroots hs
      exact hcalm.dated.keyed.overlay_of_idle fun hp => hno hs (hcalm.dated.touches_iff.2 hp)
  case refused =>
    obtain ⟨c, _, hst, hcalm⟩ := h.brought hroots hb
    rw [hcalm.refused_iff.1, hst]
    simp [Draft.Current, Concourse.version]
  case conflict =>
    obtain ⟨c, _, _, hcalm⟩ := h.brought hroots hb
    exact hcalm.refused_iff.2 herror
  case concludes =>
    rintro name s rfl hs
    obtain ⟨d, hb, _, _, hconclude⟩ := h.brings_commit hs
    exact ⟨d, hb, hconclude⟩

end Orderly

/-- The vault is at any time what the batches of the successful commits make of
the one that the realm started over, in the order of the commits, and no act
loses anything that others committed. -/
theorem commits_lose_nothing
    (hstart : Realm.start rulebook config vault = .ok realm vault') (hv : vault.Intact)
    (acts : List Act) (act : Act) (hsup : Supplied realm (acts ++ [act])) :
    ((Concourse.begin realm).play acts).stored =
        ((Concourse.begin realm).log acts).foldl Vault.overlay vault.anchors ∧
      ((Concourse.begin realm).play acts).LosesNothing
        ((Concourse.begin realm).origins (fun _ _ => none) acts) act := by
  obtain ⟨hfold, past, h, hf⟩ := hsup.reached hv hstart fun _ _ => none
  rw [← Nat.zero_add act.mints] at h
  exact ⟨hfold, Orderly.losesNothing h hf fun tenant ht =>
    ⟨tenant, List.mem_append_right _ (List.mem_singleton.2 ht.symm), rfl⟩⟩

theorem meeting_loses_nothing :
    ((Concourse.begin Travel.opened).play Travel.meeting).stored =
        ((Concourse.begin Travel.opened).log Travel.meeting).foldl Vault.overlay
          Vault.empty.anchors ∧
      ((Concourse.begin Travel.opened).play Travel.meeting).LosesNothing
        ((Concourse.begin Travel.opened).origins (fun _ _ => none) Travel.meeting)
        (.commit "right") :=
  commits_lose_nothing Travel.opened_starts Vault.intact_empty Travel.meeting (.commit "right")
    (.of_empty Travel.opened_starts Travel.opened_ample (by decide))

end Wayfarer
