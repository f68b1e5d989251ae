import Wayfarer.Proofs.Concourse.Steps

/-!
# Acts one after another

Every act keeps a concourse orderly, and the vault changes by the batch that the
act sends and by nothing else (`Orderly.step`). `Advances` says in one place
what an act can do; the facts about whole runs follow from it.
-/

namespace Wayfarer

variable {roots : ObjectId → Prop} {n m : Nat} {past past' : Anchor → Prop}
  {w w' : Concourse} {c : Setting} {d d' : Desk Vault} {name : String} {root : RootId} {s : Session}
  {id : ObjectId}

/-- What an act can do: the concourse is orderly again, with nothing more in the
past than what is stored now; the vault has taken the batch that was sent, and
whatever awaits a commit in a session is held there at the version at which the
session held it before. -/
structure Advances (roots : ObjectId → Prop) (n m : Nat) (past : Anchor → Prop) (w : Concourse)
    (sent : Option Batch) (w' : Concourse) : Prop where
  orderly : ∃ past', (∀ {p}, past p → past' p) ∧
    (∀ {p}, past' p → past p ∨ w'.stored.get? p.id = some p) ∧ Orderly roots n m past' w'
  stored : w'.stored = sent.elim w.stored (Vault.overlay w.stored)
  held : ∀ {name s' id}, w'.sessions.get? name = some s' → s'.draft.Pending id →
    ∃ s, w.sessions.get? name = some s ∧ s'.draft.held w'.stored id = s.draft.held w.stored id

namespace Draft

/-- The version of a pending object does not depend on the vault. -/
theorem held_of_pending {draft : Draft} (h : draft.Pending id) (t t' : Table ObjectId Anchor) :
    draft.held t id = draft.held t' id := by
  unfold held
  rcases h with ⟨a, ha, _⟩ | ⟨v, hv⟩
  · rw [ha]
    rfl
  · rw [hv]
    rfl

/-- Staging an anchor makes no other object pending. -/
theorem pending_of_stage {draft : Draft} {a : Anchor} (h : (draft.stage a).Pending id) :
    id = a.id ∨ draft.Pending id := by
  rcases h with ⟨x, hx, hdirty⟩ | ⟨v, hv⟩
  · rw [stage_copy?] at hx
    split at hx
    · exact .inl ‹_›
    · exact .inr (.inl ⟨x, hx, hdirty⟩)
  · rw [stage_removed?] at hv
    split at hv
    · exact .inl ‹_›
    · exact .inr (.inr ⟨v, hv⟩)

theorem rollback_not_pending (draft : Draft) : ¬ draft.rollback.Pending id := by
  rintro (⟨a, ha, _⟩ | ⟨v, hv⟩)
  · cases ha
  · cases hv

theorem evictVolatile_pending {draft : Draft} (h : draft.evictVolatile.Pending id)
    (t : Table ObjectId Anchor) : draft.evictVolatile.held t id = draft.held t id := by
  unfold held
  rcases h with ⟨a, ha, _⟩ | ⟨v, hv⟩
  · rw [ha, (copy?_of_evictVolatile ha).1]
    rfl
  · rw [hv, show draft.removed? id = some v from hv]
    rfl

end Draft

/-- After its own commit a draft has nothing pending. -/
theorem Dated.settle_not_pending {draft : Draft} (h : Dated c draft) :
    ¬ (draft.settle draft.batch).Pending id := by
  rintro (⟨a, ha, hdirty⟩ | ⟨v, hv⟩)
  · rcases h.keyed.settle_copy? ha with ⟨x, _, _, rfl⟩ | ⟨_, hclean⟩
    · cases hdirty
    · rw [hdirty] at hclean
      cases hclean
  · rw [Draft.settle_removed?] at hv
    cases hv

/-- What a commit adds to the past is stored now. -/
theorem Dated.newest_of_extends {draft : Draft} (h : Dated c draft) {p : Anchor}
    (hp : draft.extends past p) {t : Table ObjectId Anchor} :
    past p ∨ (Vault.overlay t draft.batch).get? p.id = some p := by
  refine hp.imp id fun hw => ?_
  obtain ⟨id, a, ha, hdirty, rfl⟩ := Draft.mem_writes.1 hw
  rw [h.keyed.own_committed ha]
  exact h.keyed.overlay_of_dirty ha hdirty

/-- A commit sends the draft if it is current, and fails with a conflict
otherwise. -/
theorem Sound.sent (h : Calm c n d) :
    (d.draft.Current c.stored ∧ d.sent = some d.draft.batch ∧
      ∃ receipt, Desk.commit d = .ok receipt d.published) ∨
    (¬ d.draft.Current c.stored ∧ d.sent = none ∧
      ∃ e, e.isConflict = true ∧ Desk.commit d = .error e d) := by
  have hends := h.commit
  unfold Desk.sent
  cases hw : Desk.commit d with
  | ok receipt d' =>
    obtain ⟨hcur, rfl⟩ := hends.ok hw
    exact .inl ⟨hcur, rfl, receipt, rfl⟩
  | error e d' =>
    obtain ⟨hconf, hnot, rfl⟩ := hends.error hw
    exact .inr ⟨hnot, rfl, e, hconf, rfl⟩

namespace Concourse

theorem inSession_of_none {α : Type} {job : Session → Work Vault α}
    (h : w.sessions.get? name = none) : w.inSession name job = w := by
  simp [inSession, h]

theorem step_wait (millis : Nat) : w.step (.wait millis) =
    { w with realm := { w.realm with shared := w.realm.shared.sleep millis } } := by
  simp only [step]

/-- Work in a session leaves the concourse at one of the desks where the work
can end. -/
theorem inSession_of_ends {α : Type} {job : Session → Work Vault α} {P : Concourse → Prop}
    (hs : w.sessions.get? name = some s)
    (h : Work.Ends (job s) (w.desk s.draft) (fun _ d => P (w.after name s.root d))
      fun _ d => P (w.after name s.root d)) : P (w.inSession name job) := by
  unfold inSession
  rw [hs]
  simp only [Realm.work]
  cases hw : job s ⟨s.draft, w.realm.shared⟩ with
  | ok a d => exact h.ok hw
  | error e d => exact h.error hw

end Concourse

/-- The concourse with the shared tiers of a desk and without the session that
was at it. -/
def Concourse.without (w : Concourse) (name : String) (d : Desk Vault) : Concourse :=
  ⟨{ w.realm with shared := d.shared }, w.sessions.erase name⟩

theorem Concourse.after_without : (w.without name d).after name root d = w.after name root d := by
  have hsame : (w.sessions.erase name).insert name ⟨root, d.draft⟩ =
      w.sessions.insert name ⟨root, d.draft⟩ := by
    refine Table.ext_get? fun other => ?_
    rw [Table.get?_insert, Table.get?_insert, Table.get?_erase]
    split
    · rfl
    · rfl
  unfold without after
  rw [hsame]

namespace Advances

/-- Nothing but the shared tiers changes. -/
theorem share {draft : Draft} (h : Orderly roots n (m + 1) past w)
    (hl : (w.desk draft).Loaded d) :
    Advances roots n m past w none { w with realm := { w.realm with shared := d.shared } } :=
  ⟨⟨past, fun hp => hp, .inl, (h.share hl.agreed hl.stored_eq hl.mint).fewer (Nat.le_refl n)
    (Nat.le_succ m)⟩,
    hl.stored_eq, fun {_ s' _} hs hp => ⟨s', hs, Draft.held_of_pending hp _ _⟩⟩

/-- A session goes on with another draft. -/
theorem put {k : Nat} (h : Orderly roots k (m + 1) past w) (hcalm : Calm c n d)
    (hp : c.past = past) (hst : c.stored = w.stored) (hr : c.reserved = w.taken roots name)
    (hheld : ∀ {id}, d.draft.Pending id → ∃ s, w.sessions.get? name = some s ∧
      d.draft.held w.stored id = s.draft.held w.stored id) :
    Advances roots n m past w none (w.after name root d) := by
  have hstored : (w.after name root d).stored = w.stored := hcalm.stored.trans hst
  refine ⟨⟨past, fun hp => hp, .inl,
    (h.put hcalm hp hst hr).fewer (Nat.le_refl n) (Nat.le_succ m)⟩, hstored, ?_⟩
  intro other s' id hs' hpend
  rw [hstored]
  rw [Concourse.get?_after] at hs'
  split at hs'
  · rename_i ho
    cases hs'
    subst ho
    exact hheld hpend
  · exact ⟨s', hs', rfl⟩

/-- A session worked with the versions that it held before. -/
theorem work {k : Nat} (h : Orderly roots k (m + 1) past w) (hs : w.sessions.get? name = some s)
    (hcalm : Calm (s.draft.setting past w.stored (w.taken roots name)) n d) :
    Advances roots n m past w none (w.after name s.root d) :=
  put h hcalm rfl rfl rfl fun {id} _ => ⟨s, hs, hcalm.dated.held id⟩

end Advances

/-- Reading does not make anything pending. -/
theorem Desk.Loaded.not_pending (hl : (w.desk Draft.empty).Loaded d) : ¬ d.draft.Pending id := by
  rintro (⟨a, ha, hdirty⟩ | ⟨v, hv⟩)
  · rcases hl.volatile id with hsame | ⟨_, _, b, hb, hb'⟩
    · rw [show d.draft.copy? id = none from hsame] at ha
      cases ha
    · rw [show d.draft.copy? id = some b from hb'] at ha
      cases ha
      rw [← hl.stored_eq] at hb
      rw [(hl.agreed.tidy hb).2] at hdirty
      cases hdirty
  · rw [Draft.removed?, hl.tombstones] at hv
    cases hv

namespace Orderly

/-! ## One act -/

theorem perform (op : Op) (h : Orderly roots (n + op.mints) (m + 1) past w)
    (hs : w.sessions.get? name = some s) :
    Advances roots n m past w none (w.step (.perform name op)) := by
  refine Concourse.inSession_of_ends hs ?_
  exact (Op.run_calm op (w.realm.actor s.root) (h.calm hs)).mono (fun _ _ hd => .work h hs hd)
    fun _ _ hd => .work h hs hd

theorem rollback (h : Orderly roots n (m + 1) past w) (hs : w.sessions.get? name = some s) :
    Advances roots n m past w none (w.step (.rollback name)) := by
  change Advances roots n m past w none (w.inSession name fun _ => Desk.onDraft Draft.rollback)
  refine Concourse.inSession_of_ends hs ?_
  refine .modify ?_
  have hcalm : Calm (s.draft.rollback.setting past w.stored (w.taken roots name)) n
      (w.desk s.draft.rollback) := by
    refine h.calm_of (.of_past h.chronicle h.lineage rfl (fun ha => by cases ha) fun _ => rfl) ?_ ?_
    · rintro id ⟨a, ha, _⟩
      cases ha
    · exact Or.imp id fun ⟨other, _, ho⟩ => ⟨other, ho⟩
  exact .put h hcalm rfl rfl rfl fun hp => absurd hp s.draft.rollback_not_pending

theorem evict (h : Orderly roots n (m + 1) past w) (hs : w.sessions.get? name = some s) :
    Advances roots n m past w none (w.step (.evict name)) := by
  change Advances roots n m past w none (w.inSession name fun _ => Desk.onDraft Draft.evictVolatile)
  refine Concourse.inSession_of_ends hs ?_
  refine .modify ?_
  have hbefore := h.calm hs
  have hcalm : Calm (s.draft.evictVolatile.setting past w.stored (w.taken roots name)) n
      (w.desk s.draft.evictVolatile) := by
    refine ⟨h.chronicle, h.lineage.congr rfl, h.agreed, rfl, hbefore.dated.evict,
      (hbefore.wired.evict hbefore.dated).congr rfl rfl, ?_⟩
    refine hbefore.supply.mono (Nat.le_refl n) ?_
    rintro id (hcom | hr | ⟨a, ha⟩ | hrem)
    · exact .inl hcom
    · exact .inr (.inl hr)
    · exact .inr (.inr (.inl ⟨a, (Draft.copy?_of_evictVolatile ha).1⟩))
    · exact .inr (.inr (.inr hrem))
  exact .put h hcalm rfl rfl rfl fun hp => ⟨s, hs, Draft.evictVolatile_pending hp _⟩

theorem leave (h : Orderly roots n (m + 1) past w) (name : String) :
    Advances roots n m past w none (w.step (.leave name)) := by
  refine ⟨⟨past, fun hp => hp, .inl, (h.drop name).fewer (Nat.le_refl n) (Nat.le_succ m)⟩, rfl, ?_⟩
  intro other s id hs _
  refine ⟨s, ?_, rfl⟩
  change (w.sessions.erase name).get? other = some s at hs
  rw [Table.get?_erase] at hs
  split at hs
  · cases hs
  · exact hs

theorem wait (h : Orderly roots n (m + 1) past w) (millis : Nat) :
    Advances roots n m past w none (w.step (.wait millis)) := by
  have hagreed := h.agreed.sleep millis
  rw [Concourse.step_wait]
  generalize hs : w.realm.shared.sleep millis = later at hagreed
  have hdurable : later.durable = w.realm.shared.durable := by
    rw [← hs, Shared.sleep]
  have hmint : later.mint = w.realm.shared.mint := by
    rw [← hs, Shared.sleep]
  have hstored : later.stored = w.stored := by
    rw [Shared.stored, hdurable]
    rfl
  refine ⟨⟨past, fun hp => hp, .inl, ?_⟩, hstored, fun {_ s' _} hs' hp =>
    ⟨s', hs', Draft.held_of_pending hp _ _⟩⟩
  exact (h.share hagreed hstored hmint).fewer (Nat.le_refl n) (Nat.le_succ m)

/-- Opening a session reads, and nothing else. -/
theorem requireRoot (h : Orderly roots n m past w) (name : String) (root : RootId) :
    Work.Ends (Realm.requireRoot (w.realm.actor root)) (w.desk Draft.empty)
      (fun _ d => (w.desk Draft.empty).Loaded d ∧
        Calm (Draft.empty.setting past w.stored (w.taken roots name)) n d)
      fun _ d => (w.desk Draft.empty).Loaded d ∧
        Calm (Draft.empty.setting past w.stored (w.taken roots name)) n d := by
  refine (h.calm_empty (Or.imp id fun ⟨other, _, ho⟩ => ⟨other, ho⟩)).reads ?_
  refine .bind (.readableType _ _) fun found => ?_
  cases found
  · exact .throw _
  · exact .pure _

theorem enter (h : Orderly roots n (m + 1) past w) (name : String) (root : RootId) :
    Advances roots n m past w none (w.step (.enter name root)) := by
  have hends := h.requireRoot name root
  cases hw : Realm.requireRoot (w.realm.actor root) ⟨Draft.empty, w.realm.shared⟩ with
  | ok a d =>
    obtain ⟨hl, hd⟩ := hends.ok hw
    have hstep : w.step (.enter name root) = w.after name root d := by
      simp [Concourse.step, Realm.session, Realm.work, hw, Concourse.after]
    rw [hstep]
    exact .put h hd rfl rfl rfl fun hp => absurd hp hl.not_pending
  | error e d =>
    have hstep : w.step (.enter name root) =
        { w with realm := { w.realm with shared := d.shared } } := by
      simp [Concourse.step, Realm.session, Realm.work, hw]
    rw [hstep]
    exact .share h (hends.error hw).1

/-! ## Commits -/

/-- A session's commit first reclaims what nobody can reach, which always
succeeds, and then sends the draft. -/
theorem brings_commit (h : Orderly roots n m past w) (hs : w.sessions.get? name = some s) :
    ∃ d, w.brings (.commit name) = some d ∧
      Calm (s.draft.setting past w.stored (w.taken roots name)) n d ∧
      (∃ gone, Desk.evictUnreachable s.root (w.desk s.draft) = .ok gone d) ∧
      Desk.conclude s.root (w.desk s.draft) = Desk.commit d := by
  obtain ⟨gone, d, hw, hd⟩ := ((h.calm hs).evictUnreachable s.root).exists_ok
  refine ⟨d, ?_, hd, ⟨gone, hw⟩, ?_⟩
  · simp [Concourse.brings, hs, hw]
  · simp [Desk.conclude, bind, EStateM.bind, hw]

/-- A session committed. -/
theorem committed (h : Orderly roots n (m + 1) past w)
    (hd : Calm (s.draft.setting past w.stored (w.taken roots name)) n d)
    (hcur : d.draft.Current w.stored) :
    Advances roots n m past w (some d.draft.batch) (w.after name s.root d.published) := by
  have hrest : Orderly roots n m (d.draft.extends past) (w.without name d.published) := by
    refine h.publish hd rfl hcur (fun ha hz hroot => ?_) (fun hroot => .inl (.inl hroot)) ?_
    · exact absurd (.inl hroot) (hd.dated.born ha hz).2.2
    · intro other s' hs'
      rw [Table.get?_erase] at hs'
      split at hs'
      · cases hs'
      · rename_i hne
        exact ⟨hs', fun {id} hb => .inr ⟨other, hne, s', hs', hb⟩⟩
  -- the session goes on with clean copies of what is committed now
  have hcopy : ∀ {id a}, d.published.draft.copy? id = some a →
      d.draft.extends past a ∧ a.id = id := hd.dated.past_of_settle
  have hcalm : Calm (d.published.draft.setting (d.draft.extends past)
      (w.without name d.published).stored ((w.without name d.published).taken roots name)) n
      d.published :=
    hrest.calm_of (.of_past hrest.chronicle hrest.lineage rfl hcopy fun _ => rfl)
      (fun hb => absurd hb (Draft.not_bears_of_past hrest.chronicle hcopy))
      (Or.imp id fun ⟨other, _, ho⟩ => ⟨other, ho⟩)
  have hput : Orderly roots n m (d.draft.extends past) (w.after name s.root d.published) :=
    Concourse.after_without ▸ hrest.put hcalm rfl rfl rfl
  have hstored : (w.after name s.root d.published).stored =
      Vault.overlay w.stored d.draft.batch := by
    rw [show w.stored = d.stored from hd.stored.symm]
    exact Sound.stored_published d
  refine ⟨⟨_, .inl, fun hp => ?_, hput⟩, hstored, ?_⟩
  · rw [hstored]
    exact hd.dated.newest_of_extends hp
  intro other s' id hs' hpend
  rw [Concourse.get?_after] at hs'
  split at hs'
  · cases hs'
    exact absurd hpend hd.dated.settle_not_pending
  · exact ⟨s', hs', Draft.held_of_pending hpend _ _⟩

theorem commit (h : Orderly roots n (m + 1) past w) (hs : w.sessions.get? name = some s) :
    Advances roots n m past w (w.sends (.commit name)) (w.step (.commit name)) := by
  obtain ⟨d, hb, hd, _, hconclude⟩ := h.brings_commit hs
  have hsends : w.sends (.commit name) = d.sent := by
    simp [Concourse.sends, hb]
  rw [hsends]
  change Advances roots n m past w d.sent (w.inSession name fun s => Desk.conclude s.root)
  rcases hd.sent with ⟨hcur, hsent, receipt, hok⟩ | ⟨_, hsent, e, _, herror⟩
  · rw [hsent]
    refine Concourse.inSession_of_ends hs ?_
    exact .of_ok (hconclude.trans hok) (h.committed hd hcur)
  · rw [hsent]
    refine Concourse.inSession_of_ends hs ?_
    unfold Work.Ends
    rw [hconclude, herror]
    exact .work h hs hd

end Orderly

/-! ## Roots -/

/-- Identities that the request for a root must not use for new objects. -/
def Concourse.claimed (w : Concourse) (roots : ObjectId → Prop) (root : RootId) (id : ObjectId) :
    Prop :=
  (roots id ∧ id ≠ root) ∨ ∃ name, w.Bears name id

/-- The desk of a request that is about to commit a new root. -/
structure Founding (roots : ObjectId → Prop) (n : Nat) (past : Anchor → Prop) (w : Concourse)
    (root : RootId) (d : Desk Vault) : Prop where
  absent : w.stored.get? root = none
  calm : Calm (Draft.empty.setting past w.stored (w.claimed roots root)) n d
  typed : ∀ {id a}, d.draft.copy? id = some a → a.version = 0 → id = root ∧ a.type = rootType
  alone : ∀ {id}, d.draft.Pending id → id = root
  born : d.draft.Bears root

/-- Nothing can get in the way of a new root. -/
theorem Founding.current (h : Founding roots n past w root d) : d.draft.Current w.stored := by
  intro id hp
  obtain ⟨a, ha, hz⟩ := h.born
  rw [h.alone hp, h.absent, h.calm.dated.keyed.held_of_copy ha, hz]
  rfl

/-- The work of a request for a root. -/
def Realm.foundRoot {σ : Type} [Durable σ] (root : RootId) : Work σ Unit := do
  if ← Actor.insertRoot root then
    let _ ← Desk.commit

theorem Realm.foundRoot_of_found (h : Actor.insertRoot root d = .ok false d') :
    Realm.foundRoot root d = .ok () d' := by
  simp [foundRoot, bind, EStateM.bind, h, pure, EStateM.pure]

theorem Realm.foundRoot_of_new {receipt : Receipt} {d₁ : Desk Vault}
    (h : Actor.insertRoot root d = .ok true d₁) (hc : Desk.commit d₁ = .ok receipt d') :
    Realm.foundRoot root d = .ok () d' := by
  simp [foundRoot, bind, EStateM.bind, h, hc, pure, EStateM.pure]

theorem Realm.createRoot_eq {σ : Type} [Durable σ] (tenant : String) :
    Realm.createRoot (σ := σ) tenant = (do
      Realm.request (Realm.foundRoot (RootId.ofTenant tenant))
      pure (RootId.ofTenant tenant)) := rfl

theorem Concourse.step_createRoot {tenant : String}
    (h : Realm.foundRoot (RootId.ofTenant tenant) (w.desk Draft.empty) = .ok () d) :
    w.step (.createRoot tenant) = { w with realm := { w.realm with shared := d.shared } } := by
  simp only [step, Realm.createRoot_eq]
  generalize RootId.ofTenant tenant = root at h ⊢
  have hwork : Realm.foundRoot root ⟨Draft.empty, w.realm.shared⟩ = .ok () d := h
  simp [Realm.request, Realm.work, bind, EStateM.bind, hwork, pure, EStateM.pure]

namespace Orderly

/-- The request for a root finds it or stages it as its only change. -/
theorem insertRoot (h : Orderly roots n m past w) (hroot : roots root) :
    Work.Ends (Actor.insertRoot root) (w.desk Draft.empty) (fun made d =>
      (made = false ∧ (w.desk Draft.empty).Loaded d) ∨
        (made = true ∧ Founding roots n past w root d)) fun _ _ => False := by
  have hcalm : Calm (Draft.empty.setting past w.stored (w.claimed roots root)) n
      (w.desk Draft.empty) :=
    h.calm_empty (Or.imp And.left id)
  have hlook : (w.desk Draft.empty).look root = w.stored.get? root := Desk.look_of_stored rfl rfl
  refine (Desk.read_ends h.agreed root).andThen ?_
  rintro found d ⟨rfl, hl, _⟩
  rw [hlook]
  cases hst : w.stored.get? root with
  | some a => exact .pure (.inl ⟨rfl, hl⟩)
  | none =>
    have hnew : ¬ ∃ p, past p ∧ p.id = root := by
      rintro ⟨p, hp, hid⟩
      obtain ⟨_, a, ha⟩ := h.rooted hp (hid ▸ hroot)
      rw [hid, hst] at ha
      cases ha
    have hd := hcalm.loaded hl
    have hmention : ¬ d.draft.Mentions root := by
      intro hm
      rcases hcalm.mentions_of_loaded hl hm with hcom | ⟨a, ha⟩ | ⟨v, hv⟩
      · exact hnew hcom
      · cases ha
      · cases hv
    have hfresh : Fresh (Draft.empty.setting past w.stored (w.claimed roots root)) n d root := by
      refine ⟨hnew, ?_, hmention, fun hi hn => ?_⟩
      · rintro (⟨_, hne⟩ | ⟨name, hb⟩)
        · exact hne rfl
        · exact h.unrooted hb hroot
      · rw [hl.mint] at hn
        exact h.supply.fresh hi hn (.inr (.inr hroot))
    have hidle : ∀ {id}, ¬ d.draft.Pending id := hl.not_pending
    refine .bind (.modify (.pure (.inr ⟨rfl, {
      absent := hst
      calm := hd.staged hfresh rfl
        (hd.wired.stageNode hd.lineage rfl rfl (fun p => by cases p <;> rfl) hnew hmention)
      typed := fun {id a} ha hz => ?typed
      alone := fun {id} hp => (Draft.pending_of_stage hp).resolve_right hidle
      born := ⟨_, (Draft.stage_copy? ..).trans (if_pos rfl), rfl⟩ }⟩)))
    case typed =>
      rw [Draft.stage_copy?] at ha
      split at ha
      · rename_i hid
        cases ha
        exact ⟨hid, rfl⟩
      · exact absurd (.inl ⟨a, ha, (hd.dated.born ha hz).1⟩) hidle

theorem brings_createRoot (tenant : String) (h : Orderly roots n m past w)
    (hroot : roots (RootId.ofTenant tenant)) :
    (w.brings (.createRoot tenant) = none ∧ ∃ d, (w.desk Draft.empty).Loaded d ∧
      Actor.insertRoot (RootId.ofTenant tenant) (w.desk Draft.empty) = .ok false d) ∨
    ∃ d, w.brings (.createRoot tenant) = some d ∧
      Founding roots n past w (RootId.ofTenant tenant) d ∧
      Actor.insertRoot (RootId.ofTenant tenant) (w.desk Draft.empty) = .ok true d := by
  obtain ⟨made, d, hw, ⟨rfl, hl⟩ | ⟨rfl, hf⟩⟩ := (h.insertRoot hroot).exists_ok
  · exact .inl ⟨by simp [Concourse.brings, hw], d, hl, hw⟩
  · exact .inr ⟨d, by simp [Concourse.brings, hw], hf, hw⟩

theorem createRoot (tenant : String) (h : Orderly roots n (m + 1) past w)
    (hroot : roots (RootId.ofTenant tenant)) :
    Advances roots n m past w (w.sends (.createRoot tenant)) (w.step (.createRoot tenant)) := by
  rcases h.brings_createRoot tenant hroot with ⟨hb, d, hl, hw⟩ | ⟨d, hb, hf, hw⟩
  · have hsends : w.sends (.createRoot tenant) = none := by
      simp [Concourse.sends, hb]
    rw [hsends, Concourse.step_createRoot (Realm.foundRoot_of_found hw)]
    exact .share h hl
  · obtain ⟨_, hsent, receipt, hok⟩ | ⟨hnot, _⟩ := hf.calm.sent
    · have hsends : w.sends (.createRoot tenant) = some d.draft.batch := by
        simp [Concourse.sends, hb, hsent]
      rw [hsends, Concourse.step_createRoot (Realm.foundRoot_of_new hw hok)]
      have hstored : Concourse.stored { w with realm := { w.realm with shared :=
          d.published.shared } } = Vault.overlay w.stored d.draft.batch := by
        rw [show w.stored = d.stored from hf.calm.stored.symm]
        exact Sound.stored_published d
      refine ⟨⟨_, .inl, fun hp => ?_, h.publish hf.calm rfl hf.current
        (fun ha hz _ => (hf.typed ha hz).2) ?_ ?_⟩, hstored, fun {_ s' _} hs' hp =>
        ⟨s', hs', Draft.held_of_pending hp _ _⟩⟩
      · rw [hstored]
        exact hf.calm.dated.newest_of_extends hp
      · intro id hid
        by_cases he : id = RootId.ofTenant tenant
        · exact .inr (he ▸ hf.born.mentions)
        · exact .inl (.inl ⟨hid, he⟩)
      · exact fun {name s} hs => ⟨hs, fun {id} hb => .inr ⟨name, s, hs, hb⟩⟩
    · exact absurd hf.current hnot

/-! ## What is sent -/

/-- Only requests for new roots and sessions bring anything to commit. -/
theorem brings_cases {act : Act} (h : Orderly roots n m past w)
    (hroots : ∀ tenant, act = .createRoot tenant → roots (RootId.ofTenant tenant))
    (hb : w.brings act = some d) :
    (∃ tenant, act = .createRoot tenant ∧ Founding roots n past w (RootId.ofTenant tenant) d) ∨
      ∃ name s, act = .commit name ∧ w.sessions.get? name = some s ∧
        Calm (s.draft.setting past w.stored (w.taken roots name)) n d ∧
        ∃ gone, Desk.evictUnreachable s.root (w.desk s.draft) = .ok gone d := by
  cases act with
  | createRoot tenant =>
    rcases h.brings_createRoot tenant (hroots tenant rfl) with ⟨hnone, _⟩ | ⟨d', hsome, hfound, _⟩
    · rw [hnone] at hb
      cases hb
    · rw [hsome] at hb
      cases hb
      exact .inl ⟨tenant, rfl, hfound⟩
  | commit name =>
    cases hs : w.sessions.get? name with
    | none => simp [Concourse.brings, hs] at hb
    | some s =>
      obtain ⟨d', hsome, hcalm, hgone, _⟩ := h.brings_commit hs
      rw [hsome] at hb
      cases hb
      exact .inr ⟨name, s, rfl, hs, hcalm, hgone⟩
  | _ => cases hb

/-- Whoever brings something to commit is calm. -/
theorem brought {act : Act} (h : Orderly roots n m past w)
    (hroots : ∀ tenant, act = .createRoot tenant → roots (RootId.ofTenant tenant))
    (hb : w.brings act = some d) : ∃ c, c.past = past ∧ c.stored = w.stored ∧ Calm c n d := by
  rcases h.brings_cases hroots hb with ⟨_, _, hfound⟩ | ⟨_, _, _, _, hcalm, _⟩
  · exact ⟨_, rfl, rfl, hfound.calm⟩
  · exact ⟨_, rfl, rfl, hcalm⟩

/-- Whenever something is sent, it is the draft of a calm desk that is
current. -/
theorem sent {act : Act} {batch : Batch} (h : Orderly roots n m past w)
    (hroots : ∀ tenant, act = .createRoot tenant → roots (RootId.ofTenant tenant))
    (hs : w.sends act = some batch) : ∃ d c, w.brings act = some d ∧ batch = d.draft.batch ∧
      c.past = past ∧ c.stored = w.stored ∧ Calm c n d ∧ d.draft.Current w.stored := by
  obtain ⟨d, hb, hd⟩ := Option.bind_eq_some_iff.1 hs
  obtain ⟨c, hp, hst, hcalm⟩ := h.brought hroots hb
  rcases hcalm.sent with ⟨hcur, hsome, _⟩ | ⟨_, hnone, _⟩
  · rw [hd] at hsome
    exact ⟨d, c, hb, Option.some.inj hsome, hp, hst, hcalm, hst ▸ hcur⟩
  · rw [hd] at hnone
    cases hnone

end Orderly

end Wayfarer
