import Wayfarer.Realm
import Wayfarer.Proofs.Tenancy.Gathering

/-!
# What a commit stores

A `Store` is a durable tier that does as it is told. A request of a single
tenant commits what it sees, at later versions: the contents `Matches` the view
(`Desk.Attends.commit`). At the end of a request the tenant's root leads to all
that is stored then (`Desk.Attends.conclude`).
-/

namespace Wayfarer

/-- An object apart from its version and its mark of change. -/
def Anchor.plain (a : Anchor) : Anchor := { a with version := 0, dirty := false }

section Plain

variable {a b : Anchor}

theorem Anchor.owner_of_plain (h : b.plain = a.plain) : b.owner = a.owner :=
  show b.plain.owner = a.plain.owner from h ▸ rfl

theorem Anchor.access_of_plain (h : b.plain = a.plain) : b.access = a.access :=
  show b.plain.access = a.plain.access from h ▸ rfl

theorem Anchor.type_of_plain (h : b.plain = a.plain) : b.type = a.type :=
  show b.plain.type = a.plain.type from h ▸ rfl

end Plain

namespace View

/-- The same objects, perhaps at other versions. -/
def Matches (v v' : View) : Prop := ∀ id, (v' id).map Anchor.plain = (v id).map Anchor.plain

namespace Matches

variable {v v' : View} {root : RootId} {id : ObjectId} {m n : NodeId} {e : EdgeId} {a b : Anchor}

theorem symm (h : v.Matches v') : v'.Matches v := fun id => (h id).symm

theorem seen (h : v.Matches v') (ha : v id = some a) :
    ∃ b, v' id = some b ∧ b.plain = a.plain :=
  Option.map_eq_some_iff.1 ((h id).trans (congrArg (Option.map Anchor.plain) ha))

theorem node (h : v.Matches v') {r : NodeRecord} (ha : NodeIn v n a r) :
    ∃ b, NodeIn v' n b r ∧ b.plain = a.plain := by
  obtain ⟨b, hb, hp⟩ := h.seen ha.1
  exact ⟨b, ⟨hb, (congrArg Anchor.node? hp).trans ha.2⟩, hp⟩

theorem edge (h : v.Matches v') {r : EdgeRecord} (ha : EdgeIn v e a r) :
    ∃ b, EdgeIn v' e b r ∧ b.plain = a.plain := by
  obtain ⟨b, hb, hp⟩ := h.seen ha.1
  exact ⟨b, ⟨hb, (congrArg Anchor.edge? hp).trans ha.2⟩, hp⟩

theorem leads (h : v.Matches v') (hl : v.Leads m n) : v'.Leads m n := by
  obtain ⟨e, a, r, ha, hsource, htarget⟩ := hl
  obtain ⟨b, hb, _⟩ := h.edge ha
  exact ⟨e, b, r, hb, hsource, htarget⟩

theorem orderly (h : v.Matches v') (hv : v.Orderly) : v'.Orderly := by
  refine ⟨⟨fun hb => ?_, fun hb => ?_, fun hb p => ?_, fun hb hin => ?_⟩, fun hb ht => ?_⟩
  · obtain ⟨a, ha, hp⟩ := h.symm.seen hb
    obtain ⟨r, hr⟩ := hv.nodes ha
    exact ⟨r, (congrArg Anchor.node? hp).symm.trans hr⟩
  · obtain ⟨a, ha, hp⟩ := h.symm.seen hb
    obtain ⟨r, hr⟩ := hv.edges ha
    exact ⟨r, (congrArg Anchor.edge? hp).symm.trans hr⟩
  · obtain ⟨a, ha, _⟩ := h.symm.edge hb
    obtain ⟨c, s, hc, hin⟩ := hv.ends ha p
    obtain ⟨x, hx, _⟩ := h.node hc
    exact ⟨x, s, hx, hin⟩
  · obtain ⟨a, ha, _⟩ := h.symm.node hb
    obtain ⟨c, s, hc, hend⟩ := hv.listed ha hin
    obtain ⟨x, hx, _⟩ := h.edge hc
    exact ⟨x, s, hx, hend⟩
  · obtain ⟨a, ha, hp⟩ := h.symm.edge hb
    obtain ⟨c, s, hc, hmir, hown, hacc⟩ := hv.twinned ha ht
    obtain ⟨x, hx, hp'⟩ := h.edge hc
    exact ⟨x, s, hx, hmir,
      (Anchor.owner_of_plain hp').trans (hown.trans (Anchor.owner_of_plain hp)),
      (Anchor.access_of_plain hp').trans (hacc.trans (Anchor.access_of_plain hp))⟩

theorem solitary (h : v.Matches v') (hv : v.Solitary root) : v'.Solitary root := by
  refine ⟨h.orderly hv.toOrderly, fun {b} hb => ?_, fun {n b r} hb => ?_⟩
  · obtain ⟨a, ha, hp⟩ := h.symm.seen hb
    obtain ⟨hty, hown⟩ := hv.home ha
    exact ⟨(Anchor.type_of_plain hp).symm.trans hty, (Anchor.owner_of_plain hp).symm.trans hown⟩
  · obtain ⟨a, ha, hp⟩ := h.symm.node hb
    have hty := Anchor.type_of_plain hp
    have hown := Anchor.owner_of_plain hp
    have hacc := Anchor.access_of_plain hp
    rcases hv.residents ha with ⟨ho, hroot⟩ | ⟨hal, hempty⟩
    · exact .inl ⟨hown ▸ ho, fun hb => hroot (hty.trans hb)⟩
    · exact .inr ⟨⟨hty ▸ hal.type, hown ▸ hal.owner, hacc ▸ hal.access⟩, hempty⟩

theorem gathered (h : v.Matches v') (hv : v.Gathered root) : v'.Gathered root := by
  intro n b hb hty
  obtain ⟨a, ha, hp⟩ := h.symm.seen hb
  rw [← Anchor.type_of_plain hp] at hty
  exact Relation.ReflTransGen.mono (fun _ _ hl => h.leads hl) _ _ (hv ha hty)

end Matches

end View

/-! ## What a draft makes of what is stored -/

namespace Draft.Abreast

variable {content : Table ObjectId Anchor} {d : Draft} {id : ObjectId} {a b : Anchor}

theorem idle_of_clean (hk : d.Keyed) (ha : d.copy? id = some a) (hd : a.dirty = false) :
    ¬ d.Pending id := by
  rintro (⟨b, hb, hbd⟩ | ⟨v, hv⟩)
  · cases ha.symm.trans hb
    cases hd.symm.trans hbd
  · cases ha.symm.trans (hk.apart hv)

/-- After the commit the draft holds copies of what is stored. -/
theorem stored_of_settle (h : d.Abreast content) (hk : d.Keyed)
    (hb : (d.settle d.batch).copy? id = some b) :
    (Vault.overlay content d.batch).get? id = some b := by
  rcases hk.settle_copy? hb with ⟨a, ha, hd, rfl⟩ | ⟨ha, hd⟩
  · exact hk.overlay_of_dirty ha hd
  · exact (hk.overlay_of_idle (idle_of_clean hk ha hd)).trans (h.clean ha hd)

/-- Versions apart, what is stored after the commit is what the request saw. -/
theorem overlay_plain (h : d.Abreast content) (hk : d.Keyed) (id : ObjectId) :
    ((Vault.overlay content d.batch).get? id).map Anchor.plain =
      (d.view content id).map Anchor.plain := by
  cases hv : d.removed? id with
  | some v => rw [Draft.overlay_of_removed hv, Draft.view_of_tombstone hv]
  | none =>
  cases ha : d.copy? id with
  | none =>
    have hp : ¬ d.Pending id := by
      rintro (⟨a, ha', _⟩ | ⟨v, hv'⟩)
      · cases ha.symm.trans ha'
      · cases hv.symm.trans hv'
    rw [hk.overlay_of_idle hp, Draft.view_of_content hv ha]
  | some a =>
    rw [Draft.view_of_volatile hv ha]
    cases hd : a.dirty with
    | true =>
      rw [hk.overlay_of_dirty ha hd]
      rfl
    | false => rw [hk.overlay_of_idle (idle_of_clean hk ha hd), h.clean ha hd]

/-- A commit met its expectations, so no version of what it writes starts again
at zero. -/
theorem roomy (h : d.Abreast content) (hk : d.Keyed)
    (hmet : Batch.conflict? (fun id => (content.get? id).map (·.version))
      d.batch.expectations = none)
    (ha : d.copy? id = some a) (hd : a.dirty = true) : a.version + 1 ≠ 0 := by
  intro hover
  have hz : a.version ≠ 0 := by
    intro hz
    rw [hz] at hover
    cases hover
  obtain ⟨p, hp, hver⟩ := h.based ha hz
  have hmem : (a.committed.id, Batch.expected a.committed.version) ∈ d.batch.expectations :=
    List.mem_append_left _ (List.mem_map.2 ⟨_, Draft.mem_writes.2 ⟨id, a, ha, hd, rfl⟩, rfl⟩)
  have hfound := Batch.conflict?_eq_none.1 hmet _ _ hmem
  rw [hk.own_committed ha, hp, Anchor.committed_version, hover] at hfound
  exact hz (hver.symm.trans hfound)

end Draft.Abreast

/-! ## Durable tiers that can be relied on -/

/-- A durable tier whose states, as long as they are good, hold contents that
can be read, and that a batch changes as a whole if all its expectations are
met, or not at all. -/
structure Store (σ : Type) [Durable σ] where
  holds : σ → Prop
  content : σ → Table ObjectId Anchor
  tidy : ∀ {s id a}, holds s → (content s).get? id = some a → a.id = id ∧ a.dirty = false
  size_le : ∀ {s}, holds s → (content s).size ≤ Durable.size s
  fetch : ∀ {s}, holds s → ∀ id, ∃ s', Durable.fetch id s = .ok ((content s).get? id) s' ∧
    holds s' ∧ content s' = content s
  applied : ∀ {s s' batch u}, holds s → Durable.apply batch s = .ok u s' →
    (holds s' ∧ content s' = Vault.overlay (content s) batch) ∧
      Batch.conflict? (fun id => ((content s).get? id).map (·.version)) batch.expectations = none
  refused : ∀ {s s' batch e}, holds s → Durable.apply batch s = .error e s' →
    holds s' ∧ content s' = content s
  begun : ∀ {s s' epoch}, holds s → Durable.nextEpoch s = .ok epoch s' →
    holds s' ∧ content s' = content s

namespace Store

variable {σ : Type} [Durable σ] (store : Store σ) {s s' : σ}

/-- The contents of a good state, for as long as they stay the same. -/
def tier (hs : store.holds s) : Tier σ where
  content := store.content s
  holds s' := store.holds s' ∧ store.content s' = store.content s
  tidy := store.tidy hs
  fetch := by
    rintro s' ⟨hs', hsame⟩ id
    obtain ⟨s'', hfetch, hs'', hsame'⟩ := store.fetch hs' id
    exact ⟨s'', hsame ▸ hfetch, hs'', hsame'.trans hsame⟩
  size_le := by
    rintro s' ⟨hs', hsame⟩
    exact hsame ▸ store.size_le hs'

/-- What a durable tier holds. -/
def stored (s : σ) : View := fun id => (store.content s).get? id

/-- What a request sees of it. -/
def view (d : Desk σ) : View := fun id =>
  (d.draft.view (store.content d.shared.durable) id).map Anchor.clean

/-- An operation mints new identities only, and the type of the node that it
creates is not the type of roots. Nothing can be created under the name of that
type, so another name would have to share its hash. -/
structure Admits (d : Desk σ) (op : Op) : Prop where
  supply : d.shared.mint.Ample op.mints fun id =>
    d.draft.Mentions id ∨ ∃ a, store.stored d.shared.durable id = some a
  plain : ¬ op.Creates rootType

end Store

namespace Desk

variable {σ : Type} [Durable σ] {store : Store σ} {s : σ} {hs : store.holds s} {root : RootId}
  {d : Desk σ}

theorem commit_store (ho : d.Over (store.tier hs)) :
    Work.Ends commit d (fun _ d' => ∃ s', store.holds s' ∧
        store.content s' = Vault.overlay (store.content s) d.draft.batch ∧
        Batch.conflict? (fun id => ((store.content s).get? id).map (·.version))
          d.draft.batch.expectations = none ∧
        d' = ⟨d.draft.settle d.draft.batch,
          ({ d.shared with durable := s' } : Shared σ).settle d.draft.batch⟩)
      fun _ d' => d'.draft = d.draft ∧ d'.Over (store.tier hs) := by
  obtain ⟨hgood, hsame⟩ := ho.holds
  refine commit_cases (fun he => ?_) (fun s' happly => ?_) fun e s' happly => ?_
  · obtain ⟨hbatch, htomb⟩ := Draft.batch_eq_nil he
    refine ⟨d.shared.durable, hgood, ?_, by rw [hbatch]; rfl, ?_⟩
    · rw [hsame, hbatch]
      rfl
    · rw [hbatch]
      have hdraft : d.draft.settle ⟨[], []⟩ = d.draft := by
        unfold Draft.settle
        rw [← htomb]
        rfl
      rw [hdraft]
      rfl
  · obtain ⟨⟨hs', hcontent⟩, hmet⟩ := store.applied hgood happly
    rw [hsame] at hcontent hmet
    exact ⟨s', hs', hcontent, hmet, rfl⟩
  · obtain ⟨hs', hcontent⟩ := store.refused hgood happly
    exact ⟨rfl, ⟨hs', hcontent.trans hsame⟩, ho.coherent.congr rfl rfl⟩

/-- What a request of a single tenant leaves when it commits: the tier holds
what the request saw, and the draft holds copies of that. -/
structure Deposited (t t' : Tier σ) (d d' : Desk σ) : Prop where
  above : d'.Over t'
  keyed : d'.draft.Keyed
  copies : ∀ {id a}, d'.draft.copy? id = some a → t'.stored id = some a
  cleared : ∀ id, d'.draft.removed? id = none
  same : (d.view t).Matches t'.stored
  positive : ∀ {id a}, t'.stored id = some a → a.version ≠ 0

theorem Sane.commit (h : d.Sane (store.tier hs)) (hb : d.draft.Abreast (store.content s))
    (hpos : ∀ {id a}, (store.tier hs).stored id = some a → a.version ≠ 0) :
    Work.Ends commit d
      (fun _ d' => ∃ s', ∃ hs' : store.holds s', Deposited (store.tier hs) (store.tier hs') d d')
      fun _ d' => d'.draft = d.draft ∧ d'.Over (store.tier hs) := by
  have hk := h.keyed
  refine (commit_store h.above).imp ?_
  rintro _ _ ⟨s', hs', hcontent, hmet, rfl⟩
  have hroom : ∀ {id a}, d.draft.copy? id = some a → a.dirty = true → a.version + 1 ≠ 0 :=
    hb.roomy hk hmet
  have hdur := Shared.settle_durable ({ d.shared with durable := s' } : Shared σ) d.draft.batch
  refine ⟨s', hs', ⟨⟨hdur.symm ▸ hs', congrArg store.content hdur⟩, ?_⟩, hk.settle, fun hcopy => ?_,
    fun _ => rfl, fun id => ?_, fun hst => ?_⟩
  · rw [show (store.tier hs').content = _ from hcontent]
    refine hk.coherent_settle (h.above.coherent.congr rfl rfl) (fun {id a p} ha hd hp => ?_)
      fun hv hp => ?_
    · by_cases hz : a.version = 0
      · cases (h.novel_copy ha hz).symm.trans hp
      · obtain ⟨q, hq, hver⟩ := hb.based ha hz
        cases hq.symm.trans hp
        rw [hver]
        exact UInt64.lt_add_one (hroom ha hd)
    · obtain ⟨q, hq, hver⟩ := hb.buried hv
      cases hq.symm.trans hp
      exact UInt64.le_of_eq hver
  · exact (congrArg (Table.get? · _) hcontent).trans (hb.stored_of_settle hk hcopy)
  · unfold Tier.stored
    rw [show (store.tier hs').content = _ from hcontent, hb.overlay_plain hk, Desk.view,
      Option.map_map]
    rfl
  · rcases hk.of_overlay ((congrArg (Table.get? · _) hcontent).symm.trans hst) with
      ⟨a, ha, hd, rfl⟩ | ⟨_, hold⟩
    · exact hroom ha hd
    · exact hpos hold

/-! ## The end of a request -/

/-- If the tenant's root leads to all that a request sees, it leads to all that
is stored when the request has committed. -/
theorem Deposited.settled {t t' : Tier σ} {d' : Desk σ} (h : Deposited t t' d d')
    (hsol : (d.view t).Solitary root) (hg : (d.view t).Gathered root) : t'.Settled root :=
  ⟨h.same.solitary hsol, h.same.gathered hg, h.positive⟩

/-- A request of the tenant that ends takes what is unreachable out, and then
what it sees is stored. -/
theorem Attends.conclude (h : d.Attends (store.tier hs) root) (ht : (store.tier hs).Settled root) :
    Work.Ends (Desk.conclude root) d
      (fun _ d' => ∃ s', ∃ hs' : store.holds s', (store.tier hs').Settled root ∧
        d'.Attends (store.tier hs') root ∧
        ∀ {n}, (d.view (store.tier hs)).Anchored n →
          ∃ a, (store.tier hs').stored (.node n) = some a)
      fun _ d' => d'.Attends (store.tier hs) root := by
  refine (h.evictUnreachable ht).surely.andThen ?_
  rintro _ d₁ ⟨h₁, hg, hkept⟩
  refine (h₁.sane.commit h₁.abreast ht.positive).mono ?_ fun _ d₂ hd => h₁.share hd.1 hd.2
  rintro _ d₂ ⟨s', hs', hd⟩
  have ht' := hd.settled h₁.solitary hg
  have hhome : ∃ a, (store.tier hs').stored root = some a := by
    obtain ⟨a, ha⟩ := h₁.home
    obtain ⟨b, hb, _⟩ := hd.same.seen ha
    exact ⟨b, hb⟩
  refine ⟨s', hs', ht', ht'.attends hd.above hd.keyed hd.copies hd.cleared hhome, fun hn => ?_⟩
  obtain ⟨a, ha⟩ := hkept hn
  obtain ⟨b, hb, _⟩ := hd.same.seen ha
  exact ⟨b, hb⟩

end Desk

/-! ## New roots -/

namespace View

variable {v : View} {root new : RootId}

/-- A new root changes nothing for the nodes that are there. -/
theorem Solitary.putRoot (h : v.Solitary root) {a : Anchor} {r : NodeRecord} (hn : v new = none)
    (hr : a.node? = some r) (hempty : ∀ p, r.edgesAt p = []) (hty : a.type = rootType)
    (hown : a.owner = new) (hacc : a.access = Access.ownerOnly) :
    (v.put new a).Solitary root := by
  refine ⟨h.toOrderly.putNode hn hr hempty, fun {b} hb => ?_, fun {n b s} hb => ?_⟩
  · unfold put at hb
    split at hb
    · rename_i hroot
      cases hb
      cases new
      cases root
      cases ObjectId.node.inj hroot
      exact ⟨hty, hown⟩
    · exact h.home hb
  · have hb' := hb.1
    unfold put at hb'
    split at hb'
    · rename_i hroot
      cases hb'
      cases hr.symm.trans hb.2
      by_cases hsame : a.owner = root
      · refine .inl ⟨hsame, fun _ => ?_⟩
        exact (ObjectId.node.inj hroot).trans (congrArg RootId.node (hown.symm.trans hsame))
      · exact .inr ⟨⟨hty, hsame, hacc⟩, hempty⟩
    · exact h.residents ⟨hb', hb.2⟩

theorem Gathered.putRoot (h : v.Gathered root) {a : Anchor} (hty : a.type = rootType) :
    (v.put new a).Gathered root := by
  intro n b hb hne
  unfold put at hb
  split at hb
  · cases hb
    exact absurd hty hne
  · refine Relation.ReflTransGen.mono (fun m k hl => ?_) _ _ (h hb hne)
    obtain ⟨e, c, r, hc, hends⟩ := hl
    exact ⟨e, c, r, ⟨(if_neg (by simp)).trans hc.1, hc.2⟩, hends⟩

end View

end Wayfarer
