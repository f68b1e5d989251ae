import Wayfarer.Proofs.Commit.Drafts
import Wayfarer.Proofs.Confinement.Operations

/-!
# One tenant

A realm in which a single tenant works. Others may have roots in it, but they
have done nothing with them: a `View` like that is `Solitary`. Requests of the
tenant keep it so, since whatever they create is the tenant's own and nobody
else's root lets them near.

`Desk.Attends` is what holds of a request of the tenant between any two
operations. Apart from what it sees, it says that the draft is `Abreast` of the
tier: no other request has committed since.
-/

namespace Wayfarer

/-- The root of a tenant who keeps it to themselves. -/
structure Anchor.Aloof (a : Anchor) (root : RootId) : Prop where
  type : a.type = rootType
  owner : a.owner ≠ root
  access : a.access = Access.ownerOnly

namespace View

/-- All nodes are the tenant's, with one root among them, or bare roots of
others. -/
structure Solitary (v : View) (root : RootId) : Prop extends Orderly v where
  home : ∀ {a}, v root = some a → a.type = rootType ∧ a.owner = root
  residents : ∀ {n a r}, NodeIn v n a r → (a.owner = root ∧ (a.type = rootType → n = root.node)) ∨
    (a.Aloof root ∧ ∀ p, r.edgesAt p = [])

/-- The tenant's root leads to every node that is no root itself. -/
def Gathered (v : View) (root : RootId) : Prop :=
  ∀ {n a}, v (.node n) = some a → a.type ≠ rootType → Relation.ReflTransGen v.Leads root.node n

variable {v v' : View} {root : RootId} {n : NodeId} {a : Anchor}

namespace Solitary

theorem owned (h : v.Solitary root) (ha : v (.node n) = some a) (hty : a.type ≠ rootType) :
    v.Owned root n := by
  obtain ⟨r, hr⟩ := h.nodes ha
  rcases h.residents ⟨ha, hr⟩ with ⟨hown, _⟩ | ⟨hal, _⟩
  · exact ⟨a, ha, hown, hty⟩
  · exact absurd hal.type hty

/-- A root that leads anywhere but to itself is the tenant's. -/
theorem leads_of_anchored (h : v.Solitary root) (hn : v.Anchored n) (ha : v (.node n) = some a)
    (hty : a.type ≠ rootType) : Relation.ReflTransGen v.Leads root.node n := by
  obtain ⟨m, b, hb, hroot, hpath⟩ := hn
  obtain ⟨s, hs⟩ := h.nodes hb
  rcases h.residents ⟨hb, hs⟩ with ⟨_, hm⟩ | ⟨_, hempty⟩
  · exact hm hroot ▸ hpath
  rcases Relation.ReflTransGen.cases_head hpath with rfl | ⟨k, ⟨e, c, r, hc, rfl, _⟩, _⟩
  · cases hb.symm.trans ha
    exact absurd hroot hty
  · have hin := (h.listed_iff (p := .out) ⟨hb, hs⟩).2 ⟨c, r, hc, rfl⟩
    rw [hempty] at hin
    cases hin

theorem anchored_of_leads (h : v.Solitary root) (hhome : v root = some a)
    (hpath : Relation.ReflTransGen v.Leads root.node n) : v.Anchored n :=
  ⟨root.node, a, hhome, (h.home hhome).1, hpath⟩

/-- What the tenant may do keeps a view solitary, if it creates no roots. -/
theorem confined (h : v.Solitary root) (hhome : v root = some a) (hv' : v'.Orderly)
    (hc : v.Confined root v')
    (hs : ∀ {n b}, v (.node n) = none → v' (.node n) = some b → b.type ≠ rootType) :
    v'.Solitary root := by
  refine ⟨hv', fun {b} hb => ?_, fun {n b s} hb => ?_⟩
  · have hp := hc.persists hhome hb
    obtain ⟨hty, hown⟩ := h.home hhome
    exact ⟨hp.type.trans hty, hp.owner.trans hown⟩
  cases ha : v (.node n) with
  | none => exact .inl ⟨(hc.fresh ha hb.1).1, fun hty => absurd hty (hs ha hb.1)⟩
  | some c =>
    have hp := hc.persists ha hb.1
    obtain ⟨r, hr⟩ := h.nodes ha
    rcases h.residents ⟨ha, hr⟩ with ⟨hown, hroot⟩ | ⟨hal, hempty⟩
    · exact .inl ⟨hp.owner.trans hown, fun hty => hroot (hp.type.symm.trans hty)⟩
    have hnone : c.effective root = none := by
      unfold Anchor.effective
      rw [if_neg hal.owner, hal.access]
      rfl
    have hacc : b.access = c.access := by
      by_contra hne
      rw [hc.edits ha hb.1 (.inr hne)] at hnone
      cases hnone
    refine .inr ⟨⟨hp.type.trans hal.type, hp.owner ▸ hal.owner, hacc.trans hal.access⟩, fun p => ?_⟩
    by_contra hne
    have hlists : ∃ p, s.edgesAt p ≠ r.edgesAt p := ⟨p, fun heq => hne (heq.trans (hempty p))⟩
    rcases hc.lists ⟨ha, hr⟩ hb hlists with hperm | ⟨_, _, hfilter⟩
    · rw [Anchor.permits, hnone] at hperm
      cases hperm
    · rw [hfilter, hempty] at hne
      exact hne rfl

end Solitary

end View

/-! ## Drafts that nobody has overtaken -/

/-- A draft whose copies tell what is stored: an unchanged copy is what is
stored, and whatever was changed or removed is stored at the version at which
the request took it up. -/
structure Draft.Abreast (content : Table ObjectId Anchor) (d : Draft) : Prop where
  clean : ∀ {id a}, d.copy? id = some a → a.dirty = false → content.get? id = some a
  based : ∀ {id a}, d.copy? id = some a → a.version ≠ 0 →
    ∃ p, content.get? id = some p ∧ p.version = a.version
  buried : ∀ {id v}, d.removed? id = some v → ∃ p, content.get? id = some p ∧ p.version = v

/-- What a tier holds, seen as a view. -/
def Tier.stored {σ : Type} [Durable σ] (t : Tier σ) : View := fun id => t.content.get? id

namespace Draft.Abreast

variable {content : Table ObjectId Anchor} {d : Draft}

/-- A draft that holds nothing but copies of what is stored. -/
theorem of_copies (h : ∀ {id a}, d.copy? id = some a → content.get? id = some a)
    (hr : ∀ id, d.removed? id = none) : d.Abreast content :=
  ⟨fun ha _ => h ha, fun ha _ => ⟨_, h ha, rfl⟩, fun {id _} hv => by cases (hr id).symm.trans hv⟩

theorem evict (h : d.Abreast content) : d.evictVolatile.Abreast content :=
  ⟨fun ha => h.clean (Draft.copy?_of_evictVolatile ha).1,
    fun ha => h.based (Draft.copy?_of_evictVolatile ha).1, h.buried⟩

theorem stage (h : d.Abreast content) {a : Anchor} (hz : a.version = 0) :
    (d.stage a).Abreast content := by
  refine ⟨fun {j x} hx hclean => ?_, fun {j x} hx hver => ?_, fun {j v} hv => ?_⟩
  · rw [Draft.stage_copy?] at hx
    split at hx
    · cases hx
      cases hclean
    · exact h.clean hx hclean
  · rw [Draft.stage_copy?] at hx
    split at hx
    · cases hx
      exact absurd hz hver
    · exact h.based hx hver
  · rw [Draft.stage_removed?] at hv
    split at hv
    · cases hv
    · exact h.buried hv

end Draft.Abreast

namespace Desk

variable {σ : Type} [Durable σ] {t : Tier σ} {root : RootId} {d d' : Desk σ} {n k : Nat}
  {id : ObjectId} {a b : Anchor} {types : TypeId → Prop}

theorem Steps.abreast (h : Steps t d n d') (hd : d.draft.Abreast t.content) :
    d'.draft.Abreast t.content := by
  -- a step either keeps a copy or makes one from what is stored
  induction h with
  | refl => exact hd
  | fetched _ hf ih =>
    refine ⟨fun {id a} ha hclean => ?_, fun {id a} ha hz => ?_, fun {id v} hv => ?_⟩
    · rcases hf.volatile id with hv | ⟨_, _, b, hb, hv⟩
      · exact ih.clean (hv.symm.trans ha) hclean
      · cases hv.symm.trans ha
        exact hb
    · rcases hf.volatile id with hv | ⟨_, _, b, hb, hv⟩
      · exact ih.based (hv.symm.trans ha) hz
      · cases hv.symm.trans ha
        exact ⟨_, hb, rfl⟩
    · rw [Draft.removed?, hf.tombstones] at hv
      exact ih.buried hv
  | edited _ ha _ hver hdirty ih =>
    refine ⟨fun {j x} hx hclean => ?_, fun {j x} hx hz => ?_, ih.buried⟩
    · rw [keep_copy?] at hx
      split at hx
      · cases hx
        cases hdirty.symm.trans hclean
      · exact ih.clean hx hclean
    · rw [keep_copy?] at hx
      split at hx
      · rename_i hj
        cases hx
        rw [hver] at hz ⊢
        exact hj ▸ ih.based ha hz
      · exact ih.based hx hz
  | buried _ ha ih =>
    refine ⟨fun {j x} hx => ?_, fun {j x} hx => ?_, fun {j v} hv => ?_⟩
    · rw [bury_copy?] at hx
      split at hx
      · cases hx
      · exact ih.clean hx
    · rw [bury_copy?] at hx
      split at hx
      · cases hx
      · exact ih.based hx
    · rw [bury_removed?] at hv
      split at hv
      · rename_i hj
        cases hv
        exact hj.1 ▸ ih.based ha hj.2
      · exact ih.buried hv
  | minted _ ih => exact ih
  | staged _ hz _ _ ih => exact ih.stage hz

/-- What is stored but has disappeared does not come back. -/
theorem Steps.gone (h : Steps t d n d') (hs : d.Sane t) (hst : t.stored id = some a)
    (hid : d.view t id = none) : d'.view t id = none := by
  induction h with
  | refl => exact hid
  | fetched _ hf ih => rw [hf.same_view, ih]
  | @edited _ d₁ j x y h ha _ _ _ ih =>
    have hr := (h.sane hs).keyed.removed?_of_copy? ha
    rw [view_keep hr, View.put, if_neg, ih]
    rintro rfl
    cases ih.symm.trans (view_of_copy? hr ha)
  | @buried _ d₁ j x h ha ih =>
    have hr := (h.sane hs).keyed.removed?_of_copy? ha
    rw [view_bury hr ha, (h.sane hs).view_reveal, View.erase]
    split
    · rfl
    · exact ih
  | minted _ ih => exact ih
  | @staged _ d₁ x h _ _ hnew ih =>
    rw [view_staged, View.put, if_neg, ih]
    rintro rfl
    exact hnew (.inr ⟨a, hst⟩)

/-! ## Drafts without changes -/

theorem clean_stored (ha : t.stored id = some a) : a.clean = a :=
  Shared.clean_of_not_dirty (t.tidy ha).2

/-- A request whose copies are all of what is stored sees what is stored. -/
theorem view_of_copies (h : ∀ {id a}, d.draft.copy? id = some a → t.stored id = some a)
    (hr : ∀ id, d.draft.removed? id = none) : d.view t = t.stored := by
  funext id
  have hview : d.draft.view t.content id = t.stored id := by
    cases ha : d.draft.copy? id with
    | none => exact Draft.view_of_content (hr id) ha
    | some a => exact (Draft.view_of_volatile (hr id) ha).trans (h ha).symm
  unfold view
  rw [hview]
  cases ha : t.stored id with
  | none => rfl
  | some a => exact congrArg some (clean_stored ha)

/-- Dropping clean copies does not change what is seen of a tier that the draft
is abreast of. -/
theorem view_evict (h : d.draft.Abreast t.content) (hk : d.draft.Keyed) :
    ({ d with draft := d.draft.evictVolatile } : Desk σ).view t = d.view t := by
  funext id
  refine congrArg (Option.map Anchor.clean) ?_
  cases ha : d.draft.copy? id with
  | none =>
    refine Draft.view_congr ?_ rfl
    rw [show d.draft.evictVolatile.volatile.get? id = _ from Draft.evictVolatile_copy? .., ha]
    exact ha.symm
  | some a =>
    cases hd : a.dirty with
    | true => exact Draft.view_congr ((Draft.evictVolatile_of_dirty ha hd).trans ha.symm) rfl
    | false =>
      have hr := hk.removed?_of_copy? ha
      have hdrop : d.draft.evictVolatile.copy? id = none := by
        rw [Draft.evictVolatile_copy?, ha]
        simp [hd]
      rw [Draft.view_of_volatile hr ha]
      exact (Draft.view_of_content (d := d.draft.evictVolatile) hr hdrop).trans (h.clean ha hd)

end Desk

/-! ## Requests of the tenant -/

/-- What one tenant has stored: every node is led to by the tenant's root, and
every object counts its commits from one. -/
structure Tier.Settled {σ : Type} [Durable σ] (t : Tier σ) (root : RootId) : Prop where
  solitary : t.stored.Solitary root
  gathered : t.stored.Gathered root
  positive : ∀ {id a}, t.stored id = some a → a.version ≠ 0

/-- A request of the tenant between two operations. -/
structure Desk.Attends {σ : Type} [Durable σ] (t : Tier σ) (root : RootId) (d : Desk σ) : Prop where
  sane : d.Sane t
  abreast : d.draft.Abreast t.content
  solitary : (d.view t).Solitary root
  home : ∃ a, d.view t root = some a
  persists : ∀ {id a b}, t.stored id = some a → d.view t id = some b → a.Persists b

variable {σ : Type} [Durable σ] {t : Tier σ} {root : RootId} {d d' : Desk σ} {k : Nat} {op : Op}
  {actor : Actor} {types : TypeId → Prop}

/-- A request that holds nothing but copies of what is stored. -/
theorem Tier.Settled.attends (ht : t.Settled root) (ho : d.Over t)
    (hk : d.draft.Keyed) (h : ∀ {id a}, d.draft.copy? id = some a → t.stored id = some a)
    (hr : ∀ id, d.draft.removed? id = none) (hhome : ∃ a, t.stored root = some a) :
    d.Attends t root := by
  have hview : d.view t = t.stored := Desk.view_of_copies h hr
  refine ⟨⟨ho, hk, fun ha hz => ?_⟩, .of_copies h hr, hview ▸ ht.solitary, hview ▸ hhome,
    fun ha hb => ?_⟩
  · rw [hview] at ha
    exact absurd hz (ht.positive ha)
  · rw [hview] at hb
    cases ha.symm.trans hb
    exact .refl _

namespace Desk.Attends

/-- Work that obeys leaves a request of the tenant in order, if it creates no
roots. -/
theorem obeys (h : d.Attends t root) (hob : d.Obeys t root k types d') (ht : ¬ types rootType) :
    d'.Attends t root := by
  obtain ⟨n, _, hsteps⟩ := hob.steps
  obtain ⟨a, ha⟩ := h.home
  refine ⟨hob.sane, hsteps.abreast h.abreast, h.solitary.confined ha hob.orderly hob.confined
    fun hn hb hty => ht (hty ▸ hob.sprouts hn hb), ?_, fun {id b c} hb hc => ?_⟩
  · cases hb : d'.view t root with
    | some b => exact ⟨b, rfl⟩
    | none => exact absurd (h.solitary.home ha).1 (hob.confined.nodes ha hb).2
  · cases hm : d.view t id with
    | none => cases (hsteps.gone h.sane hb hm).symm.trans hc
    | some m => exact (h.persists hb hm).trans (hob.confined.persists hm hc)

theorem fetched (h : d.Attends t root) (hf : Fetched t d d') : d'.Attends t root :=
  have hob : d.Obeys t root 0 (fun _ => False) d' :=
    ((Reached.refl h.sane).fetched hf).idle h.solitary.toOrderly
  h.obeys hob id

/-- Reading keeps a request in order. -/
theorem reads {α : Type} {w : Work σ α} (hw : Reads w) : Work.Keeps (Attends t root) w :=
  fun _ h => (hw.fetched h.sane.above).mono (fun _ _ hf => h.fetched hf) fun _ _ hf => h.fetched hf

/-- So does every operation, whether it succeeds or fails, if it mints new
identities only and does not create a root. -/
theorem perform (h : d.Attends t root) (ha : actor.requester = root)
    (hs : d.shared.mint.Ample op.mints (d.Knows t)) (hp : ¬ op.Creates rootType) :
    Work.Ends (op.run actor) d (fun _ d' => d'.Attends t root) fun _ d' => d'.Attends t root := by
  subst ha
  exact (h.sane.perform h.solitary.toOrderly op actor hs).mono
    (fun _ _ hob => h.obeys hob hp) fun _ _ hob => h.obeys hob hp

/-- What happens to the shared tiers in the meantime does not matter, as long as
the durable tier holds the same. -/
theorem share (h : d.Attends t root) (hd : d'.draft = d.draft) (ho : d'.Over t) :
    d'.Attends t root := by
  have hview : d'.view t = d.view t := by
    funext id
    unfold view
    rw [hd]
  refine ⟨⟨ho, hd ▸ h.sane.keyed, hview ▸ h.sane.novel⟩, hd ▸ h.abreast, hview ▸ h.solitary,
    hview ▸ h.home, hview ▸ h.persists⟩

theorem evict (h : d.Attends t root) :
    ({ d with draft := d.draft.evictVolatile } : Desk σ).Attends t root := by
  have hview := view_evict h.abreast h.sane.keyed
  exact ⟨⟨⟨h.sane.above.holds, h.sane.above.coherent⟩, h.sane.keyed.evict, hview ▸ h.sane.novel⟩,
    h.abreast.evict, hview ▸ h.solitary, hview ▸ h.home, hview ▸ h.persists⟩

end Desk.Attends

end Wayfarer
