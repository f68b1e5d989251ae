import Wayfarer.Proofs.Commit.Drafts
import Wayfarer.Proofs.Sound.Removing

/-!
# Twins

An undirected link is kept as two edges, each the twin of the other. They are
made, changed and removed one after another, so it takes an argument that they
never come apart. `Twinned` says that the halves of a link are alike in
everything but their direction, down to the version.

A request may have read the two halves at different times, and by now one of
them may be gone. What holds of its changes is `Desk.Even`: it has changed both
halves or none, and both alike if they were at the same version, unless the link
was withdrawn from the vault in the meantime. That is enough for the commit,
whose check refuses changes to a link that was withdrawn and to halves of
different versions.

* `Desk.Even.halves`: what a request sees of a link.
* `Desk.Even.thin`: it does no harm to take links away.
* `Twinned.commit`: a commit that succeeds writes both halves of a link or none.
* `Twinned.stored`, `Twinned.look`: so the halves are alike in the vault, and
  for a request that holds every edge at the version at which it is stored
  (`Draft.UpToDate`).
-/

namespace Wayfarer

/-- The edge `s` of the anchor `b` is the other half of the undirected link one
half of which is the edge `e`, held with the record `r` by the anchor `a`. -/
structure OtherHalf (e : EdgeId) (a : Anchor) (r : EdgeRecord) (b : Anchor) (s : EdgeRecord) :
    Prop where
  mirrors : s.Mirrors r e
  type : s.type = r.type
  undirected : r.directed = false ∧ s.directed = false
  fields : s.fields = r.fields
  owner : b.owner = a.owner
  access : b.access = a.access

/-- Every edge that has a twin has it beside it: the other half of the same
link, at the same version. -/
def Twinned (edge : EdgeId → Anchor → EdgeRecord → Prop) : Prop :=
  ∀ ⦃e a r t⦄, edge e a r → r.twin = some t →
    ∃ b s, edge t b s ∧ OtherHalf e a r b s ∧ b.version = a.version

/-- An edge that was committed once and is not stored any more. -/
def Desk.Withdrawn (past : Anchor → Prop) (d : Desk Vault) (e : EdgeId) : Prop :=
  (∃ p, past p ∧ p.id = .edge e) ∧ d.stored.get? (.edge e) = none

/-- A request that has changed one half of a link has changed the other one too,
and in the same way if it had the same version, or else the link was
withdrawn. -/
def Desk.Even (past : Anchor → Prop) (d : Desk Vault) : Prop :=
  ∀ ⦃e a r t⦄, EdgeIn d.look e a r → a.dirty = true → r.twin = some t →
    (∃ b s, EdgeIn d.look t b s ∧ b.dirty = true ∧
      (b.version = a.version → OtherHalf e a r b s)) ∨ d.Withdrawn past e

/-- A draft that holds every edge at the version at which it is stored. -/
def Draft.UpToDate (d : Draft) (stored : Table ObjectId Anchor) : Prop :=
  ∀ e : EdgeId, d.held stored (.edge e) = ((stored.get? (.edge e)).map (·.version)).getD 0

variable {c c' : Setting} {n : Nat} {d d' : Desk Vault} {due : EdgeId → Prop} {dead : NodeId → Prop}
  {e t : EdgeId} {id : ObjectId} {a b : Anchor} {r s : EdgeRecord}

namespace OtherHalf

theorem symm (h : OtherHalf e a r b s) (ht : r.twin = some t) : OtherHalf t b s a r := by
  refine ⟨⟨ht, fun p => ?_⟩, h.type.symm, h.undirected.symm, h.fields.symm, h.owner.symm,
    h.access.symm⟩
  rw [h.mirrors.2, Port.flip_flip]

theorem committed (h : OtherHalf e a r b s) : OtherHalf e a.committed r b.committed s :=
  ⟨h.mirrors, h.type, h.undirected, h.fields, h.owner, h.access⟩

/-- Marking both halves as changed. -/
theorem marked (h : OtherHalf e a r b s) :
    OtherHalf e { a with dirty := true } r { b with dirty := true } s :=
  ⟨h.mirrors, h.type, h.undirected, h.fields, h.owner, h.access⟩

end OtherHalf

/-! ## What a request sees -/

/-- What a request sees changed is a copy of its own. -/
theorem Desk.copy?_of_dirty (h : d.shared.Agreed) (ha : d.look id = some a)
    (hdirty : a.dirty = true) : d.draft.copy? id = some a := by
  obtain ⟨_, hcopy | ⟨_, hst⟩⟩ := Desk.look_eq_some ha
  · exact hcopy
  · rw [(h.tidy hst).2] at hdirty
    cases hdirty

namespace Sound

/-- What a request sees unchanged was committed. -/
theorem past_of_clean (h : Sound c n due dead d) (ha : d.look id = some a)
    (hclean : a.dirty = false) :
    c.past a := by
  obtain ⟨_, hcopy | ⟨_, hst⟩⟩ := Desk.look_eq_some ha
  · exact h.dated.clean hcopy hclean
  · rw [h.stored] at hst
    exact (h.chronicle.stored_past hst).1

/-- Only new objects have version zero. -/
theorem version_ne_zero (h : Sound c n due dead d) (ha : d.look id = some a)
    (hcom : c.Committed id) : a.version ≠ 0 := fun hz =>
  (h.dated.born (h.copy?_of_look_zero ha hz) hz).2.1 hcom

/-- The twin of a new edge is new, and it is seen. -/
theorem twin_of_new (h : Calm c n d) (ha : EdgeIn d.look e a r) (hz : a.version = 0)
    (ht : r.twin = some t) : ∃ b s, EdgeIn d.look t b s ∧ b.version = 0 := by
  obtain ⟨b, s, hb, hbz, _⟩ :=
    (h.wired.attached ⟨h.copy?_of_look_zero ha.1 hz, ha.2⟩ hz not_false).2 t ht
  exact ⟨b, s, ⟨h.look_of_copy? hb.1, hb.2⟩, hbz⟩

end Sound

/-- The halves of a link are withdrawn together. -/
theorem Desk.Withdrawn.twin (hd : d.Withdrawn c.past e) (h : Sound c n due dead d)
    (hw : Whole c.stored) (ha : c.WasEdge e a r) (ht : r.twin = some t) : d.Withdrawn c.past t := by
  obtain ⟨b, s, hb, hmir⟩ := h.lineage.twins ha ht
  refine ⟨hb.committed, ?_⟩
  cases hst : d.stored.get? (.edge t) with
  | none => rfl
  | some y =>
    rw [h.stored] at hst
    obtain ⟨u, hu⟩ := (hw.fits hst).2.edge (hw.fits hst).1
    have hy : EdgeIn c.stored.get? t y u := ⟨hst, hu⟩
    have hback : u.twin = some e := (h.lineage.alike (h.chronicle.wasEdge hy) hb).1.trans hmir.1
    obtain ⟨z, q, hz, _⟩ := hw.twins hy hback
    have hgone := hd.2
    rw [h.stored, hz.1] at hgone
    cases hgone

/-- An edge whose twin is out of sight was withdrawn. -/
theorem Sound.withdrawn_of_unseen (h : Calm c n d) (hw : Whole c.stored) (ha : EdgeIn d.look e a r)
    (ht : r.twin = some t) (hn : d.look (.edge t) = none) : d.Withdrawn c.past e := by
  have hv : a.version ≠ 0 := by
    intro hz
    obtain ⟨b, s, hb, _⟩ := h.twin_of_new ha hz ht
    rw [hb.1] at hn
    cases hn
  obtain ⟨x, u, hx, halike⟩ := h.wasEdge_of_look ha.1 ha.2 hv
  obtain ⟨y, w, hy, hmir⟩ := h.lineage.twins hx (halike.1 ▸ ht)
  rcases Desk.look_eq_none_iff.1 hn with hrem | ⟨_, hst⟩
  · -- the request removed the twin, so it removed this half too, unless it is not stored
    obtain ⟨v, hv⟩ := Table.contains_iff.1 hrem
    rcases h.wired.paired hv hy hmir.1 with (⟨v', hv'⟩ | hst) | hf
    · rw [(Desk.look_eq_some ha.1).1] at hv'
      cases hv'
    · exact ⟨hx.committed, h.stored ▸ hst⟩
    · exact hf.elim
  · exact Desk.Withdrawn.twin ⟨hy.committed, hst⟩ h hw hy hmir.1

/-- Halves of a link that are seen at the same version are alike, or the link
was withdrawn. -/
theorem Desk.Even.halves (he : d.Even c.past) (h : Calm c n d) (hw : Whole c.stored)
    (hp : Twinned c.WasEdge) (ha : EdgeIn d.look e a r) (ht : r.twin = some t)
    (hb : EdgeIn d.look t b s) (hv : b.version = a.version) :
    OtherHalf e a r b s ∨ d.Withdrawn c.past e := by
  have hmir : s.Mirrors r e := h.mirrors_of_look ha.1 ha.2 ht hb.1 hb.2
  cases hda : a.dirty with
  | true =>
    rcases he ha hda ht with ⟨b', s', hb', _, hhalf⟩ | hgone
    · obtain ⟨rfl, rfl⟩ := hb.unique hb'
      exact .inl (hhalf hv)
    · exact .inr hgone
  | false =>
    cases hdb : b.dirty with
    | true =>
      rcases he hb hdb hmir.1 with ⟨a', r', ha', hda', _⟩ | hgone
      · rw [(ha.unique ha').1, hda'] at hda
        cases hda
      · obtain ⟨y, u, hy, halike⟩ :=
          h.wasEdge_of_look hb.1 hb.2 (h.version_ne_zero hb.1 hgone.1)
        exact .inr (hgone.twin h hw hy (halike.1.symm.trans hmir.1))
    | false =>
      have hpast := h.past_of_clean ha.1 hda
      have hpast' := h.past_of_clean hb.1 hdb
      obtain ⟨y, u, hy, hhalf, hver⟩ := hp ⟨hpast, h.own_of_look ha.1, ha.2⟩ ht
      have hyb : y = b := h.chronicle.unique hy.1 hpast'
        (hy.2.1.trans (h.own_of_look hb.1).symm) (hver.trans hv.symm)
      subst hyb
      have hus : u = s := by simpa [hy.2.2] using hb.2
      exact .inl (hus ▸ hhalf)

/-! ## Taking links away -/

/-- A request that sees some of the edges that it saw before, and no others,
still has changed both halves of a link or none. -/
theorem Desk.Even.thin (he : d.Even c.past) (h' : Calm c n d') (hw : Whole c.stored)
    (hst : d'.stored = d.stored)
    (hedges : ∀ e, d'.look (.edge e) = d.look (.edge e) ∨ d'.look (.edge e) = none) :
    d'.Even c.past := by
  have hkept : ∀ {e a r}, EdgeIn d'.look e a r → EdgeIn d.look e a r := by
    rintro e a r ⟨ha, hr⟩
    rcases hedges e with hsame | hnone
    · exact ⟨hsame ▸ ha, hr⟩
    · rw [hnone] at ha
      cases ha
  intro e a r t ha hdirty ht
  rcases he (hkept ha) hdirty ht with ⟨b, s, hb, hdb, hhalf⟩ | hgone
  · rcases hedges t with hsame | hnone
    · exact .inl ⟨b, s, ⟨hsame.trans hb.1, hb.2⟩, hdb, hhalf⟩
    · exact .inr (h'.withdrawn_of_unseen hw ha ht hnone)
  · refine .inr ⟨hgone.1, ?_⟩
    rw [hst]
    exact hgone.2

/-- A request that has changed no edge is even. -/
theorem Desk.Even.of_idle {past : Anchor → Prop} (h : d.shared.Agreed)
    (hidle : ∀ e : EdgeId, ¬ d.draft.Pending (.edge e)) : d.Even past := fun e a _ _ ha hdirty =>
  absurd (.inl ⟨a, Desk.copy?_of_dirty h ha.1 hdirty, hdirty⟩) (hidle e)

/-- A request stays even when others commit, as long as its own changes are the
same. -/
theorem Desk.Even.follow {past past' : Anchor → Prop} (he : d.Even past) (h : d.shared.Agreed)
    (h' : d'.shared.Agreed)
    (hcopy : ∀ {id a}, a.dirty = true → (d'.draft.copy? id = some a ↔ d.draft.copy? id = some a))
    (hrem : ∀ id, d'.draft.removed? id = d.draft.removed? id)
    (hgone : ∀ {e}, d.Withdrawn past e → d'.Withdrawn past' e) : d'.Even past' := by
  have hlook : ∀ {e a r}, a.dirty = true → (EdgeIn d'.look e a r ↔ EdgeIn d.look e a r) := by
    refine fun hdirty => and_congr ⟨fun ha => ?_, fun ha => ?_⟩ Iff.rfl
    · exact Desk.look_of_volatile ((hrem _).symm.trans (Desk.look_eq_some ha).1)
        ((hcopy hdirty).1 (Desk.copy?_of_dirty h' ha hdirty))
    · exact Desk.look_of_volatile ((hrem _).trans (Desk.look_eq_some ha).1)
        ((hcopy hdirty).2 (Desk.copy?_of_dirty h ha hdirty))
  intro e a r t ha hdirty ht
  rcases he ((hlook hdirty).1 ha) hdirty ht with ⟨b, s, hb, hdb, hhalf⟩ | hg
  · exact .inl ⟨b, s, (hlook hdb).2 hb, hdb, hhalf⟩
  · exact .inr (hgone hg)

/-! ## Halves in the vault -/

/-- If halves of the same version have always been alike, then those that are
stored now are of the same version. -/
theorem Twinned.stored (hp : Twinned c.WasEdge) (hc : Chronicle c.past c.stored)
    (hw : Whole c.stored) : Twinned (EdgeIn c.stored.get?) := by
  intro e a r t ha ht
  obtain ⟨b, s, hb, hhalf, hver⟩ := hp (hc.wasEdge ha) ht
  obtain ⟨y, u, hy, hmir⟩ := hw.twins ha ht
  obtain ⟨z, v, hz, _, hver'⟩ := hp (hc.wasEdge hy) hmir.1
  -- each half had a twin of its own version, and neither is stored at an older one
  have hle : b.version ≤ y.version := hc.newest (hb.2.1 ▸ hy.1) hb.1
  have hle' : z.version ≤ a.version := hc.newest (hz.2.1 ▸ ha.1) hz.1
  have hyv : y.version = b.version :=
    UInt64.le_antisymm (hver'.symm ▸ hver ▸ hle') hle
  have hyb : y = b := hc.unique (hc.wasEdge hy).1 hb.1 ((hc.wasEdge hy).2.1.trans hb.2.1.symm) hyv
  subst hyb
  have hus : u = s := by simpa [hy.2] using hb.2.2
  exact ⟨y, u, hy, hus ▸ hhalf, hver⟩

/-! ## Commits -/

section Commit

variable (h : Calm c n d) (hw : Whole c.stored) (hp : Twinned c.WasEdge)

include h hw hp in
/-- In a current draft changed halves of a link have the same version. -/
theorem Sound.version_of_twin (hcur : d.draft.Current c.stored) (ha : EdgeIn d.draft.copy? e a r)
    (hda : a.dirty = true) (ht : r.twin = some t) (hb : EdgeIn d.draft.copy? t b s)
    (hdb : b.dirty = true) : b.version = a.version := by
  by_cases hz : a.version = 0
  · obtain ⟨b', s', hb', hbz, _⟩ := (h.wired.attached ha hz not_false).2 t ht
    rw [(hb.unique hb').1, hbz, hz]
  · obtain ⟨p, hstored, hver⟩ := h.dated.base_of_dirty h.chronicle hcur ha.1 hda hz
    obtain ⟨q, hq⟩ := (hw.fits hstored).2.edge (hw.fits hstored).1
    have hold : EdgeIn c.stored.get? e p q := ⟨hstored, hq⟩
    have htwin : q.twin = some t :=
      (h.wired.alike ha (h.chronicle.wasEdge hold)).1.symm.trans ht
    obtain ⟨y, u, hy, _, hsame⟩ := hp.stored h.chronicle hw hold htwin
    rw [← h.dated.keyed.version_of_dirty hcur hb.1 hdb hy.1, hsame, hver]

include h hw hp in
/-- A commit that succeeds has changed both halves of a link alike, or none. -/
theorem Twinned.commit (he : d.Even c.past) (hcur : d.draft.Current c.stored)
    (hc' : Chronicle c'.past c'.stored) (hpast : ∀ {p}, c.past p → c'.past p)
    (hnew : ∀ {p}, c'.past p → c.past p ∨ c'.stored.get? p.id = some p)
    (hst : c'.stored = Vault.overlay c.stored d.draft.batch) : Twinned c'.WasEdge := by
  rintro e a r t ⟨ha, hid, hr⟩ ht
  have hold : c.past a → ∃ b s, c'.WasEdge t b s ∧ OtherHalf e a r b s ∧ b.version = a.version := by
    intro ha
    obtain ⟨b, s, hb, hhalf⟩ := hp ⟨ha, hid, hr⟩ ht
    exact ⟨b, s, ⟨hpast hb.1, hb.2⟩, hhalf⟩
  rcases hnew ha with ha | hstored
  · exact hold ha
  rw [hst] at hstored
  rcases h.dated.keyed.of_overlay hstored with ⟨x, hx, hdirty, rfl⟩ | ⟨_, hkept⟩
  · have hcopy : EdgeIn d.draft.copy? e x r := ⟨hid ▸ hx, hr⟩
    have hcommitted : ∀ {i y}, d.draft.copy? i = some y → y.dirty = true → c'.past y.committed := by
      intro i y hy hdy
      have := h.dated.keyed.overlay_of_dirty (t := c.stored) hy hdy
      exact (hc'.stored_past (hst ▸ this)).1
    rcases he ⟨h.look_of_copy? hcopy.1, hr⟩ hdirty ht with ⟨b, s, hb, hdb, hhalf⟩ | hgone
    · have hb' : EdgeIn d.draft.copy? t b s := ⟨Desk.copy?_of_dirty h.agreed hb.1 hdb, hb.2⟩
      have hver := h.version_of_twin hw hp hcur hcopy hdirty ht hb' hdb
      refine ⟨b.committed, s, ⟨hcommitted hb'.1 hdb, h.dated.keyed.own_committed hb'.1, hb.2⟩,
        (hhalf hver).committed, ?_⟩
      rw [Anchor.committed_version, Anchor.committed_version, hver]
    · -- a change to a link that was withdrawn is not current
      have hz := h.version_ne_zero (h.look_of_copy? hcopy.1) hgone.1
      obtain ⟨p, hold, _⟩ := h.dated.base_of_dirty h.chronicle hcur hcopy.1 hdirty hz
      rw [← h.stored, hgone.2] at hold
      cases hold
  · exact hold (h.chronicle.stored_past hkept).1

end Commit

/-! ## Requests that are up to date -/

/-- A committed edge that a request sees is stored at the version at which it is
seen. -/
theorem Draft.UpToDate.stored (hab : d.draft.UpToDate c.stored) (h : Calm c n d)
    (ha : d.look (.edge e) = some a) (hv : a.version ≠ 0) :
    ∃ b, c.stored.get? (.edge e) = some b ∧ b.version = a.version := by
  obtain ⟨hrem, hcopy | ⟨_, hst⟩⟩ := Desk.look_eq_some ha
  · have hheld := hab e
    rw [h.dated.keyed.held_of_copy hcopy] at hheld
    cases hst : c.stored.get? (.edge e) with
    | none =>
      rw [hst] at hheld
      exact absurd hheld hv
    | some b =>
      rw [hst] at hheld
      exact ⟨b, rfl, hheld.symm⟩
  · rw [h.stored] at hst
    exact ⟨a, hst, rfl⟩

/-- A request that is up to date sees the halves of every link alike. -/
theorem Twinned.look (hp : Twinned c.WasEdge) (h : Calm c n d) (hw : Whole c.stored)
    (he : d.Even c.past) (hab : d.draft.UpToDate c.stored) : Twinned (EdgeIn d.look) := by
  intro e a r t ha ht
  have hthere : ¬ d.Withdrawn c.past e := by
    intro hgone
    obtain ⟨b, hb, _⟩ := hab.stored h ha.1 (h.version_ne_zero ha.1 hgone.1)
    rw [← h.stored, hgone.2] at hb
    cases hb
  cases hb : d.look (.edge t) with
  | none => exact absurd (h.withdrawn_of_unseen hw ha ht hb) hthere
  | some b =>
    obtain ⟨s, hs⟩ := h.edge_of_look hb
    have hmir : s.Mirrors r e := h.mirrors_of_look ha.1 ha.2 ht hb hs
    have hver : b.version = a.version := by
      by_cases hz : a.version = 0
      · obtain ⟨b', s', hb', hbz⟩ := h.twin_of_new ha hz ht
        rw [(hb'.unique ⟨hb, hs⟩).1] at hbz
        rw [hbz, hz]
      by_cases hzb : b.version = 0
      · obtain ⟨a', r', ha', haz⟩ := h.twin_of_new ⟨hb, hs⟩ hzb hmir.1
        rw [(ha'.unique ha).1] at haz
        exact absurd haz hz
      obtain ⟨p, hst, hpv⟩ := hab.stored h ha.1 hz
      obtain ⟨q, hq⟩ := (hw.fits hst).2.edge (hw.fits hst).1
      obtain ⟨x, u, hx, halike⟩ := h.wasEdge_of_look ha.1 ha.2 hz
      have htwin : q.twin = some t :=
        (h.lineage.alike (h.chronicle.wasEdge ⟨hst, hq⟩) hx).1.trans (halike.1.symm.trans ht)
      obtain ⟨y, v, hy, _, hsame⟩ := hp.stored h.chronicle hw ⟨hst, hq⟩ htwin
      obtain ⟨z, hstz, hzv⟩ := hab.stored h hb hzb
      rw [hy.1] at hstz
      cases hstz
      rw [← hzv, hsame, hpv]
    exact ⟨b, s, ⟨hb, hs⟩, (he.halves h hw hp ha ht ⟨hb, hs⟩ hver).resolve_right hthere, hver⟩

/-- A request that has loaded nothing is up to date. -/
theorem Draft.UpToDate.empty (stored : Table ObjectId Anchor) : Draft.empty.UpToDate stored := by
  intro e
  change (stored.get? (.edge e)).elim 0 Anchor.version = _
  cases stored.get? (.edge e) <;> rfl

/-- A request that is up to date still is when it has dropped what it had only
loaded. -/
theorem Draft.UpToDate.evict {draft : Draft} {stored : Table ObjectId Anchor}
    (hab : draft.UpToDate stored) (h : Dated c draft) : draft.evictVolatile.UpToDate stored := by
  intro e
  have hheld := hab e
  unfold Draft.held at hheld ⊢
  rw [show draft.evictVolatile.removed? (.edge e) = draft.removed? (.edge e) from rfl,
    Draft.evictVolatile_copy?]
  cases hcopy : draft.copy? (.edge e) with
  | none =>
    rw [hcopy] at hheld
    exact hheld
  | some a =>
    rw [h.keyed.removed?_of_copy? hcopy, hcopy] at hheld
    rw [h.keyed.removed?_of_copy? hcopy, Option.filter_some]
    cases a.dirty with
    | true => exact hheld
    | false => cases stored.get? (.edge e) <;> rfl

/-- A request that is up to date still is when it has committed. -/
theorem Draft.UpToDate.settle (hab : d.draft.UpToDate c.stored) (h : Calm c n d) :
    (d.draft.settle d.draft.batch).UpToDate (Vault.overlay c.stored d.draft.batch) := by
  intro e
  unfold Draft.held
  rw [Draft.settle_removed?]
  cases hb : (d.draft.settle d.draft.batch).copy? (.edge e) with
  | none => cases (Vault.overlay c.stored d.draft.batch).get? (.edge e) <;> rfl
  | some b =>
    rcases h.dated.keyed.settle_copy? hb with ⟨a, ha, hdirty, rfl⟩ | ⟨hcopy, hclean⟩
    · rw [h.dated.keyed.overlay_of_dirty ha hdirty]
      rfl
    · have hidle : ¬ d.draft.Pending (.edge e) := by
        rintro (⟨x, hx, hdirty⟩ | ⟨v, hv⟩)
        · rw [hcopy] at hx
          cases hx
          rw [hdirty] at hclean
          cases hclean
        · rw [h.dated.keyed.removed?_of_copy? hcopy] at hv
          cases hv
      rw [h.dated.keyed.overlay_of_idle hidle, ← hab e, h.dated.keyed.held_of_copy hcopy]
      rfl

end Wayfarer
