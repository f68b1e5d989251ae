import Wayfarer.Proofs.Commit

/-!
# Integrity across commits

Committing a current draft keeps the vault whole (`Whole.commit`), and the laws
of committed anchors go on to hold (`Chronicle.commit`, `Lineage.commit`).
-/

namespace Wayfarer

variable {c c' : Setting} {due : EdgeId → Prop} {dead : NodeId → Prop} {d : Draft}

/-- The anchors committed so far, with those that a draft writes. -/
def Draft.extends (d : Draft) (past : Anchor → Prop) (p : Anchor) : Prop := past p ∨ p ∈ d.writes

/-! ## A whole vault stays whole -/

section Whole

variable (hc : Chronicle c.past c.stored) (hl : Lineage c) (hd : Dated c d)
  (hw : Wired c (fun _ => False) (fun _ => False) d) (hcur : d.Current c.stored)

include hc in
theorem Chronicle.wasNode {n : NodeId} {a : Anchor} {r : NodeRecord}
    (h : NodeIn c.stored.get? n a r) : c.WasNode n a r :=
  ⟨(hc.stored_past h.1).1, (hc.stored_past h.1).2, h.2⟩

include hc in
theorem Chronicle.wasEdge {e : EdgeId} {a : Anchor} {r : EdgeRecord}
    (h : EdgeIn c.stored.get? e a r) : c.WasEdge e a r :=
  ⟨(hc.stored_past h.1).1, (hc.stored_past h.1).2, h.2⟩

include hc hl hd hw hcur in
/-- An edge that is stored after the commit is new, or it was stored before with
the same ends. -/
theorem Wired.edge_of_overlay {e : EdgeId} {b : Anchor} {s : EdgeRecord}
    (h : EdgeIn (Vault.overlay c.stored d.batch).get? e b s) :
    (∃ a, EdgeIn d.copy? e a s ∧ a.version = 0 ∧ a.dirty = true) ∨
      (d.removed? (.edge e) = none ∧ ∃ a r, EdgeIn c.stored.get? e a r ∧ s.Alike r) := by
  rcases hd.keyed.of_overlay h.1 with ⟨a, ha, hdirty, rfl⟩ | ⟨hidle, hst⟩
  · have hs : EdgeIn d.copy? e a s := ⟨ha, h.2⟩
    by_cases hz : a.version = 0
    · exact .inl ⟨a, hs, hz, hdirty⟩
    · obtain ⟨p, hp, _⟩ := hd.base_of_dirty hc hcur ha hdirty hz
      obtain ⟨hpast, hid⟩ := hc.stored_past hp
      obtain ⟨r, hr⟩ := (hl.fits hpast).edge hid
      exact .inr ⟨hd.keyed.removed?_of_copy? ha, p, r, ⟨hp, hr⟩, hw.alike hs ⟨hpast, hid, hr⟩⟩
  · refine .inr ⟨?_, b, s, ⟨hst, h.2⟩, .refl s⟩
    cases hx : d.removed? (.edge e) with
    | none => rfl
    | some v => exact absurd (.inr ⟨v, hx⟩) hidle

include hc hd hw in
/-- An edge that the draft does not remove stays, with the same ends. -/
theorem Wired.edge_stays {e : EdgeId} {a : Anchor} {r : EdgeRecord}
    (ha : EdgeIn c.stored.get? e a r) (hr : d.removed? (.edge e) = none) :
    ∃ b s, EdgeIn (Vault.overlay c.stored d.batch).get? e b s ∧ s.Alike r := by
  by_cases hp : d.Pending (.edge e)
  · rcases hp with ⟨x, hx, hdirty⟩ | ⟨v, hv⟩
    · obtain ⟨s, hs⟩ := (hw.fits hx).edge (hd.own hx)
      exact ⟨x.committed, s, ⟨hd.keyed.overlay_of_dirty hx hdirty, hs⟩,
        hw.alike ⟨hx, hs⟩ (hc.wasEdge ha)⟩
    · rw [hr] at hv
      cases hv
  · exact ⟨a, r, ⟨(hd.keyed.overlay_of_idle hp).trans ha.1, ha.2⟩, .refl r⟩

include hc hl hd hw hcur in
/-- A node goes on listing an edge that stays. -/
theorem Wired.node_stays {n : NodeId} {a : Anchor} {r : NodeRecord}
    (ha : NodeIn c.stored.get? n a r) {p : Port} {e : EdgeId} (he : e ∈ r.edgesAt p)
    {b : Anchor} (hb : c.stored.get? (.edge e) = some b) (hr : d.removed? (.edge e) = none) :
    ∃ b s, NodeIn (Vault.overlay c.stored d.batch).get? n b s ∧ (s.edgesAt p).count e = 1 := by
  have hgone : ¬ Gone c d e := by
    rintro (⟨v, hv⟩ | hst)
    · rw [hr] at hv
      cases hv
    · rw [hb] at hst
      cases hst
  by_cases hp : d.Pending (.node n)
  · rcases hp with ⟨x, hx, hdirty⟩ | ⟨v, hv⟩
    · obtain ⟨s, hs⟩ := (hw.fits hx).node (hd.own hx)
      have hver : a.version = x.version := by
        have := hcur _ (.inl ⟨x, hx, hdirty⟩)
        rw [ha.1, hd.keyed.held_of_copy hx] at this
        exact this
      refine ⟨x.committed, s, ⟨hd.keyed.overlay_of_dirty hx hdirty, hs⟩, ?_⟩
      rcases hw.lost ⟨hx, hs⟩ (hc.wasNode ha) hver he with hin | hg | hf
      · rw [List.Nodup.count (hw.nodup ⟨hx, hs⟩ p), if_pos hin]
      · exact absurd hg hgone
      · exact hf.elim
    · obtain ⟨q, hq, hver⟩ := hd.base_of_removed hc hcur hv
      rw [ha.1] at hq
      cases hq
      exact absurd ((hw.cleared hv (hc.wasNode ha) hver).2 p e he) hgone
  · refine ⟨a, r, ⟨(hd.keyed.overlay_of_idle hp).trans ha.1, ha.2⟩, ?_⟩
    rw [List.Nodup.count (hl.nodup (hc.wasNode ha) p), if_pos he]

include hc hw in
/-- A removed edge was taken off its ends, which await the commit too. -/
theorem Wired.removed?_of_idle {n : NodeId} {a : Anchor} (ha : c.stored.get? (.node n) = some a)
    (hidle : ¬ d.Pending (.node n)) {e : EdgeId} {b : Anchor} {s : EdgeRecord} {p : Port}
    (hb : EdgeIn c.stored.get? e b s) (hend : s.endAt p = n) : d.removed? (.edge e) = none := by
  cases hx : d.removed? (.edge e) with
  | none => rfl
  | some v =>
    rcases hend ▸ hw.cut hx (hc.wasEdge hb) p with ⟨w, hw'⟩ | ⟨y, hy, hdirty | hf⟩ | ⟨_, hst⟩
    · exact absurd (.inr ⟨w, hw'⟩) hidle
    · exact absurd (.inl ⟨y, hy, hdirty⟩) hidle
    · exact hf.elim
    · cases ha.symm.trans hst

include hc hw in
/-- An edge that stays keeps its twin. -/
theorem Wired.removed?_of_twin {e t : EdgeId} {a b : Anchor} {s : EdgeRecord}
    (ha : c.stored.get? (.edge e) = some a) (hrem : d.removed? (.edge e) = none)
    (hb : EdgeIn c.stored.get? t b s) (ht : s.twin = some e) : d.removed? (.edge t) = none := by
  cases hx : d.removed? (.edge t) with
  | none => rfl
  | some v =>
    rcases hw.paired hx (hc.wasEdge hb) ht with (⟨w, hw'⟩ | hst) | hf
    · cases hrem.symm.trans hw'
    · cases ha.symm.trans hst
    · exact hf.elim

include hc hd hw hcur in
/-- What the draft writes of a node lists edges that are there after the
commit. -/
theorem Wired.listed_of_write (h : Whole c.stored) {n : NodeId} {a : Anchor} {r : NodeRecord}
    (ha : NodeIn d.copy? n a r) (hdirty : a.dirty = true) {p : Port} {e : EdgeId}
    (he : e ∈ r.edgesAt p) :
    ∃ b s, EdgeIn (Vault.overlay c.stored d.batch).get? e b s ∧ s.endAt p = n := by
  rcases hw.listed ha he with ⟨x, u, hx, hver, hin⟩ | ⟨x, u, hx, hz, hend⟩ | ⟨hf, _⟩
  · -- the base of the copy is what is stored, so the edge is stored as well
    have hz : a.version ≠ 0 := hver ▸ hc.positive hx.1
    obtain ⟨q, hq, hqv⟩ := hd.base_of_dirty hc hcur ha.1 hdirty hz
    have hxq : x = q := hc.unique hx.1 (hc.stored_past hq).1
      (hx.2.1.trans (hc.stored_past hq).2.symm) (hver.trans hqv.symm)
    subst hxq
    obtain ⟨y, v, hy, hend⟩ := h.listed ⟨hq, hx.2.2⟩ hin
    obtain ⟨y', v', hy', halike⟩ := hw.edge_stays hc hd hy (hw.current ha he fun hf => hf)
    exact ⟨y', v', hy', (halike.2 p).trans hend⟩
  · exact ⟨x.committed, u, ⟨hd.keyed.overlay_of_dirty hx.1 (hd.born hx.1 hz).1, hx.2⟩, hend⟩
  · exact hf.elim

end Whole

/-- Committing a current draft keeps the vault whole. -/
theorem Whole.commit (hc : Chronicle c.past c.stored) (hl : Lineage c) (hd : Dated c d)
    (hw : Wired c (fun _ => False) (fun _ => False) d) (hcur : d.Current c.stored)
    (h : Whole c.stored) : Whole (Vault.overlay c.stored d.batch) := by
  refine { fits := fun hb => ?_, ends := fun {e b s} hb p => ?_,
           listed := fun {n b s p e} hb he => ?_, twins := fun {e b s t} hb ht => ?_ }
  · rcases hd.keyed.of_overlay hb with ⟨a, ha, _, rfl⟩ | ⟨_, hst⟩
    · exact ⟨hd.keyed.own_committed ha, ⟨(hw.fits ha).node, (hw.fits ha).edge⟩⟩
    · exact h.fits hst
  · rcases hw.edge_of_overlay hc hl hd hcur hb with ⟨a, ha, hz, _⟩ | ⟨hrem, a, r, ha, halike⟩
    · obtain ⟨x, u, hx, hdirty, hin⟩ := (hw.attached ha hz id).1 p
      refine ⟨x.committed, u, ⟨hd.keyed.overlay_of_dirty hx.1 hdirty, hx.2⟩, ?_⟩
      rw [List.Nodup.count (hw.nodup hx p), if_pos hin]
    · obtain ⟨x, u, hx, hcount⟩ := h.ends ha p
      rw [halike.2 p]
      exact hw.node_stays hc hl hd hcur hx (List.count_pos_iff.1 (hcount ▸ Nat.one_pos)) ha.1 hrem
  · rcases hd.keyed.of_overlay hb.1 with ⟨a, ha, hdirty, rfl⟩ | ⟨hidle, hst⟩
    · have has : NodeIn d.copy? n a s := ⟨ha, hb.2⟩
      exact hw.listed_of_write hc hd hcur h has hdirty he
    · obtain ⟨y, v, hy, hend⟩ := h.listed ⟨hst, hb.2⟩ he
      obtain ⟨y', v', hy', halike⟩ :=
        hw.edge_stays hc hd hy (hw.removed?_of_idle hc hst hidle hy hend)
      exact ⟨y', v', hy', (halike.2 p).trans hend⟩
  · rcases hw.edge_of_overlay hc hl hd hcur hb with ⟨a, ha, hz, _⟩ | ⟨hrem, a, r, ha, halike⟩
    · obtain ⟨x, u, hx, hxz, hmir⟩ := (hw.attached ha hz id).2 t ht
      exact ⟨x.committed, u, ⟨hd.keyed.overlay_of_dirty hx.1 (hd.born hx.1 hxz).1, hx.2⟩, hmir⟩
    · obtain ⟨x, u, hx, hmir⟩ := h.twins ha (halike.1 ▸ ht)
      obtain ⟨y, v, hy, halike'⟩ :=
        hw.edge_stays hc hd hx (hw.removed?_of_twin hc ha.1 hrem hx hmir.1)
      refine ⟨y, v, hy, halike'.1.trans hmir.1, fun p => ?_⟩
      rw [halike'.2 p, hmir.2 p, halike.2 p.flip]

/-! ## The laws of committed anchors -/

/-- What a draft writes is newer than everything committed under the same
identity. -/
theorem Dated.newer (hc : Chronicle c.past c.stored) (hd : Dated c d) (hcur : d.Current c.stored)
    {id : ObjectId} {a p : Anchor} (ha : d.copy? id = some a) (hdirty : a.dirty = true)
    (hp : c.past p) (hid : p.id = id) : p.version < a.version + 1 := by
  by_cases hz : a.version = 0
  · exact absurd ⟨p, hp, hid⟩ (hd.born ha hz).2.1
  · obtain ⟨q, hq, hv⟩ := hd.base_of_dirty hc hcur ha hdirty hz
    have hle := hc.newest (hid ▸ hq) hp
    rw [hv] at hle
    exact UInt64.lt_of_le_of_lt hle (UInt64.lt_add_one (hd.roomy hc ha))

theorem Chronicle.commit (hc : Chronicle c.past c.stored) (hd : Dated c d)
    (hcur : d.Current c.stored)
    (hroomy : ∀ {id b}, (Vault.overlay c.stored d.batch).get? id = some b → b.version + 1 ≠ 0) :
    Chronicle (d.extends c.past) (Vault.overlay c.stored d.batch) := by
  refine ⟨?_, ?_, ?_, ?_, ?_, ?_⟩
  · intro id b hb
    rcases hd.keyed.of_overlay hb with ⟨a, ha, hdirty, rfl⟩ | ⟨_, hst⟩
    · exact ⟨.inr (Draft.mem_writes.2 ⟨id, a, ha, hdirty, rfl⟩), hd.keyed.own_committed ha⟩
    · exact ⟨.inl (hc.stored_past hst).1, (hc.stored_past hst).2⟩
  · rintro a (ha | ha)
    · exact hc.clean ha
    · obtain ⟨_, x, _, _, rfl⟩ := Draft.mem_writes.1 ha
      rfl
  · rintro a (ha | ha)
    · exact hc.positive ha
    · obtain ⟨_, x, hx, _, rfl⟩ := Draft.mem_writes.1 ha
      exact hd.roomy hc hx
  · -- an old and a new anchor of one object differ in their versions
    have hmixed : ∀ {p w : Anchor}, c.past p → w ∈ d.writes → p.id = w.id →
        p.version ≠ w.version := by
      intro p w hp hw hid hver
      obtain ⟨id, x, hx, hdirty, rfl⟩ := Draft.mem_writes.1 hw
      have hlt := hd.newer hc hcur hx hdirty hp (hid.trans (hd.keyed.own_committed hx))
      rw [hver] at hlt
      exact UInt64.lt_irrefl _ hlt
    rintro a b (ha | ha) (hb | hb) hid hver
    · exact hc.unique ha hb hid hver
    · exact absurd hver (hmixed ha hb hid)
    · exact absurd hver.symm (hmixed hb ha hid.symm)
    · exact hd.keyed.unique_writes a ha b hb hid
  · intro a b hb ha
    rcases hd.keyed.of_overlay hb with ⟨x, hx, hdirty, rfl⟩ | ⟨hidle, hst⟩
    · rcases ha with ha | ha
      · exact UInt64.le_of_lt (hd.newer hc hcur hx hdirty ha rfl)
      · have hw : x.committed ∈ d.writes := Draft.mem_writes.2 ⟨_, x, hx, hdirty, rfl⟩
        rw [hd.keyed.unique_writes a ha _ hw (hd.own hx).symm]
        exact UInt64.le_refl _
    · rcases ha with ha | ha
      · exact hc.newest hst ha
      · obtain ⟨id, y, hy, hdirty, rfl⟩ := Draft.mem_writes.1 ha
        rw [Anchor.committed_id, hd.own hy] at hidle
        exact absurd (.inl ⟨y, hy, hdirty⟩) hidle
  · rintro a (ha | ha)
    · exact hc.roomy ha
    · obtain ⟨id, x, hx, hdirty, rfl⟩ := Draft.mem_writes.1 ha
      exact hroomy (hd.keyed.overlay_of_dirty hx hdirty)

namespace Whole

variable {t : Table ObjectId Anchor} {n : NodeId} {a : Anchor} {r : NodeRecord} {p : Port}
  {e : EdgeId}

theorem count_eq_one (h : Whole t) (ha : NodeIn t.get? n a r) (he : e ∈ r.edgesAt p) :
    (r.edgesAt p).count e = 1 := by
  obtain ⟨b, s, hb, hend⟩ := h.listed ha he
  obtain ⟨x, u, hx, hone⟩ := h.ends hb p
  rw [hend] at hx
  rwa [(hx.unique ha).2] at hone

theorem nodup (h : Whole t) (ha : NodeIn t.get? n a r) (p : Port) : (r.edgesAt p).Nodup := by
  refine List.nodup_iff_count.2 fun e => ?_
  by_cases he : e ∈ r.edgesAt p
  · exact Nat.le_of_eq (h.count_eq_one ha he)
  · rw [List.count_eq_zero_of_not_mem he]
    exact Nat.zero_le 1

/-- A node that lists an edge at one port lists the twin at the other. -/
theorem paired (h : Whole t) (ha : NodeIn t.get? n a r) (he : e ∈ r.edgesAt p) {b : Anchor}
    {s : EdgeRecord} (hb : EdgeIn t.get? e b s) {t' : EdgeId} (ht : s.twin = some t') :
    t' ∈ r.edgesAt p.flip := by
  obtain ⟨x, u, hx, hmir⟩ := h.twins hb ht
  obtain ⟨y, v, hy, hend⟩ := h.listed ha he
  obtain ⟨z, q, hz, hone⟩ := h.ends hx p.flip
  rw [hmir.2, Port.flip_flip, ← (hy.unique hb).2, hend] at hz
  rw [(hz.unique ha).2] at hone
  exact List.count_pos_iff.1 (hone ▸ Nat.one_pos)

end Whole

/-- The laws that hold over all times go on to hold if all that is new is
stored, in a whole vault, and agrees with what was there in types, ends and
twins. -/
theorem Lineage.extend (hl : Lineage c) (h : Whole c'.stored)
    (hold : ∀ {p}, c.past p → c'.past p)
    (hnew : ∀ {p}, c'.past p → c.past p ∨ c'.stored.get? p.id = some p)
    (hstored : ∀ {id p}, c'.stored.get? id = some p → c'.past p)
    (halike : ∀ {e a r b s}, c'.WasEdge e a r → c'.WasEdge e b s → r.Alike s)
    (htyped : ∀ {a b}, c'.past a → c'.past b → a.id = b.id → a.type = b.type) : Lineage c' := by
  have hnode : ∀ {n a r}, c'.WasNode n a r → c.WasNode n a r ∨ NodeIn c'.stored.get? n a r :=
    fun ha => (hnew ha.1).imp (fun hp => ⟨hp, ha.2⟩) fun hst => ⟨ha.2.1 ▸ hst, ha.2.2⟩
  have hedge : ∀ {e a r}, c'.WasEdge e a r → c.WasEdge e a r ∨ EdgeIn c'.stored.get? e a r :=
    fun ha => (hnew ha.1).imp (fun hp => ⟨hp, ha.2⟩) fun hst => ⟨ha.2.1 ▸ hst, ha.2.2⟩
  have hwas : ∀ {e a r}, EdgeIn c'.stored.get? e a r → c'.WasEdge e a r := fun ha =>
    ⟨hstored ha.1, (h.fits ha.1).1, ha.2⟩
  -- an old anchor has what it needs among the old ones, a new one among what is stored
  refine { fits := fun ha => ?_, alike := halike, typed := htyped, nodup := fun ha p => ?_,
           listed := fun ha he => ?_, paired := fun {n a r p e b s t} ha he hb ht => ?_,
           ends := fun ha p => ?_, twins := fun ha ht => ?_ }
  · rcases hnew ha with ha | ha
    · exact hl.fits ha
    · exact (h.fits ha).2
  · rcases hnode ha with ha | ha
    · exact hl.nodup ha p
    · exact h.nodup ha p
  · rcases hnode ha with ha | ha
    · obtain ⟨b, s, hb, hend⟩ := hl.listed ha he
      exact ⟨b, s, ⟨hold hb.1, hb.2⟩, hend⟩
    · obtain ⟨b, s, hb, hend⟩ := h.listed ha he
      exact ⟨b, s, hwas hb, hend⟩
  · rcases hnode ha with ha | ha
    · obtain ⟨y, u, hy, _⟩ := hl.listed ha he
      have hy' : c'.WasEdge e y u := ⟨hold hy.1, hy.2⟩
      exact hl.paired ha he hy ((halike hy' hb).1.trans ht)
    · obtain ⟨y, u, hy, _⟩ := h.listed ha he
      exact h.paired ha he hy ((halike (hwas hy) hb).1.trans ht)
  · rcases hedge ha with ha | ha
    · obtain ⟨q, hq, hid⟩ := hl.ends ha p
      exact ⟨q, hold hq, hid⟩
    · obtain ⟨b, s, hb, _⟩ := h.ends ha p
      exact ⟨b, hstored hb.1, (h.fits hb.1).1⟩
  · rcases hedge ha with ha | ha
    · obtain ⟨b, s, hb, hmir⟩ := hl.twins ha ht
      exact ⟨b, s, ⟨hold hb.1, hb.2⟩, hmir⟩
    · obtain ⟨b, s, hb, hmir⟩ := h.twins ha ht
      exact ⟨b, s, hwas hb, hmir⟩

/-- What a draft writes of an edge has the ends and the twin that it always
had. -/
theorem Wired.alike_of_write (hd : Dated c d) (hw : Wired c due dead d) {e : EdgeId} {p q : Anchor}
    {r s : EdgeRecord} (hq : q ∈ d.writes) (hid : q.id = .edge e) (hs : q.edge? = some s)
    (hp : c.WasEdge e p r) : s.Alike r := by
  obtain ⟨id, x, hx, _, rfl⟩ := Draft.mem_writes.1 hq
  have hide : id = .edge e := (hd.own hx).symm.trans hid
  have hin : EdgeIn d.copy? e x s := ⟨hide ▸ hx, hs⟩
  exact hw.alike hin hp

/-- The laws that hold over all times are extended by what a whole vault now
holds. -/
theorem Lineage.commit (hl : Lineage c) (hd : Dated c d)
    (hw : Wired c (fun _ => False) (fun _ => False) d) (hc' : Chronicle c'.past c'.stored)
    (hpast : c'.past = d.extends c.past) (hstored : c'.stored = Vault.overlay c.stored d.batch)
    (h' : Whole c'.stored) : Lineage c' := by
  have hcases : ∀ {p}, c'.past p → c.past p ∨ p ∈ d.writes := fun hp => by rwa [hpast] at hp
  refine hl.extend h' (fun hp => hpast ▸ .inl hp) (fun {p} hp => ?_)
    (fun hp => (hc'.stored_past hp).1)
    (fun {e a r b s} ha hb => ?_) fun {a b} ha hb hid => ?_
  · refine (hcases hp).imp_right fun hp => ?_
    obtain ⟨id, x, hx, hdirty, rfl⟩ := Draft.mem_writes.1 hp
    rw [hstored, hd.keyed.own_committed hx]
    exact hd.keyed.overlay_of_dirty hx hdirty
  · obtain ⟨ha, haid, hr⟩ := ha
    obtain ⟨hb, hbid, hs⟩ := hb
    rcases hcases ha with ha | ha <;> rcases hcases hb with hb | hb
    · exact hl.alike ⟨ha, haid, hr⟩ ⟨hb, hbid, hs⟩
    · exact (hw.alike_of_write hd hb hbid hs ⟨ha, haid, hr⟩).symm
    · exact hw.alike_of_write hd ha haid hr ⟨hb, hbid, hs⟩
    · -- two new anchors of one edge are the same one
      have hab := hd.keyed.unique_writes a ha b hb (haid.trans hbid.symm)
      subst hab
      cases hr.symm.trans hs
      exact .refl r
  · have hmixed : ∀ {p q}, c.past p → q ∈ d.writes → p.id = q.id → q.type = p.type := by
      intro p q hp hq hid
      obtain ⟨id, x, hx, _, rfl⟩ := Draft.mem_writes.1 hq
      exact hw.typed (a := x) hx hp (hid.trans (hd.keyed.own_committed hx))
    rcases hcases ha with ha | ha <;> rcases hcases hb with hb | hb
    · exact hl.typed ha hb hid
    · exact (hmixed ha hb hid).symm
    · exact hmixed hb ha hid.symm
    · rw [hd.keyed.unique_writes a ha b hb hid]

end Wayfarer
