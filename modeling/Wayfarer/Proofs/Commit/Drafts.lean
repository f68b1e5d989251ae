import Wayfarer.Proofs.Commit.Integrity

/-!
# Drafts across commits

Whenever a request commits, the vault changes below the drafts of all others.
They stay dated and wired nevertheless (`Dated.follow`, `Wired.follow`): what
was committed stays known, what was once removed does not come back, and new
identities are not shared. A draft that holds nothing but committed anchors is
in order by itself (`Dated.of_past`, `Wired.of_past`), as is the draft of a
request after its own commit, and eviction drops such anchors (`Dated.evict`,
`Wired.evict`).

* `Sound.commit` says what a commit does to the desk.
-/

namespace Wayfarer

variable {c c' : Setting} {d : Draft}

/-! ## Other requests -/

theorem Dated.follow (h : Dated c d) (hpast : ∀ {p}, c.past p → c'.past p)
    (hborn : ∀ {id a}, d.copy? id = some a → a.version = 0 → ¬ c'.Committed id ∧ ¬ c'.reserved id)
    (hheld : ∀ id, d.held c'.stored id = c'.held id) : Dated c' d := by
  refine ⟨h.own, h.apart, fun ha hd => hpast (h.clean ha hd), fun ha hz => ?_,
    fun ha hz => ⟨(h.born ha hz).1, hborn ha hz⟩, fun hr => ?_, hheld⟩
  · obtain ⟨p, hp, hrest⟩ := h.based ha hz
    exact ⟨p, hpast hp, hrest⟩
  · obtain ⟨hz, p, hp, hrest⟩ := h.buried hr
    exact ⟨hz, p, hpast hp, hrest⟩

/-- A wired draft stays wired when the vault changes below it. -/
theorem Wired.follow (hc' : Chronicle c'.past c'.stored) (hl : Lineage c) (hl' : Lineage c')
    (hd : Dated c d) (hpast : ∀ {p}, c.past p → c'.past p)
    (habsent : ∀ {id}, c.Committed id → c.stored.get? id = none → c'.stored.get? id = none)
    (hborn : ∀ {id a}, d.copy? id = some a → a.version = 0 → ¬ c'.Committed id)
    (h : Wired c (fun _ => False) (fun _ => False) d) :
    Wired c' (fun _ => False) (fun _ => False) d := by
  -- an anchor with the version of a copy is the one that the copy was made from
  have hbase : ∀ {id a b}, d.copy? id = some a → c'.past b → b.id = id → b.version = a.version →
      c.past b := by
    intro id a b ha hb hid hver
    obtain ⟨p, hp, hpid, hpv⟩ := hd.based ha (hver ▸ hc'.positive hb)
    have hbp : b = p := hc'.unique hb (hpast hp) (hid.trans hpid.symm) (hver.trans hpv.symm)
    exact hbp ▸ hp
  have hgone : ∀ {e}, c.Committed (.edge e) → Gone c d e → Gone c' d e := fun hcom hg =>
    hg.imp id (habsent hcom)
  -- whatever was committed of a removed edge has the ends and the twin it has now
  have hremoved : ∀ {e v b s}, d.removed? (.edge e) = some v → c'.WasEdge e b s →
      ∃ p r, c.WasEdge e p r ∧ r.Alike s := by
    intro e v b s hr hb
    obtain ⟨_, p, hp, hid, _⟩ := hd.buried hr
    obtain ⟨r, hr'⟩ := (hl.fits hp).edge hid
    exact ⟨p, r, ⟨hp, hid, hr'⟩, hl'.alike ⟨hpast hp, hid, hr'⟩ hb⟩
  refine {
    fits := h.fits
    alike := fun {e a r b s} ha hb => ?alike
    typed := fun {id a b} ha hb hid => ?typed
    nodup := h.nodup
    lost := fun {n a r b s p e} ha hb hver he => ?lost
    listed := fun {n a r p e} ha he => ?listed
    current := h.current
    attached := h.attached
    cut := fun {e v b s} hr hb p => ?cut
    cleared := fun {n v b s} hr hb hver => ?cleared
    paired := fun {e v b s t} hr hb ht => ?paired }
  case alike =>
    by_cases hz : a.version = 0
    · exact absurd hb.committed (hborn ha.1 hz)
    · obtain ⟨p, hp, hid, _⟩ := hd.based ha.1 hz
      obtain ⟨t, ht⟩ := (hl.fits hp).edge hid
      exact (h.alike ha ⟨hp, hid, ht⟩).trans (hl'.alike ⟨hpast hp, hid, ht⟩ hb)
  case typed =>
    by_cases hz : a.version = 0
    · exact absurd ⟨b, hb, hid⟩ (hborn ha hz)
    · obtain ⟨p, hp, hpid, _⟩ := hd.based ha hz
      exact (h.typed ha hp hpid).trans (hl'.typed (hpast hp) hb (hpid.trans hid.symm))
  case lost =>
    have hb' : c.WasNode n b s := ⟨hbase ha.1 hb.1 hb.2.1 hver, hb.2⟩
    exact (h.lost ha hb' hver he).imp id
      (Or.imp (hgone (hl.committed_of_listed hb' he)) id)
  case listed =>
    rcases h.listed ha he with ⟨b, s, hb, hrest⟩ | hnew | ⟨hf, _⟩
    · exact .inl ⟨b, s, ⟨hpast hb.1, hb.2⟩, hrest⟩
    · exact .inr (.inl hnew)
    · exact hf.elim
  case cut =>
    obtain ⟨q, r, hq, halike⟩ := hremoved hr hb
    rw [← halike.2 p]
    rcases h.cut hr hq p with hrem | hcopy | ⟨hno, hst⟩
    · exact .inl hrem
    · exact .inr (.inl hcopy)
    · exact .inr (.inr ⟨hno, habsent (hl.ends hq p) hst⟩)
  case cleared =>
    obtain ⟨_, p, hp, hid, hpv⟩ := hd.buried hr
    have hbp : b = p := hc'.unique hb.1 (hpast hp) (hb.2.1.trans hid.symm) (hver.trans hpv.symm)
    subst hbp
    have hb' : c.WasNode n b s := ⟨hp, hb.2⟩
    obtain ⟨hty, hg⟩ := h.cleared hr hb' hver
    exact ⟨hty, fun q e he => hgone (hl.committed_of_listed hb' he) (hg q e he)⟩
  case paired =>
    obtain ⟨q, r, hq, halike⟩ := hremoved hr hb
    have htr : r.twin = some t := halike.1.trans ht
    obtain ⟨y, u, hy, _⟩ := hl.twins hq htr
    exact (h.paired hr hq htr).imp (hgone hy.committed) id

/-! ## Drafts without changes -/

theorem Dated.of_past (hc : Chronicle c.past c.stored)
    (hcopy : ∀ {id a}, d.copy? id = some a → c.past a ∧ a.id = id)
    (hrem : ∀ id, d.removed? id = none) (hheld : ∀ id, d.held c.stored id = c.held id) :
    Dated c d := by
  refine ⟨fun ha => (hcopy ha).2, fun hr => ?_, fun ha _ => (hcopy ha).1,
    fun ha _ => ⟨_, (hcopy ha).1, (hcopy ha).2, rfl⟩,
    fun ha hz => absurd hz (hc.positive (hcopy ha).1), fun hr => ?_, hheld⟩
  · rw [hrem] at hr
    cases hr
  · rw [hrem] at hr
    cases hr

theorem Wired.of_past (hc : Chronicle c.past c.stored) (hl : Lineage c)
    (hcopy : ∀ {id a}, d.copy? id = some a → c.past a ∧ a.id = id)
    (hrem : ∀ id, d.removed? id = none) : Wired c (fun _ => False) (fun _ => False) d := by
  have hnot : ∀ {id v}, ¬ d.removed? id = some v := fun {id _} hr => by
    rw [hrem id] at hr
    cases hr
  exact .of_copies
    (fun ha => .of_past hc hl (hcopy ha).1 (hcopy ha).2 fun _ _ _ _ => hrem _)
    (fun hr => absurd hr hnot) (fun hr => absurd hr hnot) fun hr => absurd hr hnot

/-! ## Eviction -/

theorem Draft.evictVolatile_copy? (d : Draft) (id : ObjectId) :
    d.evictVolatile.copy? id = (d.copy? id).filter (·.dirty) :=
  Table.get?_filter ..

theorem Draft.copy?_of_evictVolatile {id : ObjectId} {a : Anchor}
    (h : d.evictVolatile.copy? id = some a) : d.copy? id = some a ∧ a.dirty = true := by
  rw [Draft.evictVolatile_copy?] at h
  exact ⟨Option.eq_some_of_filter_eq_some h, Option.mem_filter_iff.1 h |>.2⟩

theorem Draft.evictVolatile_of_dirty {id : ObjectId} {a : Anchor} (h : d.copy? id = some a)
    (hd : a.dirty = true) : d.evictVolatile.copy? id = some a := by
  rw [Draft.evictVolatile_copy?, h]
  simp [hd]

theorem Draft.Keyed.evict (h : d.Keyed) : d.evictVolatile.Keyed := by
  refine ⟨fun ha => h.own (Draft.copy?_of_evictVolatile ha).1, fun hr => ?_⟩
  rw [Draft.evictVolatile_copy?, h.apart hr]
  rfl

/-- Eviction keeps the changes and drops the rest. -/
theorem Dated.evict (h : Dated c d) :
    Dated { c with held := d.evictVolatile.held c.stored } d.evictVolatile := by
  refine ⟨h.keyed.evict.own, h.keyed.evict.apart, fun ha hd => ?_,
    fun ha => h.based (Draft.copy?_of_evictVolatile ha).1,
    fun ha => h.born (Draft.copy?_of_evictVolatile ha).1, h.buried, fun _ => rfl⟩
  rw [(Draft.copy?_of_evictVolatile ha).2] at hd
  cases hd

theorem Wired.evict (hd : Dated c d) (h : Wired c (fun _ => False) (fun _ => False) d) :
    Wired c (fun _ => False) (fun _ => False) d.evictVolatile := by
  have hnode : ∀ {n a r}, NodeIn d.evictVolatile.copy? n a r → NodeIn d.copy? n a r := fun ha =>
    ⟨(Draft.copy?_of_evictVolatile ha.1).1, ha.2⟩
  have hedge : ∀ {e a r}, EdgeIn d.evictVolatile.copy? e a r → EdgeIn d.copy? e a r := fun ha =>
    ⟨(Draft.copy?_of_evictVolatile ha.1).1, ha.2⟩
  have hnew : ∀ {e a r}, EdgeIn d.copy? e a r → a.version = 0 →
      EdgeIn d.evictVolatile.copy? e a r := fun ha hz =>
    ⟨Draft.evictVolatile_of_dirty ha.1 (hd.born ha.1 hz).1, ha.2⟩
  refine ⟨fun ha => h.fits (Draft.copy?_of_evictVolatile ha).1, fun ha => h.alike (hedge ha),
    fun ha => h.typed (Draft.copy?_of_evictVolatile ha).1, fun ha => h.nodup (hnode ha),
    fun ha => h.lost (hnode ha), ?_, fun ha => h.current (hnode ha), ?_, ?_, h.cleared, h.paired⟩
  · intro n a r p e ha he
    rcases h.listed (hnode ha) he with hb | ⟨b, s, hb, hz, hend⟩ | ⟨hf, _⟩
    · exact .inl hb
    · exact .inr (.inl ⟨b, s, hnew hb hz, hz, hend⟩)
    · exact hf.elim
  · intro e a r ha hz hdue
    obtain ⟨hends, htwin⟩ := h.attached (hedge ha) hz hdue
    refine ⟨fun p => ?_, fun t ht => ?_⟩
    · obtain ⟨b, s, hb, hdirty, hin⟩ := hends p
      exact ⟨b, s, ⟨Draft.evictVolatile_of_dirty hb.1 hdirty, hb.2⟩, hdirty, hin⟩
    · obtain ⟨b, s, hb, hbz, hmir⟩ := htwin t ht
      exact ⟨b, s, hnew hb hbz, hbz, hmir⟩
  · intro e v b s hr hb p
    rcases h.cut hr hb p with hrem | ⟨x, hx, hdirty | hf⟩ | ⟨hno, hst⟩
    · exact .inl hrem
    · exact .inr (.inl ⟨x, Draft.evictVolatile_of_dirty hx hdirty, .inl hdirty⟩)
    · exact hf.elim
    · refine .inr (.inr ⟨?_, hst⟩)
      rw [Draft.evictVolatile_copy?, hno]
      rfl

/-! ## The commit itself -/

/-- What a commit makes of an anchor in the draft. -/
def Anchor.settled (a : Anchor) : Anchor := if a.dirty then a.committed else a

/-- The desk after its draft was committed. -/
def Desk.published (d : Desk Vault) : Desk Vault :=
  let anchors := Vault.overlay d.stored d.draft.batch
  ⟨d.draft.settle d.draft.batch,
    { d.shared with durable := { d.shared.durable with anchors := anchors } }.settle d.draft.batch⟩

section Settle

variable {t : Table ObjectId Anchor}

theorem Draft.get?_refresh {writes : List Anchor}
    (huniq : ∀ w ∈ writes, ∀ w' ∈ writes, w.id = w'.id → w = w') :
    (∀ w ∈ writes, (writes.foldl (fun t w => t.modify w.id fun a =>
      { a with version := w.version, dirty := false }) t).get? w.id =
        (t.get? w.id).map fun a => { a with version := w.version, dirty := false }) ∧
      ∀ id, (∀ w ∈ writes, w.id ≠ id) → (writes.foldl (fun t w => t.modify w.id fun a =>
        { a with version := w.version, dirty := false }) t).get? id = t.get? id := by
  induction writes generalizing t with
  | nil => exact ⟨fun _ hw => (List.not_mem_nil hw).elim, fun _ _ => rfl⟩
  | cons x rest ih =>
    obtain ⟨hin, hout⟩ := ih
      (t := t.modify x.id fun a => { a with version := x.version, dirty := false })
      fun w hw w' hw' => huniq w (List.mem_cons_of_mem _ hw) w' (List.mem_cons_of_mem _ hw')
    refine ⟨fun w hw => ?_, fun id hid => ?_⟩
    · rw [List.foldl_cons]
      by_cases hlater : ∃ w' ∈ rest, w'.id = w.id
      · obtain ⟨w', hw', hid⟩ := hlater
        have heq := huniq w' (List.mem_cons_of_mem _ hw') w hw hid
        subst heq
        rw [hin w' hw', Table.get?_modify]
        split
        · rename_i hx
          rw [Option.map_map, hx]
          rfl
        · rfl
      · rw [hout w.id fun w' hw' hid => hlater ⟨w', hw', hid⟩, Table.get?_modify]
        rcases List.mem_cons.1 hw with rfl | hw
        · rw [if_pos rfl]
        · exact absurd ⟨w, hw, rfl⟩ hlater
    · rw [List.foldl_cons, hout id fun w hw => hid w (List.mem_cons_of_mem _ hw),
        Table.get?_modify, if_neg fun heq => hid x (List.mem_cons_self ..) heq.symm]

@[simp] theorem Draft.settle_removed? (d : Draft) (batch : Batch) (id : ObjectId) :
    (d.settle batch).removed? id = none := rfl

/-- A commit makes of each copy in the draft what it makes of such an anchor. -/
theorem Draft.Keyed.copy?_settle (h : d.Keyed) (id : ObjectId) :
    (d.settle d.batch).copy? id = (d.copy? id).map Anchor.settled := by
  change (d.writes.foldl _ d.volatile).get? id = _
  by_cases hw : ∃ a, d.copy? id = some a ∧ a.dirty = true
  · obtain ⟨a, ha, hdirty⟩ := hw
    have hrefresh := (Draft.get?_refresh (t := d.volatile) h.unique_writes).1 a.committed
      (Draft.mem_writes.2 ⟨id, a, ha, hdirty, rfl⟩)
    rw [h.own_committed ha] at hrefresh
    rw [hrefresh, ha, show d.volatile.get? id = some a from ha]
    simp [Anchor.settled, hdirty, Anchor.committed]
  · rw [(Draft.get?_refresh h.unique_writes).2 id ?_]
    · change d.copy? id = _
      cases ha : d.copy? id with
      | none => rfl
      | some a =>
        have hclean : ¬ a.dirty = true := fun hdirty => hw ⟨a, ha, hdirty⟩
        simp [Anchor.settled, hclean]
    · rintro w hmem rfl
      obtain ⟨j, a, ha, hdirty, rfl⟩ := Draft.mem_writes.1 hmem
      rw [h.own_committed ha] at hw
      exact hw ⟨a, ha, hdirty⟩

/-- After its commit a draft holds the anchors that were written, and clean
copies as before. -/
theorem Draft.Keyed.settle_copy? (h : d.Keyed) {id : ObjectId} {b : Anchor}
    (hb : (d.settle d.batch).copy? id = some b) :
    (∃ a, d.copy? id = some a ∧ a.dirty = true ∧ b = a.committed) ∨
      (d.copy? id = some b ∧ b.dirty = false) := by
  rw [h.copy?_settle, Option.map_eq_some_iff] at hb
  obtain ⟨a, ha, rfl⟩ := hb
  cases hdirty : a.dirty with
  | true => exact .inl ⟨a, ha, hdirty, if_pos hdirty⟩
  | false =>
    have hsame : a.settled = a := if_neg (by rw [hdirty]; decide)
    rw [hsame]
    exact .inr ⟨ha, hdirty⟩

theorem Draft.Keyed.settle (h : d.Keyed) : (d.settle d.batch).Keyed := by
  refine ⟨fun hb => ?_, fun hr => by cases hr⟩
  rcases h.settle_copy? hb with ⟨a, ha, _, rfl⟩ | ⟨hold, _⟩
  · exact h.own_committed ha
  · exact h.own hold

theorem Dated.past_of_settle (h : Dated c d) {id : ObjectId} {b : Anchor}
    (hb : (d.settle d.batch).copy? id = some b) : d.extends c.past b ∧ b.id = id := by
  rcases h.keyed.settle_copy? hb with ⟨a, ha, hdirty, rfl⟩ | ⟨hb, hclean⟩
  · exact ⟨.inr (Draft.mem_writes.2 ⟨id, a, ha, hdirty, rfl⟩), h.keyed.own_committed ha⟩
  · exact ⟨.inl (h.clean hb hclean), h.own hb⟩

end Settle

/-- What a commit of a draft answers. -/
def Draft.receipt (d : Draft) : Receipt := ⟨d.batch.writes.map (·.id), d.batch.deletes.map (·.1)⟩

theorem Draft.batch_eq_nil (he : d.batch.isEmpty = true) :
    d.batch = ⟨[], []⟩ ∧ d.tombstones = Table.empty := by
  have hboth : d.writes = [] ∧ d.tombstones.toList = [] := by
    simpa [Batch.isEmpty, Draft.batch] using he
  refine ⟨by rw [Draft.batch, hboth.1, hboth.2], Table.ext_get? fun k => ?_⟩
  cases hk : d.tombstones.get? k with
  | none => rfl
  | some v =>
    have := Table.mem_toList.2 hk
    rw [hboth.2] at this
    cases this

theorem Draft.writes_eq_nil (he : d.batch.isEmpty = true) : d.writes = [] :=
  congrArg Batch.writes (batch_eq_nil he).1

/-- A vault refuses a batch with a conflict, and no other. -/
theorem Vault.apply_eq (v : Vault) (batch : Batch) : Vault.apply batch v =
    match Batch.conflict? v.version? batch.expectations with
    | none => .ok () { v with anchors := Vault.overlay v.anchors batch }
    | some e => .error e v := by
  unfold Vault.apply Batch.check
  cases Batch.conflict? v.version? batch.expectations <;> rfl

namespace Desk

variable {d : Desk Vault}

theorem published_of_isEmpty (he : d.draft.batch.isEmpty = true) :
    d.published = d ∧ d.draft.Current d.stored := by
  obtain ⟨hbatch, htomb⟩ := Draft.batch_eq_nil he
  refine ⟨?_, fun id hp => ?_⟩
  · unfold Desk.published
    rw [hbatch]
    have hdraft : d.draft.settle ⟨[], []⟩ = d.draft := by
      unfold Draft.settle
      rw [← htomb]
      rfl
    rw [hdraft]
    rfl
  · rcases hp with ⟨a, ha, hdirty⟩ | ⟨v, hv⟩
    · have hmem : a.committed ∈ d.draft.batch.writes :=
        Draft.mem_writes.2 ⟨id, a, ha, hdirty, rfl⟩
      rw [hbatch] at hmem
      cases hmem
    · rw [show d.draft.removed? id = none by
        simp only [Draft.removed?, htomb, Table.get?_empty]] at hv
      cases hv

/-- What a commit comes to over any durable tier. Without changes it does
nothing; else the durable tier takes the batch, which settles the draft and is
told to the cache, or refuses it, which leaves both alone. -/
theorem commit_cases {σ : Type} [Durable σ] {d : Desk σ} {Q : Receipt → Desk σ → Prop}
    {E : Error → Desk σ → Prop} (hidle : d.draft.batch.isEmpty = true → Q Receipt.empty d)
    (hdone : ∀ s, Durable.apply d.draft.batch d.shared.durable = .ok () s →
      Q d.draft.receipt ⟨d.draft.settle d.draft.batch,
        ({ d.shared with durable := s } : Shared σ).settle d.draft.batch⟩)
    (hrefused : ∀ e s, Durable.apply d.draft.batch d.shared.durable = .error e s →
      E e { d with shared := { d.shared with durable := s } }) :
    Work.Ends commit d Q E := by
  refine .bind (.get ?_)
  simp only
  split
  · rename_i he
    exact .pure (hidle he)
  · refine .bind ?_
    cases happly : Durable.apply d.draft.batch d.shared.durable with
    | ok u s =>
      exact .of_ok (onDurable_of_ok happly) (.bind (.modify (.pure (hdone s happly))))
    | error e s => exact .of_error (onDurable_of_error happly) (hrefused e s happly)

/-- A commit publishes the draft if there is no conflict, and else fails with
the first one and changes nothing. -/
theorem commit_outcome (d : Desk Vault) :
    Work.Ends commit d
      (fun receipt d' => receipt = d.draft.receipt ∧
        Batch.conflict? d.shared.durable.version? d.draft.batch.expectations = none ∧
        d' = d.published)
      fun e d' => Batch.conflict? d.shared.durable.version? d.draft.batch.expectations = some e ∧
        d' = d := by
  have happly := d.shared.durable.apply_eq d.draft.batch
  refine commit_cases (fun he => ?_) (fun s hdone => ?_) fun e s hrefused => ?_
  · refine ⟨?_, ?_, (published_of_isEmpty he).1.symm⟩ <;>
      simp only [Draft.receipt, (Draft.batch_eq_nil he).1] <;> rfl
  · rw [show Durable.apply d.draft.batch d.shared.durable = _ from happly] at hdone
    split at hdone
    · rename_i hconf
      cases hdone
      exact ⟨rfl, hconf, rfl⟩
    · cases hdone
  · rw [show Durable.apply d.draft.batch d.shared.durable = _ from happly] at hrefused
    split at hrefused
    · cases hrefused
    · rename_i hconf
      cases hrefused
      exact ⟨hconf, rfl⟩

/-- A commit succeeds exactly if the draft is current; otherwise it fails with
the first conflict and changes nothing. -/
theorem commit_ends (hk : d.draft.Keyed) (hspare : d.draft.Spare) :
    Work.Ends commit d
      (fun receipt d' => receipt = d.draft.receipt ∧ d.draft.Current d.stored ∧ d' = d.published)
      fun e d' => Batch.conflict? d.shared.durable.version? d.draft.batch.expectations = some e ∧
        ¬ d.draft.Current d.stored ∧ d' = d := by
  have hcheck : Batch.conflict? d.shared.durable.version? d.draft.batch.expectations = none ↔
      d.draft.Current d.stored := hk.check_iff hspare d.stored
  refine d.commit_outcome.mono (fun receipt d' h => ⟨h.1, hcheck.1 h.2.1, h.2.2⟩) fun e d' h => ?_
  refine ⟨h.1, fun hcur => ?_, h.2⟩
  rw [hcheck.2 hcur] at h
  cases h.1

end Desk

namespace Sound

variable {n : Nat} {d : Desk Vault}

/-- A commit succeeds exactly if the draft is current; otherwise it fails with a
conflict and changes nothing. -/
theorem commit (h : Calm c n d) :
    Work.Ends Desk.commit d (fun _ d' => d.draft.Current c.stored ∧ d' = d.published)
      fun e d' => e.isConflict = true ∧ ¬ d.draft.Current c.stored ∧ d' = d := by
  rw [← h.stored]
  exact (Desk.commit_ends h.dated.keyed (h.dated.spacious h.chronicle).spare).mono
    (fun _ _ hq => hq.2) fun _ _ he => ⟨Batch.conflict?_isConflict he.1, he.2⟩

theorem stored_published (d : Desk Vault) :
    d.published.stored = Vault.overlay d.stored d.draft.batch := by
  simp [Desk.published, Desk.stored, Shared.stored]

theorem mint_published (d : Desk Vault) : d.published.shared.mint = d.shared.mint := by
  simp [Desk.published]

end Sound

/-- The cache agrees with the vault after a commit. -/
theorem Desk.agreed_published {d : Desk Vault} (hk : d.draft.Keyed) (hspare : d.draft.Spare)
    (hs : d.shared.Agreed) (hcur : d.draft.Current d.stored) : d.published.shared.Agreed := by
  refine .of_coherent ?_ ?_ <;>
    rw [show d.published.shared.stored = _ from Sound.stored_published d]
  · exact fun ha => hk.tidy_overlay hs.tidy ha
  · refine hk.coherent_settle (hs.coherent.congr rfl rfl) ?_ ?_
    · intro id a p ha hdirty hp
      rw [hk.version_of_dirty hcur ha hdirty hp]
      exact UInt64.lt_add_one (hspare a (Table.mem_values.2 ⟨id, ha⟩) hdirty)
    · exact fun hv hp => UInt64.le_of_eq (hcur.version_of_removed hv hp)

theorem Sound.agreed_published {n : Nat} {d : Desk Vault} (h : Calm c n d)
    (hcur : d.draft.Current c.stored) : d.published.shared.Agreed :=
  Desk.agreed_published h.dated.keyed (h.dated.spacious h.chronicle).spare h.agreed
    (h.stored ▸ hcur)

end Wayfarer
