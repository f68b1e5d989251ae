import Wayfarer.Proofs.Confinement.Building
import Wayfarer.Proofs.Confinement.Changing

/-!
# What operations come to

Every operation on the graph, and what happens at the end of a request, is
confined and keeps the view in order: `Op.run_obeys`,
`Desk.evictUnreachable_obeys`.
-/

namespace Wayfarer

variable {σ : Type} [Durable σ] {t : Tier σ} {d₀ d d' : Desk σ} {n N k : Nat} {v : View}
  {actor : Actor} {root : RootId} {types : TypeId → Prop}

/-- Nothing speaks against a tenant's linking to a node: either it may, or there
is no such node. -/
def View.Allows (v : View) (root : RootId) (n : NodeId) : Prop :=
  ∀ a, v (.node n) = some a → a.permits root .connect = true

/-- Work on behalf of a tenant has led from one desk to another. It has changed
the view only as the tenant may, and the view is in order. New nodes have
certain types, and the mint was used at most so many times. -/
structure Desk.Obeys (t : Tier σ) (root : RootId) (k : Nat) (types : TypeId → Prop)
    (d₀ d : Desk σ) :
    Prop where
  steps : ∃ n ≤ k, Steps t d₀ n d
  sane : d.Sane t
  orderly : (d.view t).Orderly
  confined : (d₀.view t).Confined root (d.view t)
  sprouts : ∀ {n a}, d₀.view t (.node n) = none → d.view t (.node n) = some a → types a.type

/-- Work that obeys, whether it answers or fails. -/
def Work.Obeys {α : Type} (t : Tier σ) (root : RootId) (k : Nat) (types : TypeId → Prop)
    (w : Work σ α) (d : Desk σ) : Prop :=
  Work.Ends w d (fun _ d' => d.Obeys t root k types d') fun _ d' => d.Obeys t root k types d'

theorem View.Permits.sees {m : NodeId} {level : Level} (h : v.Permits root m level) :
    ∃ a, v (.node m) = some a := by
  obtain ⟨a, ha, _⟩ := h
  exact ⟨a, ha⟩

theorem View.Permits.allows {m : NodeId} (h : v.Permits root m .connect) : v.Allows root m := by
  obtain ⟨a, ha, hp⟩ := h
  intro b hb
  rw [ha] at hb
  cases hb
  exact hp

namespace Desk

theorem Reached.obeys (h : Reached t d n v d') (hn : n ≤ k) (hv : v.Orderly)
    (hc : (d.view t).Confined root v)
    (hs : ∀ {n a}, d.view t (.node n) = none → v (.node n) = some a → types a.type) :
    d.Obeys t root k types d' := by
  obtain ⟨hsteps, hsane, rfl⟩ := h
  exact ⟨⟨n, hn, hsteps⟩, hsane, hv, hc, hs⟩

/-- Work that has not changed the view obeys. -/
theorem Reached.idle (h : Reached t d 0 (d.view t) d') (hv : (d.view t).Orderly) :
    d.Obeys t root k types d' :=
  h.obeys (Nat.zero_le k) hv .refl fun hn ha => by cases hn.symm.trans ha

/-- Objects that a tenant may remove were removed. -/
theorem Reached.lessened {gone : List ObjectId} (h : Reached t d n ((d.view t).without gone) d')
    (hok : ((d.view t).without gone).Orderly ∧
      (d.view t).Confined root ((d.view t).without gone)) : d.Obeys t root n types d' := by
  refine h.obeys (Nat.le_refl n) hok.1 hok.2 fun {m a} hm ha => ?_
  have hnone : (d.view t).without gone (.node m) = none := by
    unfold View.without
    rw [hm]
    split <;> rfl
  cases hnone.symm.trans ha

theorem Grew.trans {ends : NodeId → Prop} {v' : View} (h : Grew t d₀ N root ends types v' d)
    (hg : v.Grown root ends types v') : Grew t d₀ N root ends types v d := by
  obtain ⟨n, v'', hn, h'', hv'', hg''⟩ := h
  exact ⟨n, v'', hn, h'', hv'', hg.trans hg''⟩

theorem Grew.obeys (h : Grew t d N root ((d.view t).Allows root) types (d.view t) d')
    (hn : N ≤ k) : d.Obeys t root k types d' := by
  obtain ⟨n, v', hn', h', hv', hg⟩ := h
  exact h'.obeys (hn'.trans hn) hv' (hg.confined fun he ha => he _ ha) hg.sprouts

/-! ## Building -/

/-- Linking a node to several others, all of which are seen. -/
theorem Reached.links (h : Reached t d 0 (d.view t) d') (hv : (d.view t).Orderly) (actor : Actor)
    (type : TypeId) (fields : Fields) (directed : Bool) {source : NodeId} {targets : List NodeId}
    (ha : d.shared.mint.Ample (2 * targets.length) (d.Knows t))
    (hsource : (d.view t).Permits actor.requester source .connect)
    (htargets : ∀ m ∈ targets, (d.view t).Permits actor.requester m .connect) :
    Work.Ends (targets.mapM fun target => actor.link source target type fields directed) d'
      (fun _ d' => d.Obeys t actor.requester (2 * targets.length) types d') fun _ _ => False := by
  have hstart : (∀ m ∈ targets, m ∈ targets) ∧ ∃ n v', n + 2 * targets.length ≤ 2 * targets.length ∧
      Reached t d n v' d' ∧ v'.Orderly ∧
      (d.view t).Grown actor.requester ((d.view t).Allows actor.requester) types v' :=
    ⟨fun _ hm => hm, 0, _, by omega, h, hv, .refl⟩
  refine (Work.Ends.mapM (J := fun rest d' => (∀ m ∈ rest, m ∈ targets) ∧
    ∃ n v', n + 2 * rest.length ≤ 2 * targets.length ∧ Reached t d n v' d' ∧ v'.Orderly ∧
      (d.view t).Grown actor.requester ((d.view t).Allows actor.requester) types v') hstart ?_).mono
    ?_ fun _ _ hf => hf
  · rintro target rest d₁ ⟨hsub, n, v', hn, h₁, hv', hg⟩
    rw [List.length_cons] at hn
    have hthere : ∀ {m}, (d.view t).Permits actor.requester m .connect →
        ∃ a, v' (.node m) = some a := by
      rintro m ⟨a, ha, _⟩
      obtain ⟨b, hb, _⟩ := hg.old ha
      exact ⟨b, hb⟩
    have htarget := htargets target (hsub target (List.mem_cons_self ..))
    refine (h₁.link ha (by omega) hv' (hthere hsource) (hthere htarget) actor type fields directed
      types hsource.allows htarget.allows).imp ?_
    rintro _ d₂ ⟨n', v'', hn', h₂, hv'', hg'⟩
    exact ⟨fun m hm => hsub m (List.mem_cons_of_mem _ hm), n',
      v'', by omega, h₂, hv'', hg.trans hg'⟩
  · rintro _ d₁ ⟨_, n, v', hn, h₁, hv', hg⟩
    exact Grew.obeys ⟨n, v', by simpa using hn, h₁, hv', hg⟩ (Nat.le_refl _)

namespace Sane

theorem create (hs : d.Sane t) (hv : (d.view t).Orderly)
    (ha : d.shared.mint.Ample 1 (d.Knows t)) (actor : Actor) (type : String) (fields : Fields) :
    (actor.create type fields).Obeys t actor.requester 1 (TypeId.Creatable type) d := by
  refine ((Reached.refl hs).create ha (by omega) hv actor type fields
    ((d.view t).Allows actor.requester)).mono ?_ fun _ _ hd => hd.idle hv
  rintro m d₁ ⟨_, v', _, h₁, hv', hg⟩
  exact Grew.obeys ⟨_, v', Nat.le_refl _, h₁, hv', hg⟩ (Nat.le_refl _)

theorem createLinked (hs : d.Sane t) (hv : (d.view t).Orderly)
    (ha : d.shared.mint.Ample 3 (d.Knows t)) (actor : Actor) (source : NodeId) (type : String)
    (fields : Fields) (edgeType : String) :
    (actor.createLinked source type fields edgeType).Obeys t actor.requester 3
      (TypeId.Creatable type) d := by
  refine .bind (((Reached.refl hs).resolve actor .edge edgeType).mono ?_ fun _ _ hd => hd.idle hv)
  rintro edgeTypeId d₁ ⟨_, h₁⟩
  refine .bind ((h₁.reads (.fillFields actor edgeTypeId _)).mono ?_ fun _ _ hd => hd.idle hv)
  intro filled d₂ h₂
  refine .bind ((h₂.checkEnd actor source .connect).mono ?_ fun _ _ hd => hd.idle hv)
  rintro _ d₃ ⟨hsource, h₃⟩
  refine .bind ((h₃.create ha (by omega) hv actor type fields
    ((d.view t).Allows actor.requester)).mono ?_ fun _ _ hd => hd.idle hv)
  rintro m d₄ ⟨hm, v', hm', h₄, hv', hg⟩
  have hsource' : ∃ a, v' (.node source) = some a := by
    obtain ⟨a, ha, _⟩ := hsource
    obtain ⟨b, hb, _⟩ := hg.old ha
    exact ⟨b, hb⟩
  have hallows : (d.view t).Allows actor.requester m := fun a ha => by
    cases hm.symm.trans ha
  refine (h₄.link ha (by omega) hv' hsource' hm' actor edgeTypeId filled true
    (TypeId.Creatable type) hsource.allows hallows).surely.andThen ?_
  exact fun e d₅ h₅ => .pure ((h₅.trans hg).obeys (Nat.le_refl _))

theorem connect (hs : d.Sane t) (hv : (d.view t).Orderly)
    (ha : d.shared.mint.Ample 2 (d.Knows t)) (actor : Actor) (source target : NodeId)
    (edgeType : String) (fields : Fields) (directed : Bool) :
    (actor.connect source target edgeType fields directed).Obeys t actor.requester 2 types d := by
  refine .bind (((Reached.refl hs).resolve actor .edge edgeType).mono ?_ fun _ _ hd => hd.idle hv)
  rintro typeId d₁ ⟨_, h₁⟩
  refine .bind ((h₁.reads (.fillFields actor typeId fields)).mono ?_ fun _ _ hd => hd.idle hv)
  intro filled d₂ h₂
  refine .bind ((h₂.checkEnd actor source .connect).mono ?_ fun _ _ hd => hd.idle hv)
  rintro _ d₃ ⟨hsource, h₃⟩
  refine .bind ((h₃.checkEnd actor target .connect).mono ?_ fun _ _ hd => hd.idle hv)
  rintro _ d₄ ⟨htarget, h₄⟩
  exact (h₄.link ha (by omega) hv hsource.sees htarget.sees actor typeId filled directed
    types hsource.allows htarget.allows).mono (fun _ _ hd => hd.obeys (by omega))
      fun _ _ hf => hf.elim

theorem connectMany (hs : d.Sane t) (hv : (d.view t).Orderly) (actor : Actor) (source : NodeId)
    {targets : List NodeId} (edgeType : String) (fields : Fields) (directed : Bool)
    (ha : d.shared.mint.Ample (2 * targets.length) (d.Knows t)) :
    (actor.connectMany source targets edgeType fields directed).Obeys t actor.requester
      (2 * targets.length) types d := by
  refine .bind (((Reached.refl hs).resolve actor .edge edgeType).mono ?_ fun _ _ hd => hd.idle hv)
  rintro typeId d₁ ⟨_, h₁⟩
  refine .bind ((h₁.reads (.fillFields actor typeId fields)).mono ?_ fun _ _ hd => hd.idle hv)
  intro filled d₂ h₂
  refine .bind ((h₂.checkEnd actor source .connect).mono ?_ fun _ _ hd => hd.idle hv)
  rintro _ d₃ ⟨hsource, h₃⟩
  have hstart : ∀ m ∈ targets, m ∈ targets ∨ (d.view t).Permits actor.requester m .connect :=
    fun _ hm => .inl hm
  refine (Work.Ends.forM (J := fun rest d' => (∀ m ∈ targets, m ∈ rest ∨
    (d.view t).Permits actor.requester m .connect) ∧ Reached t d 0 (d.view t) d')
    ⟨hstart, h₃⟩ ?_).andThen ?_
  · rintro target rest d₄ ⟨hseen, h₄⟩
    refine .bind ((h₄.checkEnd actor target .connect).mono ?_ fun _ _ hd => hd.idle hv)
    rintro _ d₅ ⟨htarget, h₅⟩
    refine .pure ⟨fun m hm => ?_, h₅⟩
    rcases hseen m hm with hm | hm
    · rcases List.mem_cons.1 hm with rfl | hm
      · exact .inr htarget
      · exact .inl hm
    · exact .inr hm
  · rintro _ d₄ ⟨hseen, h₄⟩
    exact (h₄.links hv actor typeId filled directed ha hsource
      fun m hm => (hseen m hm).resolve_left List.not_mem_nil).mono (fun _ _ hd => hd)
      fun _ _ hf => hf.elim

end Sane

/-! ## Removing -/

namespace Reached

theorem destroyable (h : Reached t d₀ n v d) (actor : Actor) (m : NodeId) :
    Work.Ends (actor.destroyable m) d (fun r d' => (∃ a, NodeIn v m a r ∧
      a.effective actor.requester = some .write ∧ a.type ≠ rootType) ∧ Reached t d₀ n v d')
      fun _ => Reached t d₀ n v := by
  refine (h.check actor m .write).andThen ?_
  rintro a d₁ ⟨ha, hperm, h₁⟩
  cases hr : a.node? with
  | none => exact .bind (.throw h₁)
  | some r =>
    refine .bind (.pure ?_)
    split
    · exact .throw h₁
    · rename_i hty
      exact .pure ⟨⟨a.clean, ⟨ha, hr⟩, Anchor.effective_of_permits hperm,
        fun hh => hty ((Anchor.type_of_node? hr).symm.trans hh)⟩, h₁⟩

theorem doomed (h : Reached t d₀ n v d) (hv : v.Orderly) {m : NodeId} {a : Anchor} {r : NodeRecord}
    (ha : NodeIn v m a r) :
    Work.Ends (Actor.doomed r) d (fun edges d' => Reached t d₀ n v d' ∧
      ∀ e, e ∈ edges.keys ↔ ∃ p, e ∈ r.edgesAt p) fun _ _ => False := by
  rw [← h.view_eq] at hv ha
  refine ((Fetched.refl h.sane.above).doomed hv.toConsistent hv.mirrored ha).imp ?_
  exact fun _ _ hd => ⟨h.fetched hd.1, hd.2⟩

end Reached

namespace Sane

theorem disconnect (hs : d.Sane t) (hv : (d.view t).Orderly) (actor : Actor) (e : EdgeId) :
    (actor.disconnect e).Obeys t actor.requester 0 types d := by
  refine ((Reached.refl hs).loadEdge e).surely.andThen ?_
  rintro found d₁ ⟨hfound, h₁⟩
  cases found with
  | none => exact .bind (.throw (h₁.idle hv))
  | some r =>
  obtain ⟨a, ha, hr⟩ := Option.bind_eq_some_iff.1 hfound.symm
  refine .bind (.pure (.bind ((h₁.checkEnd actor r.source .connect).mono ?_
    fun _ _ hd => hd.idle hv)))
  rintro _ d₂ ⟨hsource, h₂⟩
  refine .bind ((h₂.checkEnd actor r.target .connect).mono ?_ fun _ _ hd => hd.idle hv)
  rintro _ d₃ ⟨htarget, h₃⟩
  have hboth : ∀ p, (d.view t).Permits actor.requester (r.endAt p) .connect := by
    rintro (_ | _)
    · exact hsource
    · exact htarget
  have hok := hv.unlinked ⟨ha, hr⟩ hboth
  rw [← View.without_nil (d.view t)] at h₃
  refine (h₃.unlink hv.toConsistent e).surely.andThen ?_
  intro _ d₄ h₄
  cases htwin : r.twin with
  | none =>
    rw [htwin] at hok
    exact .pure (h₄.lessened hok)
  | some twin =>
    rw [htwin] at hok
    exact (h₄.unlink hv.toConsistent twin).mono (fun _ d₅ h₅ => h₅.lessened hok)
      fun _ _ hf => hf.elim

theorem destroy (hs : d.Sane t) (hv : (d.view t).Orderly) (actor : Actor) (m : NodeId) :
    (actor.destroy m).Obeys t actor.requester 0 types d := by
  refine .bind (((Reached.refl hs).destroyable actor m).mono ?_ fun _ _ hd => hd.idle hv)
  rintro r d₁ ⟨⟨a, ha, hw, hty⟩, h₁⟩
  refine (h₁.doomed hv ha).surely.andThen ?_
  rintro edges d₂ ⟨h₂, hedges⟩
  refine (h₂.unlinks hv.toConsistent edges.keys).surely.andThen ?_
  intro _ d₃ h₃
  refine (h₃.delete (.node m)).mono (fun _ d₄ h₄ => ?_) fun _ _ hf => hf.elim
  rw [View.without_erase_node] at h₄
  exact h₄.lessened (hv.removal ha hw hty hedges)

theorem destroyIsolated (hs : d.Sane t) (hv : (d.view t).Orderly) (actor : Actor) (m : NodeId) :
    (actor.destroyIsolated m).Obeys t actor.requester 0 types d := by
  refine .bind (((Reached.refl hs).destroyable actor m).mono ?_ fun _ _ hd => hd.idle hv)
  rintro r d₁ ⟨⟨a, ha, hw, hty⟩, h₁⟩
  split
  · exact .throw (h₁.idle hv)
  rename_i hisolated
  have hempty : r.outgoing = [] ∧ r.incoming = [] := by
    simpa [NodeRecord.isIncident] using hisolated
  rw [← View.without_nil (d.view t)] at h₁
  refine (h₁.delete (.node m)).mono (fun _ d₂ h₂ => ?_) fun _ _ hf => hf.elim
  rw [View.without_erase_node] at h₂
  have hnone : ∀ e, e ∈ [] ↔ ∃ p, e ∈ r.edgesAt p := by
    refine fun e => iff_of_false List.not_mem_nil ?_
    rintro ⟨_ | _, hin⟩
    · simp [NodeRecord.edgesAt, hempty.1] at hin
    · simp [NodeRecord.edgesAt, hempty.2] at hin
  exact h₂.lessened (hv.removal ha hw hty hnone)

end Sane

/-! ## Editing -/

theorem Reached.updateLinked (h : Reached t d 0 (d.view t) d') (hv : (d.view t).Orderly)
    {change : Anchor → Anchor} (hc : Anchor.Cosmetic change) {id : ObjectId} {a : Anchor}
    (ha : d.view t id = some a) (hw : a.effective root = some .write) :
    Work.Ends (Actor.updateLinked id change) d' (fun _ d'' => d.Obeys t root 0 types d'')
      fun _ _ => False := by
  refine (h.update? id hc.toMild).andThen ?_
  rintro found d₁ ⟨hfound, h₁⟩
  obtain ⟨before, rfl, rfl⟩ := Option.map_eq_some_iff.1 (hfound.trans ha)
  refine .bind (.pure ?_)
  cases htwin : before.edge?.bind (·.twin) with
  | none =>
    obtain ⟨hv', hconf⟩ := hv.edited hc ha hw htwin
    exact .pure (h₁.obeys (Nat.le_refl _) hv' hconf
      fun hn hb => by cases (View.modify_eq_none.2 hn).symm.trans hb)
  | some twin =>
    obtain ⟨r, hr, ht⟩ := Option.bind_eq_some_iff.1 htwin
    cases id with
    | node m =>
      obtain ⟨s, hs⟩ := hv.nodes ha
      cases hb : before.body <;> simp [Anchor.node?, Anchor.edge?, Anchor.clean, hb] at hr hs
    | edge e =>
      obtain ⟨hv', hconf⟩ := hv.editedTwins hc ⟨ha, hr⟩ ht hw
      obtain ⟨b, s, hb, _⟩ := hv.twinned ⟨ha, hr⟩ ht
      refine (h₁.update? (.edge twin) hc.toMild).andThen ?_
      rintro found d₂ ⟨hfound, h₂⟩
      have hsome : ∃ x, found = some x := by
        cases found with
        | some x => exact ⟨x, rfl⟩
        | none => cases (View.modify_eq_none.1 hfound.symm).symm.trans hb.1
      obtain ⟨x, rfl⟩ := hsome
      exact .bind (.pure (.pure (h₂.obeys (Nat.le_refl _) hv' hconf fun hn hb => by
        cases (View.modify_eq_none.2 (View.modify_eq_none.2 hn)).symm.trans hb)))

namespace Sane

theorem setField (hs : d.Sane t) (hv : (d.view t).Orderly) (actor : Actor) (id : ObjectId)
    (field : String) (value : Value) :
    (actor.setField id field value).Obeys t actor.requester 0 types d := by
  refine .bind (((Reached.refl hs).check actor id .write).mono ?_ fun _ _ hd => hd.idle hv)
  rintro a d₁ ⟨ha, hp, h₁⟩
  simp only
  split
  · exact .throw (h₁.idle hv)
  · have hright := Anchor.effective_of_permits hp
    exact (h₁.updateLinked hv (.setField field value) ha hright).surely.andThen
      fun _ _ hd => .pure hd

theorem changeAccess (hs : d.Sane t) (hv : (d.view t).Orderly) (actor : Actor) (id : ObjectId)
    (change : Access → Access) :
    (actor.changeAccess id change).Obeys t actor.requester 0 types d := by
  refine .bind (((Reached.refl hs).check actor id .write).mono ?_ fun _ _ hd => hd.idle hv)
  rintro a d₁ ⟨ha, hp, h₁⟩
  have hright := Anchor.effective_of_permits hp
  exact (h₁.updateLinked hv (.setAccess change) ha hright).surely.andThen fun _ _ hd => .pure hd

/-! ## All operations -/

/-- Work that does nothing but read obeys. -/
theorem reads {α : Type} {w : Work σ α} (hs : d.Sane t) (hv : (d.view t).Orderly) (hw : Reads w) :
    w.Obeys t root k types d :=
  ((Reached.refl hs).reads hw).mono (fun _ _ hd => hd.idle hv) fun _ _ hd => hd.idle hv

/-- What happens at the end of a request obeys. -/
theorem evict (hs : d.Sane t) (types : TypeId → Prop) (hv : (d.view t).Orderly) (root : RootId) :
    Work.Ends (Desk.evictUnreachable root) d (fun _ d' => d.Obeys t root 0 types d')
      fun _ _ => False := by
  refine (hs.evictUnreachable hv.toConsistent root).imp ?_
  rintro gone d₁ ⟨hgone, h₁⟩
  refine h₁.lessened (hv.cascade (fun hn ha => ?_) fun e => ?_)
  · obtain ⟨b, hb, hown, hty⟩ := ((hgone.nodes _).1 hn).owned
    rw [ha] at hb
    cases hb
    exact ⟨Anchor.effective_of_owner hown, hty⟩
  · rw [hgone.edges]
    simp only [hgone.nodes]

end Sane

end Desk

/-- The types of the nodes that an operation may create. -/
def Op.Creates : Op → TypeId → Prop
  | .create type .. => TypeId.Creatable type
  | .createLinked _ type .. => TypeId.Creatable type
  | _ => fun _ => False

/-- Every operation obeys, also when it fails. -/
theorem Desk.Sane.perform (hs : d.Sane t) (hv : (d.view t).Orderly) (op : Op) (actor : Actor)
    (ha : d.shared.mint.Ample op.mints (d.Knows t)) :
    (op.run actor).Obeys t actor.requester op.mints op.Creates d := by
  cases op with
  | create type fields => exact hs.create hv ha actor type fields
  | createLinked source type fields edgeType =>
    exact hs.createLinked hv ha actor source type fields edgeType
  | connect source target edgeType fields directed =>
    exact hs.connect hv ha actor source target edgeType fields directed
  | connectMany source targets edgeType fields directed =>
    exact hs.connectMany hv actor source edgeType fields directed ha
  | disconnect e => exact hs.disconnect hv actor e
  | destroy m => exact hs.destroy hv actor m
  | destroyIsolated m => exact hs.destroyIsolated hv actor m
  | setField id field value => exact hs.setField hv actor id field value
  | grant id level =>
    exact (hs.changeAccess hv actor id _).andThen fun _ _ hd => .pure hd
  | revoke id =>
    exact (hs.changeAccess hv actor id _).andThen fun _ _ hd => .pure hd
  | allow id root level =>
    exact (hs.changeAccess hv actor id _).andThen fun _ _ hd => .pure hd
  | disallow id root =>
    exact (hs.changeAccess hv actor id _).andThen fun _ _ hd => .pure hd
  | _ => exact hs.reads hv (.run rfl actor)

/-- Tenants are confined. Whatever operation is carried out on behalf of a
tenant, and whether it succeeds or fails, the view differs afterwards only as
the tenant may change it, and so it does after the reclaiming at the end of a
request. Every view stays in order.

That the view is in order (`View.Orderly`) means that lists and ends agree and
that both halves of an undirected link run opposite, name each other and have
the same owner and the same access list (`View.Twinned`): whoever may change
one half may then change the other. That the desk is `Sane` and the mint
`Ample` means that an identity stands for one object only. -/
theorem Desk.tenants_are_confined (hs : d.Sane t) (hv : (d.view t).Orderly) (actor : Actor) :
    (∀ op : Op, d.shared.mint.Ample op.mints (d.Knows t) → Work.Ends (op.run actor) d
      (fun _ d' => (d.view t).Confined actor.requester (d'.view t) ∧ (d'.view t).Orderly)
      fun _ d' => (d.view t).Confined actor.requester (d'.view t) ∧ (d'.view t).Orderly) ∧
    Work.Ends (Desk.evictUnreachable actor.requester) d
      (fun _ d' => (d.view t).Confined actor.requester (d'.view t) ∧ (d'.view t).Orderly)
      fun _ _ => False :=
  ⟨fun op ha => (hs.perform hv op actor ha).mono (fun _ _ hd => ⟨hd.confined, hd.orderly⟩)
      fun _ _ hd => ⟨hd.confined, hd.orderly⟩,
    (hs.evict (fun _ => False) hv actor.requester).mono
      (fun _ _ hd => ⟨hd.confined, hd.orderly⟩) fun _ _ hf => hf⟩

namespace TwoTenants

/-- The tenant that acts. -/
def settler : RootId := ⟨⟨⟨1⟩⟩⟩

/-- The tenant beyond the frontier. -/
def neighbor : RootId := ⟨⟨⟨2⟩⟩⟩

/-- A place of the settler's and one of the neighbor's, to which everybody may
link, with an undirected link between them. The half that leads back may
belong to another tenant than the settler. -/
def anchors (back : RootId) : List Anchor :=
  [.place settler ⟨⟨3⟩⟩ [⟨⟨5⟩⟩] [⟨⟨6⟩⟩],
    { Anchor.place neighbor ⟨⟨4⟩⟩ [⟨⟨6⟩⟩] [⟨⟨5⟩⟩] with
      access := Access.ownerOnly.grant .connect },
    .path settler ⟨⟨5⟩⟩ ⟨⟨3⟩⟩ ⟨⟨4⟩⟩ (some ⟨⟨6⟩⟩),
    .path back ⟨⟨6⟩⟩ ⟨⟨4⟩⟩ ⟨⟨3⟩⟩ (some ⟨⟨5⟩⟩)]

def desk (back : RootId) : Desk Vault := .opening ⟨⟨0⟩, 0⟩ (anchors back)

/-- What a request sees at the frontier. -/
def sight (back : RootId) (d : Desk Vault) : View := d.view (.shelved (anchors back))

/-- A request of the settler's that has kept to what it may do. -/
def Lawful (d : Desk Vault) : Prop :=
  (sight settler (desk settler)).Confined settler (sight settler d) ∧
    (sight settler d).Orderly

theorem sane (back : RootId) : (desk back).Sane (.shelved (anchors back)) := by
  refine Desk.opening_sane fun a ha => ?_
  have hversions : (anchors back).all (fun a => decide (a.version ≠ 0)) = true := rfl
  exact of_decide_eq_true (List.all_eq_true.1 hversions a ha)

theorem orderly : (sight settler (desk settler)).Orderly :=
  ⟨Desk.opening_consistent (by decide), Desk.opening_twinned (by decide) (by decide)⟩

/-- The next two edges are new. -/
theorem ample {k : Nat} (hk : k ≤ 2) : (desk settler).shared.mint.Ample k
    ((desk settler).Knows (.shelved (anchors settler))) := by
  have hnames : ((desk settler).shared.mint.upcoming 2).Nodup ∧
      ∀ id ∈ (desk settler).shared.mint.upcoming 2, ∀ a ∈ anchors settler, a.id ≠ id := by
    decide +kernel
  refine (Mint.ample_of_nodup hnames.1 fun id hid hknown => ?_).mono hk fun _ h => h
  obtain ⟨a, ha, rfl⟩ := Desk.knows_opening hknown
  exact hnames.2 _ hid a ha rfl

end TwoTenants

/-- The settler links its place with the neighbor's once more; it opens the
half of the link that leads there, which opens the other half too; and it
destroys its place, which takes both halves off the neighbor's. -/
theorem Desk.tenants_are_confined_at_shared_link :
    (∃ e d', (Op.connect ⟨⟨3⟩⟩ ⟨⟨4⟩⟩ "road" Fields.empty false).run (.builder TwoTenants.settler)
        (TwoTenants.desk TwoTenants.settler) = .ok e d' ∧ TwoTenants.Lawful d' ∧
      ((TwoTenants.sight TwoTenants.settler d').lists ⟨⟨4⟩⟩).map Prod.snd = some [⟨⟨5⟩⟩, e]) ∧
    (∃ d', (Op.grant (.edge ⟨⟨5⟩⟩) .read).run (.builder TwoTenants.settler)
        (TwoTenants.desk TwoTenants.settler) = .ok () d' ∧ TwoTenants.Lawful d' ∧
      (TwoTenants.sight TwoTenants.settler d' (.edge ⟨⟨6⟩⟩)).map (·.access) =
        some (Access.ownerOnly.grant .read)) ∧
    ∃ d', (Op.destroy ⟨⟨3⟩⟩).run (.builder TwoTenants.settler)
        (TwoTenants.desk TwoTenants.settler) = .ok () d' ∧ TwoTenants.Lawful d' ∧
      (TwoTenants.sight TwoTenants.settler d').lists ⟨⟨4⟩⟩ = some ([], []) := by
  obtain ⟨hops, -⟩ := tenants_are_confined (TwoTenants.sane TwoTenants.settler) TwoTenants.orderly
    (.builder TwoTenants.settler)
  have hlawful : ∀ (op : Op) {x : op.Answer} {d' : Desk Vault}, op.mints ≤ 2 →
      op.run (.builder TwoTenants.settler) (TwoTenants.desk TwoTenants.settler) = .ok x d' →
      TwoTenants.Lawful d' :=
    fun op _ _ hmints hrun => (hops op (TwoTenants.ample hmints)).ok hrun
  have hlinked : ((Op.connect ⟨⟨3⟩⟩ ⟨⟨4⟩⟩ "road" Fields.empty false).run
      (.builder TwoTenants.settler)).answersWith (TwoTenants.desk TwoTenants.settler) (fun e d' =>
        ((TwoTenants.sight TwoTenants.settler d').lists ⟨⟨4⟩⟩).map Prod.snd = some [⟨⟨5⟩⟩, e]) =
          true := by
    decide +kernel
  have hopened : ((Op.grant (.edge ⟨⟨5⟩⟩) .read).run
      (.builder TwoTenants.settler)).answersWith (TwoTenants.desk TwoTenants.settler) (fun _ d' =>
        (TwoTenants.sight TwoTenants.settler d' (.edge ⟨⟨6⟩⟩)).map (·.access) =
          some (Access.ownerOnly.grant .read)) = true := by
    decide +kernel
  have hcleared : ((Op.destroy ⟨⟨3⟩⟩).run
      (.builder TwoTenants.settler)).answersWith (TwoTenants.desk TwoTenants.settler) (fun _ d' =>
        (TwoTenants.sight TwoTenants.settler d').lists ⟨⟨4⟩⟩ = some ([], [])) = true := by
    decide +kernel
  obtain ⟨e, d₁, hrun₁, hsaw₁⟩ := Work.exists_of_answersWith hlinked
  obtain ⟨_, d₂, hrun₂, hsaw₂⟩ := Work.exists_of_answersWith hopened
  obtain ⟨_, d₃, hrun₃, hsaw₃⟩ := Work.exists_of_answersWith hcleared
  exact ⟨⟨e, d₁, hrun₁, hlawful (.connect ..) (Nat.le_refl 2) hrun₁, of_decide_eq_true hsaw₁⟩,
    ⟨d₂, hrun₂, hlawful (.grant ..) (Nat.zero_le 2) hrun₂, of_decide_eq_true hsaw₂⟩,
    d₃, hrun₃, hlawful (.destroy _) (Nat.zero_le 2) hrun₃, of_decide_eq_true hsaw₃⟩

/-- If the half that leads back belongs to the neighbor, the settler opens it
all the same, though it may not even read it. -/
theorem Desk.granting_may_open_foreign_half :
    ∃ (t : Tier Vault) (d : Desk Vault) (actor : Actor) (e twin : EdgeId),
      d.Sane t ∧ (d.view t).Consistent ∧ (d.view t).Mirrored ∧
      ∃ d', (Op.grant (.edge e) .read).run actor d = .ok () d' ∧
        ∃ a b, d.view t (.edge twin) = some a ∧ d'.view t (.edge twin) = some b ∧
          b.access ≠ a.access ∧ a.effective actor.requester = none := by
  have hopened : ((Op.grant (.edge ⟨⟨5⟩⟩) .read).run
      (.builder TwoTenants.settler)).answersWith (TwoTenants.desk TwoTenants.neighbor) (fun _ d' =>
        (TwoTenants.sight TwoTenants.neighbor d' (.edge ⟨⟨6⟩⟩)).map (·.access) =
          some (Access.ownerOnly.grant .read)) = true := by
    decide +kernel
  obtain ⟨_, d', hrun, hsaw⟩ := Work.exists_of_answersWith hopened
  obtain ⟨b, hb, haccess⟩ := Option.map_eq_some_iff.1 (of_decide_eq_true hsaw)
  refine ⟨_, TwoTenants.desk TwoTenants.neighbor, _, ⟨⟨5⟩⟩, ⟨⟨6⟩⟩, TwoTenants.sane _,
    opening_consistent (by decide), opening_mirrored (by decide), d', hrun, _, b,
    opening_seen rfl, hb, ?_, rfl⟩
  rw [haccess]
  decide

section Arrival

variable {vault : Vault} {t : Tier Vault} {a : Anchor} {m : NodeId}

theorem Desk.arrival_orderly (h : ∀ id, id ≠ a.id → t.content.get? id = none)
    (hid : a.id = .node m) {type : TypeId} {fields : Fields}
    (hr : a.node? = some (NodeRecord.isolated type fields)) :
    ((arrival vault a).view t).Orderly := by
  refine ⟨arrival_consistent h hid hr, fun hb _ => ?_⟩
  have hb := hb.1
  rw [view_arrival h, hid, if_neg (by simp)] at hb
  cases hb

/-- If the identity of a new object was stored all the same, its removal puts
somebody else's object in its place. -/
theorem Desk.destroying_may_swap : ∃ (t : Tier Vault) (d : Desk Vault) (actor : Actor) (m : NodeId),
    d.Over t ∧ d.draft.Keyed ∧ (d.view t).Orderly ∧ ∃ d', (Op.destroy m).run actor d = .ok () d' ∧
      ∃ a b, d.view t (.node m) = some a ∧ d'.view t (.node m) = some b ∧ b.owner ≠ a.owner := by
  have hother : ∀ id, id ≠ Anchor.newcomer.id → Tier.ofNamesake.content.get? id = none :=
    fun id hid => (Vault.get?_ofNamesake id).trans (if_neg hid)
  refine ⟨.ofNamesake, arrival Vault.ofNamesake Anchor.newcomer, ⟨default, ⟨⟨⟨2⟩⟩⟩⟩, ⟨⟨1⟩⟩,
    arrival_over rfl, arrival_keyed, arrival_orderly hother rfl rfl, ?_⟩
  have hback : ((Op.destroy ⟨⟨1⟩⟩).run ⟨default, ⟨⟨⟨2⟩⟩⟩⟩).answersWith
      (arrival Vault.ofNamesake Anchor.newcomer) (fun _ d' =>
        (d'.draft.view Vault.ofNamesake.anchors Anchor.newcomer.id).map (·.owner) =
          some Anchor.namesake.owner) = true := by
    decide +kernel
  obtain ⟨_, d', hrun, hswapped⟩ := Work.exists_of_answersWith hback
  obtain ⟨b, hb, hown⟩ := Option.map_eq_some_iff.1 (of_decide_eq_true hswapped)
  refine ⟨d', hrun, _, b.clean, (view_arrival hother _).trans (if_pos rfl),
    congrArg (Option.map Anchor.clean) hb, ?_⟩
  rw [Anchor.clean_owner, hown]
  decide

/-- Tenants are not confined if an identity is used twice, and neither are they
if the halves of a link may belong to different tenants. -/
theorem Desk.confinement_may_fail :
    (∃ (t : Tier Vault) (d d' : Desk Vault) (actor : Actor) (m : NodeId),
      d.Over t ∧ d.draft.Keyed ∧ (d.view t).Orderly ∧
      (Op.destroy m).run actor d = .ok () d' ∧
      ¬ (d.view t).Confined actor.requester (d'.view t)) ∧
    ∃ (t : Tier Vault) (d d' : Desk Vault) (actor : Actor) (e : EdgeId),
      d.Sane t ∧ (d.view t).Consistent ∧ (d.view t).Mirrored ∧
      (Op.grant (.edge e) .read).run actor d = .ok () d' ∧
      ¬ (d.view t).Confined actor.requester (d'.view t) := by
  constructor
  · obtain ⟨t, d, actor, m, hd, hk, hv, d', hrun, a, b, ha, hb, howner⟩ := destroying_may_swap
    exact ⟨t, d, d', actor, m, hd, hk, hv, hrun, fun h => howner (h.persists ha hb).owner⟩
  · obtain ⟨t, d, actor, e, twin, hs, hc, hm, d', hrun, a, b, ha, hb, haccess, hnone⟩ :=
      granting_may_open_foreign_half
    refine ⟨t, d, d', actor, e, hs, hc, hm, hrun, fun h => ?_⟩
    cases hnone.symm.trans (h.edits ha hb (.inr haccess))

end Arrival

end Wayfarer
