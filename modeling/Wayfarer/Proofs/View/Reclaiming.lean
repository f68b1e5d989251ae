import Wayfarer.Proofs.View.Finite
import Wayfarer.Proofs.View.Removing

/-!
# What reclaiming removes

`Desk.evictUnreachable` removes exactly the condemned nodes (`Desk.Condemned`)
with the edges at them, whatever durable tier the request works over.
-/

namespace Wayfarer

variable {σ : Type} [Durable σ] {t : Tier σ} {d d' : Desk σ} {root : RootId}

/-- The nodes that a request is to give up at its end: those it changed, owned
by the tenant, no roots and out of reach of any root, and the tenant's nodes
below such nodes that are out of reach too. -/
def Desk.Condemned (t : Tier σ) (d : Desk σ) (root : RootId) (n : NodeId) : Prop :=
  (d.view t).Doomed (d.view t).Leads (d.view t).Leads root (Reclaim.Touched d) n

/-- What a request gives up: the condemned nodes and the edges at them, each
once. -/
structure Desk.GivesUp (t : Tier σ) (d : Desk σ) (root : RootId) (gone : List ObjectId) : Prop where
  nodup : gone.Nodup
  nodes : ∀ n, ObjectId.node n ∈ gone ↔ d.Condemned t root n
  edges : ∀ e, ObjectId.edge e ∈ gone ↔
    ∃ a r, EdgeIn (d.view t) e a r ∧ ∃ p, d.Condemned t root (r.endAt p)

theorem Desk.Sane.evictUnreachable (hs : d.Sane t) (hc : (d.view t).Consistent) (root : RootId) :
    Work.Ends (Desk.evictUnreachable root) d (fun gone d' => d.GivesUp t root gone ∧
      Reached t d 0 ((d.view t).without gone) d') fun _ _ => False := by
  refine .bind (.get ((Reclaim.survey_ends hs.above hs.keyed root).andThen ?_))
  rintro dead d₁ ⟨hd₁, _, hdead⟩
  rw [hc.feeds_eq, hc.offers_eq] at hdead
  have hseen : ∀ m, dead.contains m = true → ∃ a r, NodeIn (d.view t) m a r := by
    intro m hm
    obtain ⟨a, ha, _⟩ := ((hdead m).1 hm).owned
    obtain ⟨r, hr⟩ := hc.nodes ha
    exact ⟨a, r, ha, hr⟩
  refine (((Desk.Reached.refl hs).fetched hd₁).removeNodes hc hseen).andThen ?_
  rintro answers d₂ ⟨hr, h₂⟩
  refine .pure ⟨⟨hr.nodup, fun n => ?_, fun e => ?_⟩, h₂⟩
  · rw [hr.nodes, hdead]
    exact and_iff_left List.not_mem_nil
  · rw [hr.edges]
    refine exists_congr fun a => exists_congr fun r => ?_
    rw [← exists_and_left]
    refine exists_congr fun p => and_congr_right fun _ => ?_
    rw [hdead]
    exact and_iff_left List.not_mem_nil

/-- A node that some root leads to is not given up, nor is an edge that leaves
such a node. -/
theorem Desk.GivesUp.spares {gone : List ObjectId} (h : d.GivesUp t root gone) {n : NodeId}
    (hn : (d.view t).Anchored n) : ObjectId.node n ∉ gone ∧
      ∀ {e a r}, EdgeIn (d.view t) e a r → r.source = n → ObjectId.edge e ∉ gone := by
  refine ⟨fun hgone => ((h.nodes n).1 hgone).not_rooted hn, fun {e a r} ha hsource hgone => ?_⟩
  obtain ⟨b, s, hb, p, hp⟩ := (h.edges e).1 hgone
  obtain ⟨_, rfl⟩ := ha.unique hb
  have hends : ∀ p, (d.view t).Anchored (r.endAt p) := by
    have hout : (d.view t).Anchored r.source := hsource ▸ hn
    rintro (_ | _)
    · exact hout
    · exact hout.step ⟨e, a, r, ha, rfl, rfl⟩
  exact hp.not_rooted (hends p)

/-- Reclaiming at the end of a request is exact. It always answers; what it
removes and lists, each object once, are the condemned nodes and the edges at
them; everything else is seen as before, but that nodes do not list edges that
were removed. Whatever a root leads to stays. -/
theorem Desk.reclaiming_is_exact (hs : d.Sane t) (hc : (d.view t).Consistent) (root : RootId) :
    ∃ gone d', Desk.evictUnreachable root d = .ok gone d' ∧ gone.Nodup ∧
      (∀ n, ObjectId.node n ∈ gone ↔ d.Condemned t root n) ∧
      (∀ e, ObjectId.edge e ∈ gone ↔ ∃ a r, EdgeIn (d.view t) e a r ∧
        (d.Condemned t root r.source ∨ d.Condemned t root r.target)) ∧
      d'.view t = (d.view t).without gone ∧
      ∀ n, (d.view t).Anchored n → ObjectId.node n ∉ gone ∧
        ∀ e a r, EdgeIn (d.view t) e a r → r.source = n → ObjectId.edge e ∉ gone := by
  obtain ⟨gone, d', hrun, hgone, hd'⟩ := (hs.evictUnreachable hc root).exists_ok
  refine ⟨gone, d', hrun, hgone.nodup, hgone.nodes, fun e => ?_, hd'.view_eq, fun n hn => ?_⟩
  · rw [hgone.edges]
    refine exists_congr fun a => exists_congr fun r => and_congr_right fun _ => ?_
    constructor
    · rintro ⟨p, hp⟩
      cases p with
      | out => exact .inl hp
      | into => exact .inr hp
    · rintro (hp | hp)
      · exact ⟨.out, hp⟩
      · exact ⟨.into, hp⟩
  · have hspares := hgone.spares hn
    exact ⟨hspares.1, fun e a r ha hsource => hspares.2 ha hsource⟩

namespace Stranded

/-- The tenant whose request ends. -/
def keeper : RootId := ⟨⟨⟨1⟩⟩⟩

/-- Another tenant. -/
def guest : RootId := ⟨⟨⟨9⟩⟩⟩

/-- Two roads lead from the keeper's home to the place 2, and one from the
guest's home to the keeper's place 7. To the places 3 and 4 lead only the roads
between them; further roads lead from 3 to 2 and from 4 to the guest's place
5. -/
def anchors : List Anchor :=
  [.home keeper [⟨⟨11⟩⟩, ⟨⟨15⟩⟩], .home guest [⟨⟨17⟩⟩],
    .place keeper ⟨⟨2⟩⟩ [] [⟨⟨11⟩⟩, ⟨⟨14⟩⟩, ⟨⟨15⟩⟩],
    .place keeper ⟨⟨3⟩⟩ [⟨⟨12⟩⟩, ⟨⟨14⟩⟩] [⟨⟨13⟩⟩],
    .place keeper ⟨⟨4⟩⟩ [⟨⟨13⟩⟩, ⟨⟨16⟩⟩] [⟨⟨12⟩⟩],
    .place guest ⟨⟨5⟩⟩ [] [⟨⟨16⟩⟩], .place keeper ⟨⟨7⟩⟩ [] [⟨⟨17⟩⟩],
    .path keeper ⟨⟨11⟩⟩ ⟨⟨1⟩⟩ ⟨⟨2⟩⟩ none, .path keeper ⟨⟨12⟩⟩ ⟨⟨3⟩⟩ ⟨⟨4⟩⟩ none,
    .path keeper ⟨⟨13⟩⟩ ⟨⟨4⟩⟩ ⟨⟨3⟩⟩ none, .path keeper ⟨⟨14⟩⟩ ⟨⟨3⟩⟩ ⟨⟨2⟩⟩ none,
    .path keeper ⟨⟨15⟩⟩ ⟨⟨1⟩⟩ ⟨⟨2⟩⟩ none, .path keeper ⟨⟨16⟩⟩ ⟨⟨4⟩⟩ ⟨⟨5⟩⟩ none,
    .path guest ⟨⟨17⟩⟩ ⟨⟨9⟩⟩ ⟨⟨7⟩⟩ none]

/-- The request has changed the places 3 and 7 and built the place 6. -/
def drafts : List Anchor :=
  [.place keeper ⟨⟨3⟩⟩ [⟨⟨12⟩⟩, ⟨⟨14⟩⟩] [⟨⟨13⟩⟩], .place keeper ⟨⟨7⟩⟩ [] [⟨⟨17⟩⟩],
    Anchor.ofNode ⟨⟨6⟩⟩ keeper (NodeRecord.isolated ⟨⟨4⟩⟩ Fields.empty)]

def desk : Desk Vault := .underway ⟨⟨0⟩, 0⟩ anchors drafts

/-- All that the request sees. -/
def seen : List Anchor := (drafts ++ anchors).map Anchor.clean

theorem view_desk : desk.view (.shelved anchors) = View.ofList seen := Desk.view_underway ..

theorem view_consistent : (desk.view (.shelved anchors)).Consistent := by
  rw [view_desk]
  exact View.consistent_ofList (by decide)

theorem sane : desk.Sane (.shelved anchors) := by
  refine ⟨Desk.underway_over .., Desk.underway_keyed .., fun {id a} ha hzero => ?_⟩
  rw [view_desk] at ha
  obtain ⟨hin, rfl⟩ := View.mem_of_ofList ha
  have hnovel : ∀ a ∈ seen, a.version = 0 →
      View.ofList (anchors.map Anchor.clean) a.id = none := by
    decide
  exact (Vault.get?_shelved anchors a.id).trans (hnovel a hin hzero)

/-- The keeper's places that a home leads to. -/
def kept : List NodeId := [⟨⟨2⟩⟩, ⟨⟨7⟩⟩]

/-- The keeper's places that no home leads to. -/
def lost : List NodeId := [⟨⟨3⟩⟩, ⟨⟨4⟩⟩, ⟨⟨6⟩⟩]

theorem anchored_of_kept {n : NodeId} (h : n ∈ kept) :
    (desk.view (.shelved anchors)).Anchored n := by
  rw [view_desk]
  unfold kept at h
  rw [List.mem_pair] at h
  rcases h with rfl | rfl
  · have hhome : (View.ofList seen).Anchored ⟨⟨1⟩⟩ := .of_root rfl rfl
    exact hhome.step ⟨⟨⟨11⟩⟩, _, _, ⟨rfl, rfl⟩, rfl, rfl⟩
  · have hhome : (View.ofList seen).Anchored ⟨⟨9⟩⟩ := .of_root rfl rfl
    exact hhome.step ⟨⟨⟨17⟩⟩, _, _, ⟨rfl, rfl⟩, rfl, rfl⟩

/-- No edge leads away from the homes and the places that are kept. -/
theorem kept_enclosed : View.Encloses seen (⟨⟨1⟩⟩ :: ⟨⟨9⟩⟩ :: kept) := by
  have hplaces : ∀ a ∈ seen, ∀ n ∈ a.id.node?, n ∈ ⟨⟨1⟩⟩ :: ⟨⟨9⟩⟩ :: kept ∨ a.type = ⟨⟨4⟩⟩ := by
    decide
  refine ⟨fun a ha n hn hroot => (hplaces a ha n hn).resolve_right fun htype => ?_, by decide⟩
  exact Anchor.place_plain default n [] [] (htype.symm.trans hroot)

theorem not_anchored_of_lost {n : NodeId} (h : n ∈ lost) :
    ¬ (desk.view (.shelved anchors)).Anchored n := by
  rw [view_desk]
  have hapart : ∀ n ∈ lost, n ∉ ⟨⟨1⟩⟩ :: ⟨⟨9⟩⟩ :: kept := by decide
  exact fun hn => hapart n h (View.anchored_ofList kept_enclosed hn)

theorem owned_of_lost {n : NodeId} (h : n ∈ lost) :
    (desk.view (.shelved anchors)).Owned keeper n := by
  rw [view_desk]
  have hplaces : ∀ n ∈ lost, ∃ a ∈ View.ofList seen (.node n), a.owner = keeper ∧
      a.type = ⟨⟨4⟩⟩ := by
    decide
  obtain ⟨a, ha, howner, htype⟩ := hplaces n h
  exact ⟨a, ha, howner, fun hroot => Anchor.place_plain default n [] [] (htype.symm.trans hroot)⟩

theorem condemned_iff {n : NodeId} :
    desk.Condemned (.shelved anchors) keeper n ↔ n ∈ lost := by
  constructor
  · intro h
    obtain ⟨a, ha, howner, htype⟩ := h.owned
    have hplaces : ∀ a ∈ seen, ∀ n ∈ a.id.node?, a.owner = keeper →
        n ∈ lost ∨ n ∈ kept ∨ n = ⟨⟨1⟩⟩ := by
      decide
    rw [view_desk] at ha
    obtain ⟨hin, hid⟩ := View.mem_of_ofList ha
    rcases hplaces a hin n (by rw [hid]; rfl) howner with hn | hn | rfl
    · exact hn
    · exact absurd (anchored_of_kept hn) h.not_rooted
    · have hhome : View.ofList seen (.node ⟨⟨1⟩⟩) =
          some (Anchor.home keeper [⟨⟨11⟩⟩, ⟨⟨15⟩⟩]).clean := rfl
      cases hhome.symm.trans ha
      exact absurd rfl htype
  · intro h
    have hthree : desk.Condemned (.shelved anchors) keeper ⟨⟨3⟩⟩ :=
      .first ⟨_, rfl, rfl⟩ (owned_of_lost (by decide)) (not_anchored_of_lost (by decide))
    unfold lost at h
    simp only [List.mem_cons, List.not_mem_nil, or_false] at h
    rcases h with rfl | rfl | rfl
    · exact hthree
    · refine hthree.next ?_ (owned_of_lost (by decide)) (not_anchored_of_lost (by decide))
      rw [view_desk]
      exact ⟨⟨⟨12⟩⟩, _, _, ⟨rfl, rfl⟩, rfl, rfl⟩
    · exact .first ⟨_, rfl, rfl⟩ (owned_of_lost (by decide)) (not_anchored_of_lost (by decide))

/-- The roads at the places that no home leads to. -/
def cut : List EdgeId := [⟨⟨12⟩⟩, ⟨⟨13⟩⟩, ⟨⟨14⟩⟩, ⟨⟨16⟩⟩]

theorem mem_cut_iff {e : EdgeId} : e ∈ cut ↔ ∃ a r, EdgeIn (desk.view (.shelved anchors)) e a r ∧
    (r.source ∈ lost ∨ r.target ∈ lost) := by
  rw [view_desk]
  constructor
  · have hroads : ∀ e ∈ cut, ∃ a ∈ View.ofList seen (.edge e), ∃ r ∈ a.edge?,
        r.source ∈ lost ∨ r.target ∈ lost := by
      decide
    intro he
    obtain ⟨a, ha, r, hr, hend⟩ := hroads e he
    exact ⟨a, r, ⟨ha, hr⟩, hend⟩
  · have hroads : ∀ a ∈ seen, ∀ e ∈ a.id.edge?, ∀ r ∈ a.edge?,
        r.source ∈ lost ∨ r.target ∈ lost → e ∈ cut := by
      decide
    rintro ⟨a, r, ha, hend⟩
    obtain ⟨hin, he, hr⟩ := View.edgeIn_ofList ha
    exact hroads a hin e he r hr hend

/-- What reclaiming is to remove. -/
def gone : List ObjectId := lost.map ObjectId.node ++ cut.map ObjectId.edge

end Stranded

/-- A cycle that no home leads to is given up with all roads at it, though the
request has changed only one of its places, and so is a new place without
roads. The places at the other ends of the roads stay and keep their other
roads in order, and so does the changed place that another tenant's home leads
to. -/
theorem Desk.stranded_cycle_is_reclaimed : ∃ gone d',
    Desk.evictUnreachable Stranded.keeper Stranded.desk = .ok gone d' ∧ gone.Nodup ∧
      (∀ id, id ∈ gone ↔ id ∈ Stranded.gone) ∧
      d'.view (.shelved Stranded.anchors) (.node ⟨⟨2⟩⟩) =
        some (.place Stranded.keeper ⟨⟨2⟩⟩ [] [⟨⟨11⟩⟩, ⟨⟨15⟩⟩]) ∧
      d'.view (.shelved Stranded.anchors) (.node ⟨⟨5⟩⟩) =
        some (.place Stranded.guest ⟨⟨5⟩⟩ [] []) ∧
      d'.view (.shelved Stranded.anchors) (.node ⟨⟨7⟩⟩) =
        some (.place Stranded.keeper ⟨⟨7⟩⟩ [] [⟨⟨17⟩⟩]) := by
  obtain ⟨gone, d', hrun, hnodup, hnodes, hedges, hview, -⟩ :=
    reclaiming_is_exact Stranded.sane Stranded.view_consistent Stranded.keeper
  have hgone : ∀ id, id ∈ gone ↔ id ∈ Stranded.gone := by
    rintro (n | e)
    · rw [hnodes, Stranded.condemned_iff]
      simp [Stranded.gone]
    · rw [hedges]
      simp only [Stranded.condemned_iff, ← Stranded.mem_cut_iff]
      simp [Stranded.gone]
  rw [View.without_congr hgone, Stranded.view_desk] at hview
  refine ⟨gone, d', hrun, hnodup, hgone, ?_⟩
  rw [hview]
  exact ⟨rfl, rfl, rfl⟩

section Arrival

/-- A request over a vault, in which one object was created. -/
def Desk.arrival (vault : Vault) (a : Anchor) : Desk Vault :=
  Desk.staged ⟨Draft.empty, ⟨vault, Cache.new 0 0, Mint.new "" 0, 0, Table.empty, Table.empty⟩⟩ a

variable {vault : Vault} {t : Tier Vault} {a : Anchor} {n : NodeId}

theorem Desk.arrival_over (h : t.holds vault) : (arrival vault a).Over t := ⟨h, .of_empty rfl⟩

theorem Desk.arrival_keyed : (arrival vault a).draft.Keyed :=
  Draft.Keyed.stage (.of_empty rfl) _

/-- All that the request sees is the new object, if nothing else is stored. -/
theorem Desk.view_arrival (h : ∀ id, id ≠ a.id → t.content.get? id = none) (id : ObjectId) :
    (arrival vault a).view t id = if id = a.id then some a.clean else none := by
  unfold arrival
  rw [view_staged]
  unfold View.put
  split
  · rfl
  · rename_i hid
    unfold Desk.view Draft.view
    rw [h id hid]
    rfl

theorem Desk.arrival_consistent (h : ∀ id, id ≠ a.id → t.content.get? id = none)
    (hid : a.id = .node n) {type : TypeId} {fields : Fields}
    (hr : a.node? = some (NodeRecord.isolated type fields)) :
    ((arrival vault a).view t).Consistent := by
  have hseen : ∀ {id b}, (arrival vault a).view t id = some b → id = .node n ∧ b = a.clean := by
    intro id b hb
    rw [view_arrival h, hid] at hb
    split at hb
    · exact ⟨‹_›, (Option.some.inj hb).symm⟩
    · cases hb
  have hedge : ∀ {e b}, (arrival vault a).view t (.edge e) ≠ some b := fun hb => by
    cases (hseen hb).1
  refine ⟨fun hb => ⟨_, (congrArg Anchor.node? (hseen hb).2).trans hr⟩,
    fun hb => (hedge hb).elim, fun hb => (hedge hb.1).elim, fun {m b s p e} hb hin => ?_⟩
  have hs := hb.2
  rw [(hseen hb.1).2, Anchor.clean_node?, hr] at hs
  cases hs
  cases p <;> cases hin

/-- No root leads to the new node, so it is condemned. -/
theorem Desk.arrival_condemned (h : ∀ id, id ≠ a.id → t.content.get? id = none)
    (hid : a.id = .node n) (hty : a.type ≠ rootType) :
    (arrival vault a).Condemned t a.owner n := by
  refine .first ⟨_, (Draft.stage_copy? ..).trans (if_pos hid.symm), rfl⟩
    ⟨_, (view_arrival h _).trans (if_pos hid.symm), rfl, hty⟩ ?_
  rintro ⟨m, b, hb, hroot, -⟩
  rw [view_arrival h] at hb
  split at hb
  · cases hb
    exact hty hroot
  · cases hb

/-- A node that a tenant has just created. -/
def Anchor.newcomer : Anchor :=
  Anchor.ofNode ⟨⟨1⟩⟩ ⟨⟨⟨2⟩⟩⟩ (NodeRecord.isolated ⟨⟨4⟩⟩ Fields.empty)

theorem Anchor.newcomer_plain : newcomer.type ≠ rootType := place_plain default ⟨⟨1⟩⟩ [] []

/-- A node of the same identity that somebody else has committed. -/
def Anchor.namesake : Anchor :=
  { Anchor.newcomer with owner := ⟨⟨⟨3⟩⟩⟩, version := 1, dirty := false }

/-- A vault that holds the namesake. -/
def Vault.ofNamesake : Vault := ⟨Table.empty.insert Anchor.newcomer.id Anchor.namesake, 0⟩

theorem Vault.get?_ofNamesake (id : ObjectId) : ofNamesake.anchors.get? id =
    if id = Anchor.newcomer.id then some Anchor.namesake else none := Table.get?_insert ..

/-- The vault that holds the namesake can be read. -/
def Tier.ofNamesake : Tier Vault := .ofVault Vault.ofNamesake fun {id a} h => by
  rw [Vault.get?_ofNamesake] at h
  split at h
  · cases h
    exact ⟨(‹id = _› : id = Anchor.newcomer.id).symm, rfl⟩
  · cases h

/-- If the identity of a new object was stored all the same, reclaiming uncovers
what is stored. -/
theorem Desk.reclaiming_may_uncover : ∃ (t : Tier Vault) (d : Desk Vault) (root : RootId)
    (n : NodeId), d.Over t ∧ d.draft.Keyed ∧ (d.view t).Consistent ∧ d.Condemned t root n ∧
      ∃ gone d', Desk.evictUnreachable root d = .ok gone d' ∧
        ∃ a, d'.view t (.node n) = some a := by
  have hother : ∀ id, id ≠ Anchor.newcomer.id → Tier.ofNamesake.content.get? id = none :=
    fun id hid => (Vault.get?_ofNamesake id).trans (if_neg hid)
  refine ⟨.ofNamesake, arrival Vault.ofNamesake Anchor.newcomer, _, _, arrival_over rfl,
    arrival_keyed, arrival_consistent hother rfl rfl,
    arrival_condemned hother rfl Anchor.newcomer_plain, ?_⟩
  have hback : (Desk.evictUnreachable Anchor.newcomer.owner).answersWith
      (arrival Vault.ofNamesake Anchor.newcomer) (fun _ d' =>
        (d'.draft.view Vault.ofNamesake.anchors Anchor.newcomer.id).isSome) = true := by
    decide +kernel
  obtain ⟨gone, d', hrun, hsome⟩ := Work.exists_of_answersWith hback
  obtain ⟨b, hb⟩ := Option.isSome_iff_exists.1 hsome
  exact ⟨gone, d', hrun, b.clean, congrArg (Option.map Anchor.clean) hb⟩

end Arrival

end Wayfarer
