import Wayfarer.Proofs.Confinement.Linking
import Wayfarer.Proofs.View.Destroying
import Wayfarer.Proofs.View.Finite

/-!
# Disconnecting

Taking a link away again, by either of its halves. What `connect` adds to a view
(`Mint.link`) is what `disconnect` takes away from it, and nothing stays behind,
provided that the identities of the new edges were not known before.

* `Desk.Fetched.connect` and `Desk.Shows.disconnect` say what the two make of a
  view and of its tombstones.
* `View.Linkable.bared_linked`: a view to which edges were added and from which
  they were taken is as before.
* `Desk.disconnecting_undoes_connecting` puts them together; which half is named
  makes no difference.
-/

namespace Wayfarer

/-- The edges that a mint names next for a link: one, or two halves if it is
undirected. -/
def Mint.halves (m : Mint) (directed : Bool) : List EdgeId :=
  if directed then [m.nextEdge] else [m.nextEdge, m.advance.nextEdge]

/-- The edges of a link with their records. -/
def Mint.link (m : Mint) (source target : NodeId) (type : TypeId) (fields : Fields)
    (directed : Bool) :
    List (EdgeId × EdgeRecord) :=
  if directed then
    [(m.nextEdge, ⟨type, fields, source, target, true, none⟩)]
  else
    [(m.nextEdge, ⟨type, fields, source, target, false, some m.advance.nextEdge⟩),
      (m.advance.nextEdge, ⟨type, fields, target, source, false, some m.nextEdge⟩)]

section Link

variable {m : Mint} {source target : NodeId} {type : TypeId} {fields : Fields} {directed : Bool}

theorem Mint.link_ids (m : Mint) (source target : NodeId) (type : TypeId) (fields : Fields)
    (directed : Bool) :
    (m.link source target type fields directed).map (·.1) = m.halves directed := by
  unfold link halves
  cases directed <;> rfl

/-- The edge that is named first has the other half as its twin, if there is
one. -/
theorem Mint.head_link (m : Mint) (source target : NodeId) (type : TypeId) (fields : Fields)
    (directed : Bool) : ∃ r, (m.nextEdge, r) ∈ m.link source target type fields directed ∧
      m.halves directed = m.nextEdge :: r.twin.toList := by
  cases directed with
  | true => exact ⟨_, List.mem_cons_self .., rfl⟩
  | false => exact ⟨_, List.mem_cons_self .., rfl⟩

/-- Each edge of a link is one of its halves, the other one is its twin, and it
lies between the two nodes. -/
theorem Mint.of_mem_link (hnodup : (m.halves directed).Nodup) {e : EdgeId} {r : EdgeRecord}
    (h : (e, r) ∈ m.link source target type fields directed) :
    r.twin ≠ some e ∧ (∀ g, g ∈ e :: r.twin.toList ↔ g ∈ m.halves directed) ∧
      ∀ p, r.endAt p = source ∨ r.endAt p = target := by
  cases directed with
  | true =>
    obtain ⟨rfl, rfl⟩ := Prod.mk.inj (List.mem_singleton.1 h)
    refine ⟨by simp, fun g => Iff.rfl, ?_⟩
    rintro (_ | _)
    · exact .inl rfl
    · exact .inr rfl
  | false =>
    have hne : m.nextEdge ≠ m.advance.nextEdge := fun heq => by simp [halves, heq] at hnodup
    rcases List.mem_cons.1 h with h | h
    · obtain ⟨rfl, rfl⟩ := Prod.mk.inj h
      refine ⟨fun heq => hne (Option.some.inj heq).symm, fun g => Iff.rfl, ?_⟩
      rintro (_ | _)
      · exact .inl rfl
      · exact .inr rfl
    · obtain ⟨rfl, rfl⟩ := Prod.mk.inj (List.mem_singleton.1 h)
      refine ⟨fun heq => hne (Option.some.inj heq), fun g => ?_, ?_⟩
      · simp [halves, or_comm]
      · rintro (_ | _)
        · exact .inr rfl
        · exact .inl rfl

theorem Mint.linkable {v : View} (hnodup : (m.halves directed).Nodup)
    (hunseen : ∀ g ∈ m.halves directed, v (.edge g) = none)
    (hsource : ∃ a, v (.node source) = some a) (htarget : ∃ a, v (.node target) = some a) :
    v.Linkable (m.link source target type fields directed) := by
  have hends : ∀ r : EdgeRecord, r.source = source → r.target = target →
      ∀ p, ∃ a, v (.node (r.endAt p)) = some a := by
    rintro r rfl rfl (_ | _)
    · exact hsource
    · exact htarget
  cases directed with
  | true => exact .one (hunseen _ (List.mem_singleton.2 rfl)) rfl (hends _ rfl rfl)
  | false =>
    have hne : m.nextEdge ≠ m.advance.nextEdge := fun heq => by simp [halves, heq] at hnodup
    refine .two hne (hunseen _ (by simp [halves])) (hunseen _ (by simp [halves]))
      ⟨rfl, ?_⟩ ⟨rfl, ?_⟩
      (hends _ rfl rfl)
    all_goals
      rintro (_ | _)
      · rfl
      · rfl

end Link

namespace View

variable {v below : View} {root : RootId} {new : List (EdgeId × EdgeRecord)} {gone : List ObjectId}

/-- Edges that were added to a node's lists and taken off again leave the lists
as they were. -/
theorem Linkable.without_attached (h : v.Linkable new) (hc : v.Consistent)
    (hgone : ∀ e, ObjectId.edge e ∈ gone ↔ e ∈ new.map (·.1)) {n : NodeId} {a : Anchor}
    {r : NodeRecord} (ha : NodeIn v n a r) : (r.attached n new).without gone = r := by
  refine NodeRecord.ext_edgesAt rfl rfl fun p => ?_
  have hold : ((r.edgesAt p).filter fun e => ObjectId.edge e ∉ gone) = r.edgesAt p := by
    refine List.filter_eq_self.2 fun e he => decide_eq_true fun hin => ?_
    obtain ⟨b, s, hb, -⟩ := hc.listed ha he
    obtain ⟨x, hx, rfl⟩ := List.mem_map.1 ((hgone e).1 hin)
    cases (h.unseen x hx).symm.trans hb.1
  have hnew : (((new.filter fun x => x.2.endAt p = n).map (·.1)).filter
      fun e => ObjectId.edge e ∉ gone) = [] := by
    refine List.filter_eq_nil_iff.2 fun e he hout => of_decide_eq_true hout ((hgone e).2 ?_)
    obtain ⟨x, hx, rfl⟩ := List.mem_map.1 he
    exact List.mem_map_of_mem (List.mem_of_mem_filter hx)
  rw [NodeRecord.edgesAt_without, NodeRecord.edgesAt_attached, List.filter_append, hold, hnew,
    List.append_nil]

/-- A view to which new edges were added and from which they were taken is as
before. -/
theorem Linkable.bared_linked (h : v.Linkable new) (hc : v.Consistent)
    (hgone : ∀ id, id ∈ gone ↔ ∃ e ∈ new.map (·.1), id = .edge e)
    (hbelow : ∀ e ∈ new.map (·.1), below (.edge e) = none) :
    (v.linked root new).bared below gone = v := by
  have hedge : ∀ e, ObjectId.edge e ∈ gone ↔ e ∈ new.map (·.1) := by
    intro e
    rw [hgone]
    simp
  funext id
  cases id with
  | node n =>
    have hnot : ObjectId.node n ∉ gone := fun hin => by
      obtain ⟨e, -, he⟩ := (hgone _).1 hin
      cases he
    rw [bared_of_not_mem hnot, without, if_neg hnot]
    change ((v (.node n)).map (·.mapNode (·.attached n new))).map (·.mapNode (·.without gone)) = _
    cases ha : v (.node n) with
    | none => rfl
    | some a =>
      obtain ⟨r, hr⟩ := hc.nodes ha
      rw [Option.map_some, Option.map_some, Anchor.mapNode_mapNode,
        Anchor.mapNode_congr (g := fun r => r) hr (h.without_attached hc hedge ⟨ha, hr⟩),
        Anchor.mapNode_id_eq]
  | edge e =>
    -- a new edge gives way to what is beneath it, which is nothing, and no other edge
    -- was touched
    by_cases hin : e ∈ new.map (·.1)
    · obtain ⟨⟨_, r⟩, hx, rfl⟩ := List.mem_map.1 hin
      rw [bared_of_mem ((hedge _).2 hin), beneath, h.linked_of_mem hx, Option.bind_some]
      exact (hbelow _ hin).trans (h.unseen _ hx).symm
    · have hnot : ObjectId.edge e ∉ gone := fun hg => hin ((hedge e).1 hg)
      rw [bared_of_not_mem hnot, without, if_neg hnot,
        linked_of_not_mem fun r hr => hin (List.mem_map_of_mem (f := (·.1)) hr)]
      cases ha : v (.edge e) with
      | none => rfl
      | some a =>
        obtain ⟨r, hr⟩ := hc.edges ha
        exact congrArg some (Anchor.mapNode_of_edge? hr _)

/-- Edges that were never committed leave no tombstones. -/
theorem Linkable.buried_linked (h : v.Linkable new) {before : ObjectId → Option UInt64}
    (hgone : ∀ id, id ∈ gone ↔ ∃ e ∈ new.map (·.1), id = .edge e) :
    (v.linked root new).buried before gone = before := by
  funext id
  unfold buried
  split
  · rename_i hin
    obtain ⟨e, he, rfl⟩ := (hgone id).1 hin
    obtain ⟨⟨_, r⟩, hx, rfl⟩ := List.mem_map.1 he
    rw [tombstone_of_new fun a ha => ?_]
    · rfl
    · rw [h.linked_of_mem hx] at ha
      cases ha
      rfl
  · rfl

end View

namespace Desk

variable {σ : Type} [Durable σ] {t : Tier σ} {d d₀ d' : Desk σ} {v : View}
  {removed : ObjectId → Option UInt64} {actor : Actor} {source target : NodeId} {name : String}
  {type : TypeId} {fields : Fields} {directed : Bool}

/-! ## Linking -/

omit [Durable σ] in
theorem mintEdge_ends (d : Desk σ) : Work.Ends Actor.mintEdge d
    (fun e d' => e = d.shared.mint.nextEdge ∧ d' = d.minted) fun _ _ => False :=
  .bind (.get (.bind (.modify (.pure ⟨rfl, rfl⟩))))

namespace Shows

theorem tracks : Tracks fun v => Shows t v removed := ⟨fun h id _ hm => h.update? id hm⟩

theorem minted (h : Shows t v removed d) : Shows t v removed d.minted :=
  ⟨⟨h.above.holds, h.above.coherent.congr rfl rfl⟩, h.keyed, h.view_eq, h.removed_eq⟩

/-- A new object that leaves no tombstone of an earlier one behind. -/
theorem staged (h : Shows t v removed d) {a : Anchor} (hr : removed a.id = none) :
    Shows t (v.put a.id a.clean) removed (d.staged a) where
  above := ⟨h.above.holds, h.above.coherent⟩
  keyed := h.keyed.stage a
  view_eq := view_staged.trans (by rw [h.view_eq])
  removed_eq := by
    funext id
    refine (Draft.stage_removed? d.draft a id).trans ?_
    rw [h.removed_eq]
    split
    · rename_i hid
      rw [hid, hr]
    · rfl

/-- Linking two nodes adds the edges of the link to the view. -/
theorem link (h : Shows t v removed d) (hsource : ∃ a s, NodeIn v source a s)
    (htarget : ∃ a s, NodeIn v target a s)
    (hnew : ∀ g ∈ d.shared.mint.halves directed, removed (.edge g) = none) :
    Work.Ends (actor.link source target type fields directed) d (fun e d' =>
      e = d.shared.mint.nextEdge ∧ Shows t (v.linked actor.requester
        (d.shared.mint.link source target type fields directed)) removed d') fun _ _ => False := by
  have hnodes : ∀ {directed twin} p, ∃ a s,
      NodeIn v (EdgeRecord.endAt ⟨type, fields, source, target, directed, twin⟩ p) a s := by
    rintro _ _ (_ | _)
    · exact hsource
    · exact htarget
  refine (mintEdge_ends d).andThen ?_
  rintro _ _ ⟨rfl, rfl⟩
  cases directed with
  | true =>
    rw [if_pos rfl]
    have hedge := hnew _ (List.mem_singleton.2 rfl)
    have h₁ := h.minted.staged (a := Anchor.ofEdge d.shared.mint.nextEdge actor.requester
      ⟨type, fields, source, target, true, none⟩) hedge
    exact .bind (.modify (tracks.linkOne (r := ⟨type, fields, source, target, true, none⟩) hnodes h₁
      fun d₂ h₂ => .pure ⟨rfl, h₂⟩))
  | false =>
    rw [if_neg (by simp)]
    refine (mintEdge_ends d.minted).andThen ?_
    rintro _ _ ⟨rfl, rfl⟩
    have hedge := hnew d.shared.mint.nextEdge (by simp [Mint.halves])
    have htwin := hnew d.shared.mint.advance.nextEdge (by simp [Mint.halves])
    have h₁ :=
      h.minted.minted.staged (a := Anchor.ofEdge d.shared.mint.advance.nextEdge actor.requester
      ⟨type, fields, target, source, false, some d.shared.mint.nextEdge⟩) htwin
    have h₂ := h₁.staged (a := Anchor.ofEdge d.shared.mint.nextEdge actor.requester
      ⟨type, fields, source, target, false, some d.shared.mint.advance.nextEdge⟩) hedge
    refine .bind (.modify (.bind (.modify ?_)))
    refine tracks.linkBoth
      (r := ⟨type, fields, source, target, false, some d.shared.mint.advance.nextEdge⟩)
      (s := ⟨type, fields, target, source, false, some d.shared.mint.nextEdge⟩) hnodes h₂ ?_
      fun d₃ h₃ => .pure ⟨rfl, h₃⟩
    rintro (_ | _) <;> rfl

end Shows

/-- Connecting two nodes, both of which allow it, adds the edges of a link. -/
theorem Over.connect (hd : d.Over t) (hk : d.draft.Keyed) (hc : (d.view t).Consistent)
    (hnew : ∀ g ∈ d.shared.mint.halves directed, d.draft.removed? (.edge g) = none) :
    Work.Ends (actor.connect source target name fields directed) d (fun e d' =>
      e = d.shared.mint.nextEdge ∧ (d.view t).Permits actor.requester source .connect ∧
      (d.view t).Permits actor.requester target .connect ∧ ∃ type filled,
        Shows t ((d.view t).linked actor.requester
          (d.shared.mint.link source target type filled directed)) d.draft.removed? d')
      fun _ _ => True := by
  have hreads : ∀ {α : Type} {w : Work σ α} {d₁}, Reads w → Fetched t d d₁ →
      Work.Ends w d₁ (fun _ d₂ => Fetched t d d₂) fun _ _ => True := fun hw h =>
    (hw.fetched h.above).mono (fun _ _ hf => h.trans hf) fun _ _ _ => trivial
  refine (hreads (.resolve actor _ _) (.refl hd)).andThen fun type d₁ h₁ => ?_
  refine (hreads (.fillFields actor _ _) h₁).andThen fun filled d₂ h₂ => ?_
  refine ((h₂.check actor source .connect).mono (fun _ _ h => h) fun _ _ _ => trivial).andThen ?_
  rintro a d₃ ⟨ha, hsource, h₃⟩
  refine ((h₃.check actor target .connect).mono (fun _ _ h => h) fun _ _ _ => trivial).andThen ?_
  rintro b d₄ ⟨hb, htarget, h₄⟩
  have hshows : Shows t (d.view t) d.draft.removed? d₄ := Shows.fetched ⟨hd, hk, rfl, rfl⟩ h₄
  obtain ⟨r, hr⟩ := hc.nodes ha
  obtain ⟨s, hs⟩ := hc.nodes hb
  refine (hshows.link ⟨_, r, ha, hr⟩ ⟨_, s, hb, hs⟩ (h₄.mint.symm ▸ hnew)).surely.imp ?_
  rw [h₄.mint]
  rintro _ d₅ ⟨rfl, h₅⟩
  exact ⟨rfl, ⟨_, ha, hsource⟩, ⟨_, hb, htarget⟩, type, filled, h₅⟩

/-! ## Unlinking -/

/-- The edges that go when one edge is disconnected. -/
def torn (e : EdgeId) (r : EdgeRecord) : List ObjectId := (e :: r.twin.toList).map .edge

/-- Taking an edge away never fails. -/
theorem Shows.unlink_ends (h : Shows t v removed d) (e : EdgeId) :
    Work.Ends (Actor.unlink e) d (fun _ _ => True) fun _ _ => False := by
  refine (h.loadEdge e).andThen ?_
  rintro found d₁ ⟨-, h₁⟩
  cases found with
  | none => exact .pure trivial
  | some s =>
    refine (h₁.detachAt e s.source).andThen fun _ d₂ h₂ => ?_
    refine (h₂.detachAt e s.target).andThen fun _ d₃ h₃ => ?_
    exact (h₃.delete (.edge e)).imp fun _ _ _ => trivial

/-- Disconnecting an edge takes it and its twin away if both ends permit this,
and changes nothing otherwise. -/
theorem Shows.disconnect (h : Shows t v removed d) (hc : v.Consistent) (hm : v.Mirrored)
    {e : EdgeId} {a : Anchor} {r : EdgeRecord} (ha : EdgeIn v e a r) (actor : Actor) :
    Work.Ends (actor.disconnect e) d
      (fun _ d' => (∀ p, v.Permits actor.requester (r.endAt p) .connect) ∧ (r.twin ≠ some e →
        Shows t (v.bared t.content.get? (torn e r)) (v.buried removed (torn e r)) d'))
      fun _ d' => (¬ ∀ p, v.Permits actor.requester (r.endAt p) .connect) ∧
        Shows t v removed d' := by
  have hcheck : ∀ {d₁ : Desk σ} (p : Port), Shows t v removed d₁ →
      Work.Ends (actor.check (r.endAt p) .connect) d₁
        (fun _ d₂ => v.Permits actor.requester (r.endAt p) .connect ∧ Shows t v removed d₂)
        fun _ d₂ => (¬ ∀ p, v.Permits actor.requester (r.endAt p) .connect) ∧
          Shows t v removed d₂ := by
    intro d₁ p h₁
    refine ((Fetched.refl h₁.above).check actor _ _).mono ?_ ?_
    · rintro b d₂ ⟨hb, hp, h₂⟩
      exact ⟨⟨b.clean, h₁.view_eq ▸ hb, hp⟩, h₁.fetched h₂⟩
    · rintro _ d₂ ⟨hno, h₂⟩
      refine ⟨fun hall => ?_, h₁.fetched h₂⟩
      obtain ⟨b, hb, hp⟩ := hall p
      exact hno b (h₁.view_eq.symm ▸ hb) hp
  refine (h.loadEdge e).surely.andThen ?_
  rintro _ d₁ ⟨rfl, h₁⟩
  rw [ha.1, Option.bind_some, ha.2]
  refine .bind (.pure ((hcheck .out h₁).andThen ?_))
  rintro _ d₂ ⟨hsource, h₂⟩
  refine (hcheck .into h₂).andThen ?_
  rintro _ d₃ ⟨htarget, h₃⟩
  have hall : ∀ p, v.Permits actor.requester (r.endAt p) .connect := by
    rintro (_ | _)
    · exact hsource
    · exact htarget
  have h₄ : Shows t (v.bared t.content.get? []) (v.buried removed []) d₃ := by
    rw [View.bared_nil, View.buried_nil]
    exact h₃
  refine (h₄.unlink hc ha List.not_mem_nil fun _ => List.not_mem_nil).surely.andThen
    fun _ d₅ h₅ => ?_
  unfold torn
  cases ht : r.twin with
  | none => exact .pure ⟨hall, fun _ => h₅⟩
  | some k =>
    -- the second half is unlinked when the first is gone, so it must be another edge
    by_cases hself : k = e
    · exact (h₅.unlink_ends k).surely.imp
        fun _ _ _ => ⟨hall, fun hne => absurd (congrArg some hself) hne⟩
    · obtain ⟨b, s, hb, -⟩ := hm ha ht
      have hnew : ObjectId.edge k ∉ [] ++ [ObjectId.edge e] := by simpa using hself
      exact (h₅.unlink hc hb hnew (by simp)).surely.imp fun _ d₆ h₆ => ⟨hall, fun _ => h₆⟩

/-- Which half of a link is named, makes no difference to what goes. -/
theorem mem_torn_twin {e k : EdgeId} {r s : EdgeRecord} (hr : r.twin = some k)
    (hs : s.twin = some e) (id : ObjectId) : id ∈ torn e r ↔ id ∈ torn k s := by
  simp only [torn, hr, hs, Option.toList_some, List.map_cons, List.map_nil, List.mem_cons,
    List.not_mem_nil, or_false]
  exact or_comm

/-! ## There and back -/

theorem removed?_of_not_knows {id : ObjectId} (h : ¬ d.Knows t id) :
    d.draft.removed? id = none := by
  cases hr : d.draft.removed? id with
  | none => rfl
  | some w => exact absurd (.inl (.inr ⟨w, hr⟩)) h

/-- A desk over the same tiers at which every object is seen as before and the
same tombstones are, and of some edges there is neither. -/
structure Restored (t : Tier σ) (edges : List EdgeId) (d d' : Desk σ) : Prop where
  above : d'.Over t
  view_eq : d'.view t = d.view t
  removed_eq : d'.draft.removed? = d.draft.removed?
  gone : ∀ e ∈ edges, d'.view t (.edge e) = none ∧ d'.draft.removed? (.edge e) = none

/-- Whichever half of a new link is disconnected, all is as it was before they
were connected. -/
theorem Shows.restored (hc : (d.view t).Consistent) (hm : (d.view t).Mirrored)
    {new : List (EdgeId × EdgeRecord)} (hl : (d.view t).Linkable new)
    (hnew : ∀ e ∈ new.map (·.1), ¬ d.Knows t (.edge e))
    (h : Shows t ((d.view t).linked actor.requester new) d.draft.removed? d') {e : EdgeId}
    {r : EdgeRecord} (he : (e, r) ∈ new) (hself : r.twin ≠ some e)
    (hall : ∀ g, g ∈ e :: r.twin.toList ↔ g ∈ new.map (·.1))
    (hends : ∀ p, (d.view t).Permits actor.requester (r.endAt p) .connect) :
    ∃ d₂, actor.disconnect e d' = .ok () d₂ ∧ d.Restored t (new.map (·.1)) d₂ := by
  have hperm : ∀ p, ((d.view t).linked actor.requester new).Permits actor.requester (r.endAt p)
      .connect := by
    intro p
    obtain ⟨a, ha, hp⟩ := hends p
    exact ⟨a.mapNode (·.attached (r.endAt p) new), congrArg (Option.map _) ha,
      (Anchor.mapNode_permits ..).trans hp⟩
  have hends : Work.Ends (actor.disconnect e) d' (fun _ d₂ =>
      Shows t (((d.view t).linked actor.requester new).bared t.content.get? (torn e r))
        (((d.view t).linked actor.requester new).buried d.draft.removed? (torn e r)) d₂)
      fun _ _ => False :=
    (h.disconnect (hl.consistent hc) (hl.mirrored hm) ⟨hl.linked_of_mem he, rfl⟩ actor).mono
      (fun _ _ hd => hd.2 hself) fun _ _ hd => hd.1 hperm
  obtain ⟨⟨⟩, d₂, hrun, hd₂⟩ := hends.exists_ok
  have hgone : ∀ id, id ∈ torn e r ↔ ∃ g ∈ new.map (·.1), id = .edge g := by
    intro id
    unfold torn
    rw [List.mem_map]
    simp only [hall, eq_comm]
  have hbelow : ∀ g ∈ new.map (·.1), t.content.get? (.edge g) = none := by
    intro g hg
    cases hcontent : t.content.get? (.edge g) with
    | none => rfl
    | some a => exact absurd (.inr ⟨a, hcontent⟩) (hnew g hg)
  rw [hl.bared_linked hc hgone hbelow, hl.buried_linked hgone] at hd₂
  refine ⟨d₂, hrun, hd₂.above, hd₂.view_eq, hd₂.removed_eq, fun g hg => ?_⟩
  rw [hd₂.view_eq, hd₂.removed_eq]
  exact ⟨unseen_of_not_knows (hnew g hg), removed?_of_not_knows (hnew g hg)⟩

/-- Disconnecting a link by either half comes to the same. -/
theorem disconnect_either (hd : d.Over t) (hk : d.draft.Keyed) (hc : (d.view t).Consistent)
    (hm : (d.view t).Mirrored) (actor : Actor) {e k : EdgeId} {a : Anchor} {r : EdgeRecord}
    (ha : EdgeIn (d.view t) e a r) (ht : r.twin = some k) :
    (∃ d₁ d₂, actor.disconnect e d = .ok () d₁ ∧ actor.disconnect k d = .ok () d₂ ∧
      d₂.view t = d₁.view t ∧ d₂.draft.removed? = d₁.draft.removed?) ∨
    ∃ x y d₁ d₂, actor.disconnect e d = .error x d₁ ∧ actor.disconnect k d = .error y d₂ ∧
      d₁.view t = d.view t ∧ d₂.view t = d.view t := by
  have hshows : Shows t (d.view t) d.draft.removed? d := ⟨hd, hk, rfl, rfl⟩
  have hone := hshows.disconnect hc hm ha actor
  obtain ⟨b, s, hb, htwin, hends⟩ := hm ha ht
  have hother := hshows.disconnect hc hm hb actor
  have hperm : (∀ p, (d.view t).Permits actor.requester (s.endAt p) .connect) ↔
      ∀ p, (d.view t).Permits actor.requester (r.endAt p) .connect := by
    constructor
    · intro h p
      have hp := h p.flip
      rwa [hends, Port.flip_flip] at hp
    · intro h p
      rw [hends]
      exact h p.flip
  -- both halves ask the same two nodes, and take the same two edges
  rw [hperm] at hother
  cases hrun : actor.disconnect e d with
  | ok u d₁ =>
    obtain ⟨hall, hgone⟩ := hone.ok hrun
    cases hrun' : actor.disconnect k d with
    | error y d₂ => exact absurd hall (hother.error hrun').1
    | ok u' d₂ =>
      refine .inl ⟨d₁, d₂, rfl, rfl, ?_⟩
      by_cases hself : k = e
      · subst hself
        rw [hrun] at hrun'
        cases hrun'
        exact ⟨rfl, rfl⟩
      · have h₁ := hgone fun h => hself (Option.some.inj (ht.symm.trans h))
        have h₂ := (hother.ok hrun').2 fun h => hself (Option.some.inj (h.symm.trans htwin))
        rw [View.bared_congr (mem_torn_twin htwin ht),
          View.buried_congr_mem (mem_torn_twin htwin ht)] at h₂
        exact ⟨h₂.view_eq.trans h₁.view_eq.symm, h₂.removed_eq.trans h₁.removed_eq.symm⟩
  | error x d₁ =>
    obtain ⟨hno, h₁⟩ := hone.error hrun
    cases hrun' : actor.disconnect k d with
    | ok u' d₂ => exact absurd (hother.ok hrun').1 hno
    | error y d₂ =>
      exact .inr ⟨x, y, d₁, d₂, rfl, rfl, h₁.view_eq, (hother.error hrun').2.view_eq⟩

/-- Whatever was connected can be disconnected again, by either half of an
undirected link, and then every object is seen as it was before and there is no
trace of the edges. This takes that the identities of the edges differ and are
new: neither the request nor the tiers below it know them. Of any link that
there is, whichever half is disconnected, the same is seen in the end. -/
theorem disconnecting_undoes_connecting (hd : d.Over t) (hk : d.draft.Keyed)
    (hc : (d.view t).Consistent) (hm : (d.view t).Mirrored) (actor : Actor) :
    (∀ source target name fields directed e d₁, (d.shared.mint.halves directed).Nodup →
      (∀ g ∈ d.shared.mint.halves directed, ¬ d.Knows t (.edge g)) →
      actor.connect source target name fields directed d = .ok e d₁ →
      ∃ a r, EdgeIn (d₁.view t) e a r ∧ d.shared.mint.halves directed = e :: r.twin.toList ∧
        ∀ g ∈ d.shared.mint.halves directed, ∃ d₂, actor.disconnect g d₁ = .ok () d₂ ∧
          d.Restored t (d.shared.mint.halves directed) d₂) ∧
    ∀ e k a r, EdgeIn (d.view t) e a r → r.twin = some k →
      (∃ d₁ d₂, actor.disconnect e d = .ok () d₁ ∧ actor.disconnect k d = .ok () d₂ ∧
        d₂.view t = d₁.view t ∧ d₂.draft.removed? = d₁.draft.removed?) ∨
      ∃ x y d₁ d₂, actor.disconnect e d = .error x d₁ ∧ actor.disconnect k d = .error y d₂ ∧
        d₁.view t = d.view t ∧ d₂.view t = d.view t := by
  refine ⟨fun source target name fields directed e d₁ hnodup hnew hrun => ?_,
    fun e k a r ha ht => disconnect_either hd hk hc hm actor ha ht⟩
  obtain ⟨rfl, hsource, htarget, type, filled, hshows⟩ :=
    (hd.connect hk hc fun g hg => removed?_of_not_knows (hnew g hg)).ok hrun
  have hl : (d.view t).Linkable (d.shared.mint.link source target type filled directed) :=
    Mint.linkable hnodup (fun g hg => unseen_of_not_knows (hnew g hg)) (hsource.imp fun _ h => h.1)
      (htarget.imp fun _ h => h.1)
  have hids := d.shared.mint.link_ids source target type filled directed
  obtain ⟨r, hr, hhalves⟩ := d.shared.mint.head_link source target type filled directed
  have hseen := (congrFun hshows.view_eq _).trans (hl.linked_of_mem hr)
  refine ⟨_, r, ⟨hseen, rfl⟩, hhalves, fun g hg => ?_⟩
  rw [← hids] at hg hnew ⊢
  obtain ⟨⟨_, s⟩, hs, rfl⟩ := List.mem_map.1 hg
  obtain ⟨hself, hall, hends⟩ := Mint.of_mem_link hnodup hs
  refine hshows.restored hc hm hl hnew hs hself (hids ▸ hall) fun p => ?_
  rcases hends p with hend | hend
  · exact hend ▸ hsource
  · exact hend ▸ htarget

end Desk

namespace Unlinked

/-- Two places that nothing connects. -/
def anchors : List Anchor := [.place default ⟨⟨1⟩⟩ [] [], .place default ⟨⟨2⟩⟩ [] []]

def mint : Mint := ⟨⟨0⟩, 0⟩

def actor : Actor := .builder default

end Unlinked

/-- A road between two places that is built and taken away leaves both as they
were. -/
theorem Desk.disconnecting_undoes_new_road : ∃ e d₁ d₂,
    Unlinked.actor.connect ⟨⟨1⟩⟩ ⟨⟨2⟩⟩ "road" Fields.empty false
      (opening Unlinked.mint Unlinked.anchors) = .ok e d₁ ∧
    Unlinked.actor.disconnect e d₁ = .ok () d₂ ∧
    d₂.view (.shelved Unlinked.anchors) =
      (opening Unlinked.mint Unlinked.anchors).view (.shelved Unlinked.anchors) := by
  have hnew : ∀ g, ¬ (opening Unlinked.mint Unlinked.anchors).Knows (.shelved Unlinked.anchors)
      (.edge g) := by
    intro g hg
    obtain ⟨a, ha, hid⟩ := knows_opening hg
    rcases List.mem_cons.1 ha with rfl | ha
    · cases hid
    · rw [List.mem_singleton.1 ha] at hid
      cases hid
  have hbuilt : (Unlinked.actor.connect ⟨⟨1⟩⟩ ⟨⟨2⟩⟩ "road" Fields.empty false).answersWith
      (opening Unlinked.mint Unlinked.anchors) (fun _ _ => true) = true := by decide +kernel
  obtain ⟨e, d₁, hrun, -⟩ := Work.exists_of_answersWith hbuilt
  obtain ⟨a, r, -, hhalves, hundo⟩ := (disconnecting_undoes_connecting (opening_over _ _)
    (opening_keyed _ _) (opening_consistent (by decide)) (opening_mirrored (by decide))
    Unlinked.actor).1 _ _ _ _ _ e d₁ (by decide +kernel) (fun g _ => hnew g) hrun
  obtain ⟨d₂, hrun₂, hback⟩ := hundo e (hhalves ▸ List.mem_cons_self ..)
  exact ⟨e, d₁, d₂, hrun, hrun₂, hback.view_eq⟩

/-- A place with a path to itself whose identity is the next one that the mint
names. -/
def Unlinked.ring : List Anchor :=
  [.place default ⟨⟨1⟩⟩ [mint.nextEdge] [mint.nextEdge],
    .path default mint.nextEdge ⟨⟨1⟩⟩ ⟨⟨1⟩⟩ none]

/-- If the identity of a new edge was known all the same, disconnecting it takes
more away than was added. -/
theorem Desk.disconnecting_may_take_too_much :
    ∃ (t : Tier Vault) (d : Desk Vault) (actor : Actor) (n : NodeId) (e : EdgeId)
      (d₁ d₂ : Desk Vault),
      d.Over t ∧ d.draft.Keyed ∧ (d.view t).Consistent ∧ (d.view t).Mirrored ∧
      actor.connect n n "road" Fields.empty true d = .ok e d₁ ∧ actor.disconnect e d₁ = .ok () d₂ ∧
      d₂.view t ≠ d.view t := by
  have hbare : (Unlinked.actor.connect ⟨⟨1⟩⟩ ⟨⟨1⟩⟩ "road" Fields.empty true).answersWith
      (opening Unlinked.mint Unlinked.ring) (fun e d₁ =>
        (Unlinked.actor.disconnect e).answersWith d₁ fun _ d₂ =>
          ((d₂.view (.shelved Unlinked.ring) (.node ⟨⟨1⟩⟩)).bind Anchor.node?).any fun r =>
            r.outgoing = []) = true := by
    decide +kernel
  obtain ⟨e, d₁, hrun, hbare⟩ := Work.exists_of_answersWith hbare
  obtain ⟨_, d₂, hrun₂, hbare⟩ := Work.exists_of_answersWith hbare
  refine ⟨.shelved Unlinked.ring, opening Unlinked.mint Unlinked.ring, Unlinked.actor,
    _, e, d₁, d₂, opening_over _ _, opening_keyed _ _, opening_consistent (by decide +kernel),
    opening_mirrored (by decide +kernel), hrun, hrun₂, fun hsame => ?_⟩
  rw [hsame,
    opening_seen (a := .place default ⟨⟨1⟩⟩ [Unlinked.mint.nextEdge] [Unlinked.mint.nextEdge])
      rfl] at hbare
  cases hbare

end Wayfarer
