import Wayfarer.Proofs.View.Reclaiming
import Wayfarer.Proofs.Walking.Trace

/-!
# Destroying a node

What the removal of a node with its edges leaves, whatever is staged and
whatever is stored. The desk need not be `Sane`: there may be an object of
version zero that is staged and another one that is stored under the same
identity. The removal of the former uncovers the latter.

* `View.bared` is a view after objects were removed, `View.buried` the
  tombstones then.
* `Desk.Shows.unlink` takes one edge away, `Desk.Over.destroy` a node with its
  edges.
* `Desk.destroying_is_exact`: who may write a node that is no root removes it
  and its edges, and no more.
-/

namespace Wayfarer

namespace View

variable {v below : View} {gone : List ObjectId} {id : ObjectId}

/-- The tombstone of an object when it is removed. -/
def tombstone (v : View) (id : ObjectId) : Option UInt64 :=
  (v id).bind fun a => if a.version = 0 then none else some a.version

/-- The view after some objects were removed. Nodes that stay do not list the
edges that went. -/
def bared (v below : View) (gone : List ObjectId) : View := fun id =>
  if id ∈ gone then v.beneath below id else v.without gone id

/-- The tombstones after some objects were removed. -/
def buried (v : View) (before : ObjectId → Option UInt64) (gone : List ObjectId) (id : ObjectId) :
    Option UInt64 :=
  if id ∈ gone then (v.tombstone id).or (before id) else before id

/-! ## One object less -/

theorem beneath_congr {w : View} (h : v id = w id) : v.beneath below id = w.beneath below id := by
  unfold beneath
  rw [h]

theorem tombstone_congr {w : View} (h : v id = w id) : v.tombstone id = w.tombstone id := by
  unfold tombstone
  rw [h]

theorem modify_congr {w : View} {m : ObjectId} {change : Anchor → Anchor} (h : v id = w id) :
    v.modify m change id = w.modify m change id := by
  unfold modify
  rw [h]

theorem bared_of_mem (h : id ∈ gone) : v.bared below gone id = v.beneath below id := if_pos h

theorem bared_of_not_mem (h : id ∉ gone) : v.bared below gone id = v.without gone id := if_neg h

theorem bared_congr {gone' : List ObjectId} (h : ∀ id, id ∈ gone ↔ id ∈ gone') :
    v.bared below gone = v.bared below gone' := by
  funext id
  simp only [bared, without_congr h, h]

theorem buried_congr_mem {before : ObjectId → Option UInt64} {gone' : List ObjectId}
    (h : ∀ id, id ∈ gone ↔ id ∈ gone') : v.buried before gone = v.buried before gone' := by
  funext id
  simp only [buried, h]

theorem bared_nil : v.bared below [] = v := by
  funext id
  rw [bared_of_not_mem List.not_mem_nil, without_nil]

theorem buried_nil {before : ObjectId → Option UInt64} : v.buried before [] = before := by
  funext id
  exact if_neg List.not_mem_nil

/-- An object that is still there leaves what it left before others went. -/
theorem beneath_bared (h : id ∉ gone) :
    (v.bared below gone).beneath below id = v.beneath below id := by
  rw [beneath_congr (bared_of_not_mem h)]
  unfold beneath without
  rw [if_neg h]
  cases v id with
  | none => rfl
  | some a => simp only [Option.map_some, Option.bind_some, Anchor.mapNode_version]

theorem tombstone_bared (h : id ∉ gone) : (v.bared below gone).tombstone id = v.tombstone id := by
  rw [tombstone_congr (bared_of_not_mem h)]
  unfold tombstone without
  rw [if_neg h]
  cases v id with
  | none => rfl
  | some a => simp only [Option.map_some, Option.bind_some, Anchor.mapNode_version]

theorem buried_congr {w : View} {before : ObjectId → Option UInt64} (h : v id = w id) :
    v.buried before [id] = w.buried before [id] := by
  funext j
  unfold buried
  split
  · rename_i hj
    rw [List.mem_singleton.1 hj, tombstone_congr h]
  · rfl

theorem buried_bared {before : ObjectId → Option UInt64} (h : id ∉ gone) :
    (v.bared below gone).buried (v.buried before gone) [id] = v.buried before (gone ++ [id]) := by
  funext j
  simp only [buried, List.mem_append, List.mem_singleton]
  by_cases hj : j = id
  · subst hj
    simp only [h, tombstone_bared h, if_true, if_false, false_or]
  · simp only [hj, if_false, or_false]

theorem reveal_node {m : NodeId} (h : ObjectId.node m ∉ gone) :
    (v.bared below gone).reveal below (.node m) = v.bared below (gone ++ [.node m]) := by
  funext id
  unfold reveal
  split
  · rename_i hid
    subst hid
    rw [beneath_bared h, bared_of_mem (by simp)]
  · rename_i hid
    by_cases hgone : id ∈ gone
    · rw [bared_of_mem hgone, bared_of_mem (List.mem_append_left _ hgone)]
    · rw [bared_of_not_mem hgone, bared_of_not_mem (by simp [hgone, hid]), ← without_erase_node]
      exact (if_neg hid).symm

/-- An edge that was taken off its ends and removed. -/
theorem Consistent.reveal_edge (hc : v.Consistent) {e : EdgeId} {a : Anchor} {r : EdgeRecord}
    (ha : EdgeIn v e a r) (h : ObjectId.edge e ∉ gone) (hedges : ∀ m, ObjectId.node m ∉ gone) :
    (((v.bared below gone).modify (.node r.source) (·.mapNode (·.detach e))).modify
      (.node r.target) (·.mapNode (·.detach e))).reveal below (.edge e) =
        v.bared below (gone ++ [.edge e]) := by
  have hrelease : (((v.without gone).modify (.node r.source) (·.mapNode (·.detach e))).modify
      (.node r.target) (·.mapNode (·.detach e))).erase (.edge e) =
        v.without (gone ++ [.edge e]) := by
    rw [← pruned_empty, ← pruned_empty, ← hc.release_erase ha]
    rfl
  funext id
  unfold reveal
  split
  · rename_i hid
    subst hid
    rw [bared_of_mem (by simp)]
    exact (beneath_congr rfl).trans (beneath_bared h)
  · rename_i hid
    by_cases hgone : id ∈ gone
    · rw [bared_of_mem (List.mem_append_left _ hgone), ← bared_of_mem hgone]
      cases id with
      | node m => exact absurd hgone (hedges m)
      | edge x => rfl
    · rw [bared_of_not_mem (by simp [hgone, hid]), ← hrelease]
      exact (modify_congr (modify_congr (bared_of_not_mem hgone))).trans (if_neg hid).symm

theorem tombstone_of_new (h : ∀ a, v id = some a → a.version = 0) : v.tombstone id = none := by
  unfold tombstone
  cases ha : v id with
  | none => rfl
  | some a => simp [h a ha]

theorem bared_of_none (h : v id = none) : v.bared below gone id = none := by
  unfold bared beneath without
  split
  · rw [h]
    rfl
  · rw [h]
    rfl

/-- A node that no edge connects with `n` keeps its lists when the edges of `n`
go. -/
theorem Consistent.without_stranger (hc : v.Consistent) {m n : NodeId} {a : Anchor} {r : NodeRecord}
    (ha : NodeIn v m a r) (hm : m ≠ n)
    (hgone : ∀ e, ObjectId.edge e ∈ gone → ∃ b s p, EdgeIn v e b s ∧ s.endAt p = n)
    (hapart : ∀ e b s p, EdgeIn v e b s → s.endAt p = n → s.endAt p.flip ≠ m) :
    r.without gone = r := by
  refine NodeRecord.ext_edgesAt rfl rfl fun p => ?_
  rw [NodeRecord.edgesAt_without, List.filter_eq_self]
  intro e he
  rw [decide_eq_true_eq]
  intro hin
  obtain ⟨b, s, q, hb, hend⟩ := hgone e hin
  obtain ⟨b', s', hb', hend'⟩ := hc.listed ha he
  obtain ⟨_, rfl⟩ := hb.unique hb'
  -- the end at which the edge is listed is not the one that went
  by_cases hq : q = p
  · exact hm (hend'.symm.trans (hq ▸ hend))
  · have hflip : q.flip = p := by
      cases p <;> cases q <;> simp_all [Port.flip]
    exact hapart e b s q hb hend (hflip ▸ hend')

end View

namespace Desk

variable {σ : Type} [Durable σ] {t : Tier σ} {d d' : Desk σ} {v : View}
  {removed : ObjectId → Option UInt64} {id : ObjectId} {a : Anchor}

/-- A desk over a tier at which a view shows and with so many tombstones. -/
structure Shows (t : Tier σ) (v : View) (removed : ObjectId → Option UInt64)
    (d : Desk σ) : Prop where
  above : d.Over t
  keyed : d.draft.Keyed
  view_eq : d.view t = v
  removed_eq : d.draft.removed? = removed

namespace Shows

theorem fetched (h : Shows t v removed d) (hf : Fetched t d d') : Shows t v removed d' where
  above := hf.above
  keyed := h.keyed.filled t.tidy hf.toFilled
  view_eq := hf.same_view.trans h.view_eq
  removed_eq := by
    rw [← h.removed_eq]
    funext id
    exact congrArg (fun tombstones => tombstones.get? id) hf.tombstones

theorem loadEdge (h : Shows t v removed d) (e : EdgeId) :
    Work.Ends (loadEdge e) d (fun found d' => found = (v (.edge e)).bind Anchor.edge? ∧
      Shows t v removed d') fun _ _ => False := by
  rw [← h.view_eq]
  refine ((Fetched.refl h.above).loadEdge e).imp ?_
  exact fun _ _ hl => ⟨hl.1, h.view_eq ▸ h.fetched hl.2⟩

theorem update? (h : Shows t v removed d) (id : ObjectId) {change : Anchor → Anchor}
    (hm : Anchor.Mild change) :
    Work.Ends (update? id change) d (fun before d' => before.map Anchor.clean = v id ∧
      Shows t (v.modify id change) removed d') fun _ _ => False := by
  refine (update?_ends h.above id change).imp ?_
  rintro _ _ ⟨rfl, d₁, hr, rfl⟩
  have h₁ := h.fetched hr.fetched
  have hview := hr.view_update h₁.keyed hm
  rw [h.view_eq] at hview
  refine ⟨congrFun h.view_eq id, ?_⟩
  cases ha : d.draft.view t.content id with
  | none =>
    rw [ha] at hview
    exact ⟨h₁.above, h₁.keyed, hview, h₁.removed_eq⟩
  | some a =>
    rw [ha] at hview
    have hcopy := hr.copied ha
    exact ⟨⟨h₁.above.holds, h₁.above.coherent⟩, h₁.keyed.keep ((hm.id a).trans (h₁.keyed.own hcopy))
      (h₁.keyed.removed?_of_copy? hcopy), hview, h₁.removed_eq⟩

/-- Removing an object reveals what is stored, or leaves a tombstone. -/
theorem delete (h : Shows t v removed d) (id : ObjectId) :
    Work.Ends (delete id) d (fun _ d' => Shows t (v.reveal t.content.get? id)
      (v.buried removed [id]) d') fun _ _ => False := by
  refine (delete_ends h.above id).imp ?_
  rintro _ _ ⟨d₁, hr, rfl⟩
  have h₁ := h.fetched hr.fetched
  have hview := hr.view_delete h₁.keyed
  have hv : (d.draft.view t.content id).map Anchor.clean = v id := congrFun h.view_eq id
  rw [h.view_eq] at hview
  cases ha : d.draft.view t.content id with
  | none =>
    rw [ha] at hview hv
    refine ⟨h₁.above, h₁.keyed, hview, h₁.removed_eq.trans ?_⟩
    funext j
    simp only [View.buried, View.tombstone, List.mem_singleton]
    split
    · rename_i hj
      rw [hj, ← hv]
      rfl
    · rfl
  | some a =>
    rw [ha] at hview hv
    refine ⟨⟨h₁.above.holds, h₁.above.coherent⟩, h₁.keyed.bury id a, hview, ?_⟩
    funext j
    rw [Option.elim, bury_removed?, h₁.removed_eq]
    simp only [View.buried, View.tombstone, List.mem_singleton]
    by_cases hj : j = id
    · subst hj
      rw [if_pos rfl, ← hv]
      by_cases hz : a.version = 0
      · simp [hz]
      · simp [hz]
    · simp [hj]

theorem detachAt (h : Shows t v removed d) (e : EdgeId) (m : NodeId) :
    Work.Ends (Actor.detachAt e m) d (fun _ d' =>
      Shows t (v.modify (.node m) (·.mapNode (·.detach e))) removed d') fun _ _ => False :=
  (h.update? _ (.mapNode _)).andThen fun _ _ hu => .pure hu.2

/-- Taking one edge away after other edges. -/
theorem unlink (hc : v.Consistent) {e : EdgeId} {a : Anchor} {r : EdgeRecord} (ha : EdgeIn v e a r)
    {gone : List ObjectId} (he : ObjectId.edge e ∉ gone) (hedges : ∀ m, ObjectId.node m ∉ gone)
    (h : Shows t (v.bared t.content.get? gone) (v.buried removed gone) d) :
    Work.Ends (Actor.unlink e) d (fun _ d' => Shows t (v.bared t.content.get? (gone ++ [.edge e]))
      (v.buried removed (gone ++ [.edge e])) d') fun _ _ => False := by
  refine (h.loadEdge e).andThen ?_
  rintro _ d₁ ⟨rfl, h₁⟩
  have hfound : (v.bared t.content.get? gone (.edge e)).bind Anchor.edge? = some r := by
    rw [View.bared_of_not_mem he, View.without, if_neg he, ha.1]
    exact (Anchor.mapNode_edge? ..).trans ha.2
  rw [hfound]
  refine (h₁.detachAt e r.source).andThen fun _ d₂ h₂ => ?_
  refine (h₂.detachAt e r.target).andThen fun _ d₃ h₃ => ?_
  refine (h₃.delete (.edge e)).imp fun _ d₄ h₄ => ?_
  have hburied : View.buried (((v.bared t.content.get? gone).modify (.node r.source)
        (·.mapNode (·.detach e))).modify (.node r.target) (·.mapNode (·.detach e)))
      (v.buried removed gone) [.edge e] =
        (v.bared t.content.get? gone).buried (v.buried removed gone) [.edge e] :=
    View.buried_congr rfl
  rw [hc.reveal_edge ha he hedges, hburied, View.buried_bared he] at h₄
  exact h₄

/-- Taking several edges away. -/
theorem unlinks (hc : v.Consistent) {edges : List EdgeId} (hnodup : edges.Nodup)
    (hthere : ∀ e ∈ edges, ∃ a r, EdgeIn v e a r) (h : Shows t v removed d) :
    Work.Ends (edges.forM Actor.unlink) d (fun _ d' =>
      Shows t (v.bared t.content.get? (edges.map .edge)) (v.buried removed (edges.map .edge)) d')
      fun _ _ => False := by
  have hstart : ∃ done, edges = done ++ edges ∧ Shows t (v.bared t.content.get? (done.map .edge))
      (v.buried removed (done.map .edge)) d := by
    refine ⟨[], rfl, ?_⟩
    rw [List.map_nil, View.bared_nil, View.buried_nil]
    exact h
  refine (Work.Ends.forM (J := fun rest d' => ∃ done, edges = done ++ rest ∧
    Shows t (v.bared t.content.get? (done.map .edge)) (v.buried removed (done.map .edge)) d')
    hstart ?_).imp ?_
  · rintro e rest d₁ ⟨done, hdone, h₁⟩
    obtain ⟨a, r, ha⟩ := hthere e (by simp [hdone])
    have hfresh : e ∉ done := by
      rw [hdone] at hnodup
      exact fun hd => (List.nodup_append.1 hnodup).2.2 e hd e (List.mem_cons_self ..) rfl
    refine (h₁.unlink hc ha (by simpa using hfresh) (by simp)).imp fun _ d₂ h₂ =>
      ⟨done ++ [e], by simp [hdone], ?_⟩
    rw [List.map_append]
    exact h₂
  · rintro _ d₁ ⟨done, hdone, h₁⟩
    rw [hdone, List.append_nil]
    exact h₁

end Shows

/-! ## The whole removal -/

/-- Who may write a node that is no root gets its record. -/
theorem Fetched.destroyable {d₀ : Desk σ} (h : Fetched t d₀ d) {actor : Actor} {n : NodeId}
    {r : NodeRecord} (ha : NodeIn (d₀.view t) n a r) (hw : a.permits actor.requester .write = true)
    (hty : a.type ≠ rootType) :
    Work.Ends (actor.destroyable n) d (fun s d' => s = r ∧ Fetched t d₀ d') fun _ _ => False := by
  refine ((h.check actor n .write).mono (fun _ _ hc => hc) fun e _ hc => hc.1 a ha.1 hw).andThen ?_
  rintro b d₁ ⟨hb, -, h₁⟩
  obtain rfl : b.clean = a := Option.some.inj (hb.symm.trans ha.1)
  have hr : b.node? = some r := ha.2
  rw [hr]
  refine .bind (.pure ?_)
  split
  · rename_i hroot
    exact absurd ((Anchor.type_of_node? hr).trans hroot) hty
  · exact .pure ⟨rfl, h₁⟩

/-- A node goes with its edges, and each of them leaves what it leaves by
itself. -/
theorem Over.destroy (hd : d.Over t) (hk : d.draft.Keyed) (hc : (d.view t).Consistent)
    (hm : (d.view t).Mirrored) (actor : Actor) {n : NodeId} {r : NodeRecord}
    (ha : NodeIn (d.view t) n a r) (hw : a.permits actor.requester .write = true)
    (hty : a.type ≠ rootType) :
    ∃ (edges : List EdgeId) (d' : Desk σ), (∀ e, e ∈ edges ↔ ∃ p, e ∈ r.edgesAt p) ∧
      actor.destroy n d = .ok () d' ∧
      Shows t ((d.view t).bared t.content.get? (edges.map .edge ++ [.node n]))
        ((d.view t).buried d.draft.removed? (edges.map .edge ++ [.node n])) d' := by
  have hends : Work.Ends (actor.destroy n) d (fun _ d' => ∃ edges : List EdgeId,
      (∀ e, e ∈ edges ↔ ∃ p, e ∈ r.edgesAt p) ∧
      Shows t ((d.view t).bared t.content.get? (edges.map .edge ++ [.node n]))
        ((d.view t).buried d.draft.removed? (edges.map .edge ++ [.node n])) d')
      fun _ _ => False := by
    refine ((Fetched.refl hd).destroyable ha hw hty).andThen ?_
    rintro _ d₁ ⟨rfl, h₁⟩
    refine (h₁.doomed hc hm ha).andThen ?_
    rintro edges d₂ ⟨h₂, hedges⟩
    have hshows : Shows t (d.view t) d.draft.removed? d := ⟨hd, hk, rfl, rfl⟩
    refine ((hshows.fetched h₂).unlinks hc (Table.nodup_keys edges) fun e he => ?_).andThen ?_
    · obtain ⟨p, hp⟩ := (hedges e).1 he
      obtain ⟨b, s, hb, _⟩ := hc.listed ha hp
      exact ⟨b, s, hb⟩
    intro _ d₃ h₃
    have hhere : ObjectId.node n ∉ edges.keys.map ObjectId.edge := by simp
    refine (h₃.delete (.node n)).imp fun _ d₄ h₄ => ⟨edges.keys, hedges, ?_⟩
    rw [View.reveal_node hhere, View.buried_bared hhere] at h₄
    exact h₄
  obtain ⟨_, d', hrun, edges, hedges, hshows⟩ := hends.exists_ok
  exact ⟨edges, d', hedges, hrun, hshows⟩

/-- What has become of a desk's view and of its tombstones when a node and its
edges, listed in `gone`, were removed. -/
structure Destroyed (t : Tier σ) (n : NodeId) (gone : List ObjectId) (d d' : Desk σ) : Prop where
  falls : ∀ id, id ∈ gone ↔
    id = .node n ∨ ∃ e b s p, id = .edge e ∧ EdgeIn (d.view t) e b s ∧ s.endAt p = n
  removed : ∀ {id b}, id ∈ gone → d.view t id = some b →
    d'.view t id = if b.version = 0 then t.content.get? id else none
  nodes : ∀ {m b s}, m ≠ n → NodeIn (d.view t) m b s →
    d'.view t (.node m) = some (b.mapNode (·.without gone))
  strangers : ∀ {m b s}, m ≠ n → NodeIn (d.view t) m b s →
    (∀ e c u p, EdgeIn (d.view t) e c u → u.endAt p = n → u.endAt p.flip ≠ m) →
    d'.view t (.node m) = some b
  edges : ∀ {e b s}, ObjectId.edge e ∉ gone → EdgeIn (d.view t) e b s → d'.view t (.edge e) = some b
  unseen : ∀ {id}, d.view t id = none → d'.view t id = none
  tombstones : ∀ {id b}, id ∈ gone → d.view t id = some b → b.version ≠ 0 →
    d'.draft.removed? id = some b.version
  others : ∀ {id}, (id ∈ gone → ∀ b, d.view t id = some b → b.version = 0) →
    d'.draft.removed? id = d.draft.removed? id

theorem Shows.destroyed {n : NodeId} {r : NodeRecord} {edges : List EdgeId}
    (hc : (d.view t).Consistent) (ha : NodeIn (d.view t) n a r)
    (hedges : ∀ e, e ∈ edges ↔ ∃ p, e ∈ r.edgesAt p)
    (h : Shows t ((d.view t).bared t.content.get? (edges.map .edge ++ [.node n]))
      ((d.view t).buried d.draft.removed? (edges.map .edge ++ [.node n])) d') :
    d.Destroyed t n (edges.map .edge ++ [.node n]) d' := by
  generalize hgone : edges.map ObjectId.edge ++ [.node n] = gone at h
  have hnode : ∀ {m}, ObjectId.node m ∈ gone ↔ m = n := by simp [← hgone]
  -- in a consistent view the edges that the node lists are those that have it as an end
  have hedge : ∀ {e}, ObjectId.edge e ∈ gone ↔ ∃ b s p, EdgeIn (d.view t) e b s ∧
      s.endAt p = n := by
    intro e
    have hin : ObjectId.edge e ∈ gone ↔ e ∈ edges := by simp [← hgone]
    rw [hin, hedges]
    simp only [hc.listed_iff ha]
    constructor
    · rintro ⟨p, b, s, hb, hend⟩
      exact ⟨b, s, p, hb, hend⟩
    · rintro ⟨b, s, p, hb, hend⟩
      exact ⟨p, b, s, hb, hend⟩
  have hstays : ∀ {m b s}, m ≠ n → NodeIn (d.view t) m b s →
      d'.view t (.node m) = some (b.mapNode (·.without gone)) := by
    intro m b s hm hb
    rw [h.view_eq, View.bared_of_not_mem fun hin => hm (hnode.1 hin), View.without,
      if_neg fun hin => hm (hnode.1 hin), hb.1, Option.map_some]
  refine ⟨?_, ?_, hstays, ?_, ?_, ?_, ?_, ?_⟩
  · rintro (m | e)
    · rw [hnode]
      simp
    · rw [hedge]
      simp
  · intro id b hin hb
    rw [h.view_eq, View.bared_of_mem hin, View.beneath, hb, Option.bind_some]
  · intro m b s hm hb hapart
    have hsame := hc.without_stranger hb hm (fun _ => hedge.1) hapart
    rw [hstays hm hb, Anchor.mapNode_congr (g := fun r => r) hb.2 hsame, Anchor.mapNode_id_eq]
  · intro e b s hin hb
    rw [h.view_eq, View.bared_of_not_mem hin, View.without, if_neg hin, hb.1, Option.map_some,
      Anchor.mapNode_of_edge? hb.2]
  · intro id hnone
    rw [h.view_eq, View.bared_of_none hnone]
  · intro id b hin hb hv
    rw [h.removed_eq, View.buried, if_pos hin, View.tombstone, hb, Option.bind_some, if_neg hv]
    rfl
  · intro id hzero
    rw [h.removed_eq, View.buried]
    split
    · rename_i hin
      rw [View.tombstone_of_new (hzero hin)]
      rfl
    · rfl

/-- Whoever may write a node that is no root can destroy it. Then it has gone
with every edge that has it as an end, and its neighbors have lost these edges
and nothing else; all other objects are as they were. Each removed object that
was ever committed has left a tombstone of its version, and no others have. In
the place of one that was never committed shows what is stored there, if
anything is. -/
theorem destroying_is_exact (hd : d.Over t) (hk : d.draft.Keyed) (hc : (d.view t).Consistent)
    (hm : (d.view t).Mirrored) (actor : Actor) {n : NodeId} {r : NodeRecord}
    (ha : NodeIn (d.view t) n a r) (hw : a.permits actor.requester .write = true)
    (hty : a.type ≠ rootType) :
    ∃ gone d', actor.destroy n d = .ok () d' ∧ d.Destroyed t n gone d' := by
  obtain ⟨edges, d', hedges, hrun, hshows⟩ := hd.destroy hk hc hm actor ha hw hty
  exact ⟨_, d', hrun, hshows.destroyed hc ha hedges⟩

end Desk

/-- If the identity of a new node was stored all the same, its removal puts what
is stored in its place. -/
theorem Desk.destroying_may_uncover :
    ∃ (t : Tier Vault) (d : Desk Vault) (actor : Actor) (n : NodeId) (a : Anchor) (r : NodeRecord),
      d.Over t ∧ d.draft.Keyed ∧ (d.view t).Consistent ∧ (d.view t).Mirrored ∧
      NodeIn (d.view t) n a r ∧ a.permits actor.requester .write = true ∧ a.type ≠ rootType ∧
      ∃ d', actor.destroy n d = .ok () d' ∧ d'.view t (.node n) ≠ none := by
  have hother : ∀ id, id ≠ Anchor.newcomer.id → Tier.ofNamesake.content.get? id = none :=
    fun id hid => (Vault.get?_ofNamesake id).trans (if_neg hid)
  have hview : ∀ id, (arrival Vault.ofNamesake Anchor.newcomer).view .ofNamesake id =
      if id = Anchor.newcomer.id then some Anchor.newcomer.clean else none := view_arrival hother
  have hc : ((arrival Vault.ofNamesake Anchor.newcomer).view .ofNamesake).Consistent :=
    arrival_consistent hother rfl rfl
  have hm : ((arrival Vault.ofNamesake Anchor.newcomer).view .ofNamesake).Mirrored := by
    intro e a r x ha _
    have hedge := ha.1
    rw [hview, if_neg (by simp [Anchor.newcomer, Anchor.ofNode])] at hedge
    cases hedge
  have ha : NodeIn ((arrival Vault.ofNamesake Anchor.newcomer).view .ofNamesake) ⟨⟨1⟩⟩
      Anchor.newcomer.clean (NodeRecord.isolated ⟨⟨4⟩⟩ Fields.empty) :=
    ⟨(hview _).trans (if_pos rfl), rfl⟩
  obtain ⟨edges, d', hedges, hrun, hshows⟩ := (arrival_over rfl).destroy arrival_keyed hc hm
    ⟨default, ⟨⟨⟨2⟩⟩⟩⟩ ha rfl Anchor.newcomer_plain
  refine ⟨.ofNamesake, _, _, _, _, _, arrival_over rfl, arrival_keyed, hc, hm, ha, rfl,
    Anchor.newcomer_plain, d', hrun, ?_⟩
  have hstored := (hshows.destroyed hc ha hedges).removed (by simp) ha.1
  have hnew : Anchor.newcomer.clean.version = 0 := rfl
  rw [hstored, if_pos hnew]
  exact fun hnone => by cases (Vault.get?_ofNamesake _).symm.trans hnone

namespace Crossing

def nearby : NodeRecord := ⟨⟨⟨4⟩⟩, Fields.empty, [road], []⟩

def faraway : NodeRecord := ⟨⟨⟨4⟩⟩, Fields.empty, [], [road]⟩

def way : EdgeRecord := ⟨⟨⟨5⟩⟩, Fields.empty, near, far, true, none⟩

/-- An anchor as it is stored. -/
def stored (a : Anchor) : Anchor := { a with version := 1, dirty := false }

theorem get?_stored (id : ObjectId) : desk.shared.durable.anchors.get? id =
    if id = .edge road then some (stored (Anchor.ofEdge road tenant way))
    else if id = .node far then some (stored (Anchor.ofNode far tenant faraway))
    else if id = .node near then some (stored (Anchor.ofNode near tenant nearby))
    else none := by
  refine (Table.get?_insert ..).trans (if_congr Iff.rfl rfl ?_)
  refine (Table.get?_insert ..).trans (if_congr Iff.rfl rfl ?_)
  exact Table.get?_insert ..

/-- The vault of the crossing can be read. -/
def tier : Tier Vault := .ofVault desk.shared.durable fun {id a} h => by
  rw [get?_stored] at h
  split at h
  · cases h
    exact ⟨(‹id = _›).symm, rfl⟩
  · split at h
    · cases h
      exact ⟨(‹id = _›).symm, rfl⟩
    · split at h
      · cases h
        exact ⟨(‹id = _›).symm, rfl⟩
      · cases h

theorem desk_over : desk.Over tier := ⟨rfl, .of_empty rfl⟩

theorem desk_keyed : desk.draft.Keyed := .of_empty rfl

theorem view_desk : desk.view tier = desk.shared.durable.anchors.get? := by
  funext id
  show (desk.shared.durable.anchors.get? id).map Anchor.clean = _
  rw [get?_stored]
  split
  · rfl
  · split
    · rfl
    · split <;> rfl

theorem nodeIn_iff {n : NodeId} {a : Anchor} {r : NodeRecord} : NodeIn (desk.view tier) n a r ↔
    n = far ∧ a = stored (Anchor.ofNode far tenant faraway) ∧ r = faraway ∨
      n = near ∧ a = stored (Anchor.ofNode near tenant nearby) ∧ r = nearby := by
  constructor
  · rintro ⟨ha, hr⟩
    rw [view_desk, get?_stored, if_neg (by simp)] at ha
    split at ha
    · rename_i hn
      cases ha
      cases hr
      exact .inl ⟨ObjectId.node.inj hn, rfl, rfl⟩
    · split at ha
      · rename_i hn
        cases ha
        cases hr
        exact .inr ⟨ObjectId.node.inj hn, rfl, rfl⟩
      · cases ha
  · rintro (⟨rfl, rfl, rfl⟩ | ⟨rfl, rfl, rfl⟩)
    · exact ⟨rfl, rfl⟩
    · exact ⟨rfl, rfl⟩

theorem edgeIn_iff {e : EdgeId} {a : Anchor} {r : EdgeRecord} : EdgeIn (desk.view tier) e a r ↔
    e = road ∧ a = stored (Anchor.ofEdge road tenant way) ∧ r = way := by
  constructor
  · rintro ⟨ha, hr⟩
    rw [view_desk, get?_stored] at ha
    split at ha
    · rename_i he
      cases ha
      cases hr
      exact ⟨ObjectId.edge.inj he, rfl, rfl⟩
    · simp at ha
  · rintro ⟨rfl, rfl, rfl⟩
    exact ⟨rfl, rfl⟩

theorem view_consistent : (desk.view tier).Consistent := by
  refine ⟨fun {n a} ha => ?_, fun {e a} ha => ?_, fun {e a r} ha p => ?_,
    fun {n a r p e} ha he => ?_⟩
  · rw [view_desk, get?_stored, if_neg (by simp)] at ha
    split at ha
    · cases ha
      exact ⟨_, rfl⟩
    · split at ha
      · cases ha
        exact ⟨_, rfl⟩
      · cases ha
  · rw [view_desk, get?_stored] at ha
    split at ha
    · cases ha
      exact ⟨_, rfl⟩
    · simp at ha
  · obtain ⟨rfl, rfl, rfl⟩ := edgeIn_iff.1 ha
    cases p with
    | out => exact ⟨_, nearby, nodeIn_iff.2 (.inr ⟨rfl, rfl, rfl⟩), by decide⟩
    | into => exact ⟨_, faraway, nodeIn_iff.2 (.inl ⟨rfl, rfl, rfl⟩), by decide⟩
  · have hroad : ∀ q, way.endAt q = n → e = road → ∃ b s, EdgeIn (desk.view tier) e b s ∧
        s.endAt q = n := by
      rintro q hend rfl
      exact ⟨_, way, edgeIn_iff.2 ⟨rfl, rfl, rfl⟩, hend⟩
    rcases nodeIn_iff.1 ha with ⟨rfl, rfl, rfl⟩ | ⟨rfl, rfl, rfl⟩
    · cases p with
      | out => cases he
      | into => exact hroad .into rfl (List.mem_singleton.1 he)
    · cases p with
      | out => exact hroad .out rfl (List.mem_singleton.1 he)
      | into => cases he

theorem view_mirrored : (desk.view tier).Mirrored := fun ha ht => by
  obtain ⟨rfl, rfl, rfl⟩ := edgeIn_iff.1 ha
  cases ht

end Crossing

/-- The far end goes with the road, which leaves a tombstone, and the near end
stays without the road. -/
theorem Desk.destroying_removes_far_end :
    ∃ d', Crossing.actor.destroy Crossing.far Crossing.desk = .ok () d' ∧
    d'.view Crossing.tier (.node Crossing.far) = none ∧
    d'.view Crossing.tier (.edge Crossing.road) = none ∧
    d'.draft.removed? (.edge Crossing.road) = some 1 ∧
    ∃ b, NodeIn (d'.view Crossing.tier) Crossing.near b
      { Crossing.nearby with outgoing := [] } := by
  have hfar := Crossing.nodeIn_iff.2 (.inl ⟨rfl, rfl, rfl⟩)
  have hnear := Crossing.nodeIn_iff.2 (.inr ⟨rfl, rfl, rfl⟩)
  have hroad := Crossing.edgeIn_iff.2 ⟨rfl, rfl, rfl⟩
  obtain ⟨gone, d', hrun, h⟩ := destroying_is_exact Crossing.desk_over Crossing.desk_keyed
    Crossing.view_consistent Crossing.view_mirrored Crossing.actor hfar rfl (by decide +kernel)
  have hgone : ObjectId.edge Crossing.road ∈ gone :=
    (h.falls _).2 (.inr ⟨_, _, _, .into, rfl, hroad, rfl⟩)
  have hlists : Crossing.nearby.without gone = { Crossing.nearby with outgoing := [] } := by
    simp [NodeRecord.without, Crossing.nearby, hgone]
  refine ⟨d', hrun, ?_, ?_, ?_, _, h.nodes (by decide) hnear, ?_⟩
  · exact (h.removed ((h.falls _).2 (.inl rfl)) hfar.1).trans (if_neg (by decide))
  · exact (h.removed hgone hroad.1).trans (if_neg (by decide))
  · exact h.tombstones hgone hroad.1 (by decide)
  · rw [Anchor.mapNode_node? hnear.2, hlists]

end Wayfarer
