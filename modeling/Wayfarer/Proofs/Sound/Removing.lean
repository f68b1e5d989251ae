import Wayfarer.Proofs.Sound
import Wayfarer.Proofs.View.Removing

/-!
# Removing edges and nodes

Removing an edge takes it off its ends first, removing a node removes its edges
first. The halves of an undirected link go together: a list of edges can be
removed one after another if with every edge that the request sees it has the
twin as well, or the twin has lapsed (`Desk.Paired`).

* `Desk.Shrinks` is what removals do to what a request sees.
* `Sound.removeEdge` removes one edge, `Sound.removeEdges` a list of them.
* `Sound.deleteNode` removes a node whose edges are out of sight.
-/

namespace Wayfarer

variable {c : Setting} {n : Nat} {due due' : EdgeId → Prop} {dead : NodeId → Prop}
  {d d' d'' : Desk Vault} {a b : Anchor}

/-- The request sees `t` as the twin of an edge. -/
def Desk.Twins (d : Desk Vault) (e t : EdgeId) : Prop :=
  ∃ a r, d.look (.edge e) = some a ∧ a.edge? = some r ∧ r.twin = some t

/-- What removals do to a desk: an edge is seen as before or not at all, a node
lists some of the edges that it listed, and a copy of a node is not lost without
the node. -/
structure Desk.Shrinks (d d' : Desk Vault) : Prop where
  edges : ∀ {e b}, d'.look (.edge e) = some b → d.look (.edge e) = some b
  nodes : ∀ {m b r}, d'.look (.node m) = some b → b.node? = some r →
    ∃ b' r', d.look (.node m) = some b' ∧ b'.node? = some r' ∧ b.type = b'.type ∧
      ∀ p, r.edgesAt p ⊆ r'.edgesAt p
  unseen : ∀ {id}, d.look id = none → d'.look id = none
  copies : ∀ {m b}, d.draft.copy? (.node m) = some b →
    (∃ b', d'.draft.copy? (.node m) = some b') ∨ d'.look (.node m) = none
  removed : ∀ {e v}, d.draft.removed? (.edge e) = some v →
    ∃ v', d'.draft.removed? (.edge e) = some v'

namespace Desk.Shrinks

theorem of_loaded (h : d.Loaded d') : d.Shrinks d' := by
  refine ⟨fun hb => ?_, fun hb hr => ?_, fun hn => ?_, fun hb => ?_, fun hv => ?_⟩
  · rwa [h.look_eq] at hb
  · rw [h.look_eq] at hb
    exact ⟨_, _, hb, hr, rfl, fun _ _ he => he⟩
  · rwa [h.look_eq]
  · exact .inl ⟨_, h.kept hb⟩
  · exact ⟨_, by rw [Draft.removed?, h.tombstones]; exact hv⟩

theorem trans (h : d.Shrinks d') (h' : d'.Shrinks d'') : d.Shrinks d'' := by
  refine ⟨fun hb => h.edges (h'.edges hb), fun hb hr => ?_, fun hn => h'.unseen (h.unseen hn),
    fun hb => ?_, fun hv => ?_⟩
  · obtain ⟨b₁, r₁, hb₁, hr₁, hty₁, hsub₁⟩ := h'.nodes hb hr
    obtain ⟨b₂, r₂, hb₂, hr₂, hty₂, hsub₂⟩ := h.nodes hb₁ hr₁
    exact ⟨b₂, r₂, hb₂, hr₂, hty₁.trans hty₂, fun p _ he => hsub₂ p (hsub₁ p he)⟩
  · rcases h.copies hb with ⟨b', hb'⟩ | hn
    · exact h'.copies hb'
    · exact .inr (h'.unseen hn)
  · obtain ⟨v', hv'⟩ := h.removed hv
    exact h'.removed hv'

theorem twins {e t : EdgeId} (h : d.Shrinks d') (ht : d'.Twins e t) : d.Twins e t := by
  obtain ⟨a, r, ha, hr, ht⟩ := ht
  exact ⟨a, r, h.edges ha, hr, ht⟩

end Desk.Shrinks

/-- A removed object is not seen, and nothing else changes. A new one must not
be stored. -/
theorem Desk.look_bury {id j : ObjectId} (hnew : a.version = 0 → d.stored.get? id = none) :
    (d.bury id a).look j = if j = id then none else d.look j := by
  by_cases hj : j = id
  · subst hj
    rw [if_pos rfl, Desk.look_eq_none_iff]
    by_cases hz : a.version = 0
    · exact .inr ⟨(Desk.bury_copy? ..).trans (if_pos rfl), hnew hz⟩
    · refine .inl (Table.contains_iff.2 ⟨a.version, ?_⟩)
      exact (Desk.bury_removed? ..).trans (if_pos ⟨rfl, hz⟩)
  · have hc : (d.bury id a).draft.copy? j = d.draft.copy? j := by simp [hj]
    have hr : (d.bury id a).draft.removed? j = d.draft.removed? j := by
      rw [Desk.bury_removed?, if_neg fun hh => hj hh.1]
    rw [if_neg hj]
    exact Desk.look_congr hc hr rfl

theorem Sound.look_bury (h : Sound c n due dead d) {id j : ObjectId}
    (ha : d.draft.copy? id = some a) :
    (d.bury id a).look j = if j = id then none else d.look j :=
  Desk.look_bury fun hz => h.stored ▸ h.chronicle.stored_eq_none (h.dated.born ha hz).2.1

theorem Sound.shrinks_bury (h : Sound c n due dead d) {id : ObjectId}
    (ha : d.draft.copy? id = some a) : d.Shrinks (d.bury id a) := by
  have hlook : ∀ j, (d.bury id a).look j = if j = id then none else d.look j :=
    fun j => h.look_bury ha
  have hkeep : ∀ {j b}, (d.bury id a).look j = some b → d.look j = some b := by
    intro j b hb
    rw [hlook] at hb
    split at hb
    · cases hb
    · exact hb
  refine ⟨hkeep, fun hb hr => ⟨_, _, hkeep hb, hr, rfl, fun _ _ he => he⟩, fun hn => ?_,
    fun {m b} hb => ?_, fun {e v} hv => ?_⟩
  · rw [hlook]
    split
    · rfl
    · exact hn
  · by_cases hm : ObjectId.node m = id
    · exact .inr ((hlook _).trans (if_pos hm))
    · exact .inl ⟨b, (Desk.bury_copy? ..).trans ((if_neg hm).trans hb)⟩
  · rw [Desk.bury_removed?]
    split
    · exact ⟨_, rfl⟩
    · exact ⟨v, hv⟩

/-- A lapsed edge stays lapsed when more is removed. -/
theorem Lapsed.shrinks {e : EdgeId} (hl : Lapsed c d.draft e) (h : Sound c n due dead d)
    (h' : Sound c n due' dead d') (hs : d.Shrinks d') : Lapsed c d'.draft e := by
  refine ⟨?_, fun x hx => ?_⟩
  · rcases hl.1 with ⟨v, hv⟩ | hst
    · exact .inl (hs.removed hv)
    · exact .inr hst
  · obtain ⟨_, hcopy | ⟨_, hst⟩⟩ := Desk.look_eq_some (hs.edges (h'.look_of_copy? hx))
    · exact hl.2 x hcopy
    · rw [h.stored] at hst
      exact h.chronicle.positive (h.chronicle.stored_past hst).1

/-! ## Taking an edge off its ends -/

/-- A node that an edge was taken off, unless it is dead or out of sight. -/
def Released (dead : NodeId → Prop) (d : Desk Vault) (e : EdgeId) (m : NodeId) : Prop :=
  dead m ∨ d.look (.node m) = none ∨
    ∃ b r, NodeIn d.draft.copy? m b r ∧ b.dirty = true ∧ ∀ p, e ∉ r.edgesAt p

theorem Released.loaded {e : EdgeId} {m : NodeId} (h : Released dead d e m) (hl : d.Loaded d') :
    Released dead d' e m := by
  rcases h with hdead | hn | ⟨b, r, hb, hrest⟩
  · exact .inl hdead
  · exact .inr (.inl ((hl.look_eq _).trans hn))
  · exact .inr (.inr ⟨b, r, ⟨hl.kept hb.1, hb.2⟩, hrest⟩)

/-- The copy of a node with an edge taken off it. -/
def Anchor.detached (a : Anchor) (e : EdgeId) : Anchor :=
  { a.mapNode (·.detach e) with dirty := true }

section Detaching

variable {m : NodeId} {r : NodeRecord} {e : EdgeId}

theorem Anchor.detached_node? (hr : a.node? = some r) : (a.detached e).node? = some (r.detach e) :=
  Anchor.mapNode_node? hr _

theorem NodeRecord.mem_detach {p : Port} {x : EdgeId} :
    x ∈ (r.detach e).edgesAt p ↔ x ∈ r.edgesAt p ∧ x ≠ e := by
  simp [edgesAt_detach]

theorem NodeIn.detached (ha : NodeIn d.draft.copy? m a r) :
    NodeIn (d.keep (.node m) (a.detached e)).draft.copy? m (a.detached e) (r.detach e) :=
  ⟨(Desk.keep_copy? ..).trans (if_pos rfl), Anchor.detached_node? ha.2⟩

theorem Released.of_detached (ha : NodeIn d.draft.copy? m a r) :
    Released dead (d.keep (.node m) (a.detached e)) e m :=
  .inr (.inr ⟨_, _, ha.detached, rfl, fun _ hin => (NodeRecord.mem_detach.1 hin).2 rfl⟩)

/-- Taking an edge off one node leaves it off the others. -/
theorem Released.detached {m' : NodeId} (h : Released dead d e m') (hs : Sound c n due dead d)
    (ha : NodeIn d.draft.copy? m a r) : Released dead (d.keep (.node m) (a.detached e)) e m' := by
  rcases h with hdead | hn | ⟨b, s, hb, hrest⟩
  · exact .inl hdead
  · refine .inr (.inl ?_)
    rw [Desk.look_keep (hs.dated.keyed.removed?_of_copy? ha.1), if_neg]
    · exact hn
    · intro hm
      rw [hm, hs.look_of_copy? ha.1] at hn
      cases hn
  · by_cases hm : m' = m
    · subst hm
      exact .of_detached ha
    · exact .inr (.inr ⟨b, s, hb.keep (fun _ => Desk.keep_copy? ..) hm, hrest⟩)

/-- Taking a due edge off a node keeps a request sound. -/
theorem Sound.detached (h : Sound c n due dead d) (ha : NodeIn d.draft.copy? m a r) (he : due e) :
    Sound c n due dead (d.keep (.node m) (a.detached e)) := by
  refine h.edited ha.1 (Anchor.mapNode_id ..) (Anchor.mapNode_version ..) rfl ?_
  refine h.wired.rewire h.lineage h.dated ha (Anchor.detached_node? ha.2) (Anchor.mapNode_id ..)
    (Anchor.mapNode_version ..) rfl rfl (fun p => ?_) (fun p x hx => ?_) fun p x hx => ?_
  · rw [NodeRecord.edgesAt_detach]
    exact (h.wired.nodup ha p).filter _
  · by_cases hxe : x = e
    · exact .inr (hxe ▸ he)
    · exact .inl (NodeRecord.mem_detach.2 ⟨hx, hxe⟩)
  · exact .inl (NodeRecord.mem_detach.1 hx).1

theorem Sound.shrinks_detached (h : Sound c n due dead d) (ha : NodeIn d.draft.copy? m a r) :
    d.Shrinks (d.keep (.node m) (a.detached e)) := by
  have hrem := h.dated.keyed.removed?_of_copy? ha.1
  refine ⟨fun {x y} hy => ?_, fun {m' y s} hy hs => ?_, fun {j} hj => ?_, fun {m' y} hy => ?_,
    fun hv => ⟨_, hv⟩⟩
  · rwa [Desk.look_keep hrem, if_neg (by simp)] at hy
  · rw [Desk.look_keep hrem] at hy
    split at hy
    · rename_i hm
      cases hm
      cases hy
      have hs' := Anchor.detached_node? (e := e) ha.2
      cases hs'.symm.trans hs
      refine ⟨a, r, h.look_of_copy? ha.1, ha.2, ?_, fun p x hx => (NodeRecord.mem_detach.1 hx).1⟩
      rw [Anchor.type_of_node? hs', Anchor.type_of_node? ha.2]
      rfl
    · exact ⟨y, s, hy, hs, rfl, fun _ _ hx => hx⟩
  · rw [Desk.look_keep hrem]
    split
    · rename_i hjm
      rw [hjm, h.look_of_copy? ha.1] at hj
      cases hj
    · exact hj
  · rw [Desk.keep_copy?]
    split
    · exact .inl ⟨_, rfl⟩
    · exact .inl ⟨y, hy⟩

end Detaching

theorem Sound.release (h : Sound c n due dead d) {nodes : OrdSet NodeId}
    (hdead : ∀ m, dead m ↔ nodes.contains m = true) {e : EdgeId} (he : due e) (m : NodeId) :
    Work.Ends (Reclaim.release e nodes m) d (fun _ d' => Sound c n due dead d' ∧ d.Shrinks d' ∧
      Released dead d' e m ∧ (∀ m', Released dead d e m' → Released dead d' e m') ∧
      ∀ {x b r}, EdgeIn d.draft.copy? x b r → EdgeIn d'.draft.copy? x b r) fun _ _ => False := by
  unfold Reclaim.release
  by_cases hm : nodes.contains m = true
  · rw [if_pos hm]
    exact .pure ⟨h, .of_loaded (.refl h.agreed), .inl ((hdead m).2 hm), fun _ hr => hr,
      fun hx => hx⟩
  rw [if_neg hm]
  refine (Desk.change_ends h.agreed _ _).andThen ?_
  rintro before d₂ ⟨rfl, ⟨hnone, hl⟩ | ⟨a, d₁, hbefore, hl, ha, rfl⟩⟩
  · exact .pure ⟨h.loaded hl, .of_loaded hl, .inr (.inl ((hl.look_eq _).trans hnone)),
      fun _ hr => hr.loaded hl, fun hx => ⟨hl.kept hx.1, hx.2⟩⟩
  -- the node is there: its copy gets the edge filtered out of both lists
  have h₁ := h.loaded hl
  obtain ⟨r, hr⟩ := h₁.node_of_look (h₁.look_of_copy? ha)
  have hin : NodeIn d₁.draft.copy? m a r := ⟨ha, hr⟩
  refine .pure ⟨h₁.detached hin he, (Desk.Shrinks.of_loaded hl).trans (h₁.shrinks_detached hin),
    .of_detached hin, fun _ hr => (hr.loaded hl).detached h₁ hin, fun {x y s} hx => ?_⟩
  have hx₁ : EdgeIn d₁.draft.copy? x y s := ⟨hl.kept hx.1, hx.2⟩
  exact (edgeIn_congr_node fun _ => Desk.keep_copy? ..).2 hx₁

/-! ## Removing edges -/

/-- An edge that a copy lists ends at that node. -/
theorem Sound.endAt_of_listed (h : Sound c n due dead d) {e : EdgeId} {r : EdgeRecord}
    (he : EdgeIn d.draft.copy? e a r) {m : NodeId} {s : NodeRecord} {p : Port}
    (hb : NodeIn d.draft.copy? m b s) (hin : e ∈ s.edgesAt p) : r.endAt p = m := by
  rcases h.wired.listed hb hin with ⟨x, t, hx, _, hxin⟩ | ⟨x, t, hx, _, hend⟩ | ⟨_, hno, _⟩
  · obtain ⟨y, u, hy, hend⟩ := h.lineage.listed hx hxin
    rw [(h.wired.alike he hy).2 p, hend]
  · obtain ⟨_, rfl⟩ := he.unique hx
    exact hend
  · rw [he.1] at hno
    cases hno

/-- A released node is free of the edge, provided that dead nodes have
copies. -/
theorem Sound.freed_of_released (h : Sound c n due dead d) {e : EdgeId} {m : NodeId}
    (hcopy : dead m → (∃ b, d.draft.copy? (.node m) = some b) ∨ d.look (.node m) = none)
    (hr : Released dead d e m) : Freed c dead d.draft m := by
  have hunseen : d.look (.node m) = none → Freed c dead d.draft m := by
    intro hn
    rcases Desk.look_eq_none_iff.1 hn with hrem | ⟨hno, hst⟩
    · exact .inl (Table.contains_iff.1 hrem)
    · rw [h.stored] at hst
      exact .inr (.inr ⟨hno, hst⟩)
  rcases hr with hdead | hn | ⟨b, r, hb, hdirty, _⟩
  · rcases hcopy hdead with ⟨b, hb⟩ | hn
    · exact .inr (.inl ⟨b, hb, .inr hdead⟩)
    · exact hunseen hn
  · exact hunseen hn
  · exact .inr (.inl ⟨b, hb.1, .inl hdirty⟩)

/-- Removing an edge. Its twin has to be due, or to have lapsed. -/
theorem Sound.removeEdge (h : Sound c n due dead d) {nodes : OrdSet NodeId}
    (hdead : ∀ m, dead m ↔ nodes.contains m = true)
    (hcopies : ∀ m, dead m → (∃ b, d.draft.copy? (.node m) = some b) ∨ d.look (.node m) = none)
    {e : EdgeId} (hdue : ∀ x, due x → x = e ∨ due' x)
    (htwin : ∀ t, d.Twins e t → t = e ∨ due' t ∨ Lapsed c d.draft t) :
    Work.Ends (Reclaim.removeEdge nodes e) d (fun _ d' => Sound c n due' dead d' ∧ d.Shrinks d' ∧
      d'.look (.edge e) = none) fun _ _ => False := by
  refine (h.loadEdge e).andThen ?_
  rintro found d₁ ⟨hl, ⟨rfl, hnone⟩ | ⟨a, r, rfl, hlook, ha⟩⟩
  · have h₁ := h.loaded hl
    have hnone₁ : d₁.look (.edge e) = none := (hl.look_eq _).trans hnone
    refine .pure ⟨h₁.rewired (h₁.wired.undue h.chronicle h₁.dated fun x hx => ?_), .of_loaded hl,
      hnone₁⟩
    rcases hdue x hx with rfl | hx
    · exact .inr (.inl (h₁.unseen_iff.2 hnone₁))
    · exact .inl hx
  -- the edge becomes due itself while it is taken off its ends
  have h₁ : Sound c n (fun x => x = e ∨ due' x) dead d₁ := by
    have h₁ := h.loaded hl
    exact h₁.rewired (h₁.wired.undue h.chronicle h₁.dated fun x hx => .inl (hdue x hx))
  refine (h₁.release hdead (.inl rfl) r.source).andThen ?_
  rintro _ d₂ ⟨h₂, hs₂, hsource, _, hkeep₂⟩
  refine (h₂.release hdead (.inl rfl) r.target).andThen ?_
  rintro _ d₃ ⟨h₃, hs₃, htarget, hstill, hkeep₃⟩
  have hs : d.Shrinks d₃ := ((Desk.Shrinks.of_loaded hl).trans hs₂).trans hs₃
  refine (Desk.remove_ends h₃.agreed (.edge e)).andThen ?_
  rintro _ d₅ (⟨hn, _⟩ | ⟨a', d₄, _, hl₄, ha', rfl⟩)
  · rw [h₃.look_of_copy? (hkeep₃ (hkeep₂ ha)).1] at hn
    cases hn
  have h₄ := h₃.loaded hl₄
  have ha₄ : EdgeIn d₄.draft.copy? e a r := ⟨hl₄.kept (hkeep₃ (hkeep₂ ha)).1, ha.2⟩
  have haa : a' = a := by
    have := ha'.symm.trans ha₄.1
    simpa using this
  subst haa
  have hs₄ : d.Shrinks d₄ := hs.trans (.of_loaded hl₄)
  have hreleased : ∀ p, Released dead d₄ e (r.endAt p) := by
    intro p
    cases p with
    | out => exact (hstill _ hsource).loaded hl₄
    | into => exact htarget.loaded hl₄
  have hcopies₄ : ∀ m, dead m →
      (∃ b, d₄.draft.copy? (.node m) = some b) ∨ d₄.look (.node m) = none := by
    intro m hm
    rcases hcopies m hm with ⟨b, hb⟩ | hn
    · exact hs₄.copies hb
    · exact .inr (hs₄.unseen hn)
  refine .pure ⟨h₄.buried ha₄.1 ?_, hs₄.trans (h₄.shrinks_bury ha₄.1), ?_⟩
  · refine h₄.wired.buryEdge h.chronicle h₄.dated ha₄ ?_ ?_ ?_ fun x hx => hx
    · intro _ p
      exact h₄.freed_of_released (hcopies₄ _) (hreleased p)
    · intro m b s p hb hin
      have hend := h₄.endAt_of_listed ha₄ hb hin
      rcases hend ▸ hreleased p with hd | hn | ⟨b', s', hb', _, hnot⟩
      · exact hd
      · rw [h₄.look_of_copy? hb.1] at hn
        cases hn
      · obtain ⟨_, rfl⟩ := hb.unique hb'
        exact absurd hin (hnot p)
    · intro t ht
      rcases htwin t ⟨_, r, hlook, ha.2, ht⟩ with rfl | hd | hlapsed
      · exact .inl rfl
      · exact .inr (.inl hd)
      · exact .inr (.inr (hlapsed.shrinks h h₄ hs₄))
  · rw [h₄.look_bury ha₄.1, if_pos rfl]

/-- With every edge that the request sees, these edges include the twin, unless
it has lapsed. -/
def Desk.Paired (c : Setting) (d : Desk Vault) (edges : List EdgeId) : Prop :=
  ∀ e ∈ edges, ∀ t, d.Twins e t → t ∈ edges ∨ Lapsed c d.draft t

/-- What holds while some edges are removed one after another, `rest` of them
still to go. -/
structure Sound.Removing (c : Setting) (n : Nat) (dead : NodeId → Prop) (d : Desk Vault)
    (edges rest : List EdgeId) (d' : Desk Vault) : Prop where
  sound : Sound c n (· ∈ rest) dead d'
  shrinks : d.Shrinks d'
  done : ∀ e ∈ edges, e ∈ rest ∨ d'.look (.edge e) = none

namespace Sound

theorem Removing.start (h : Sound c n (fun _ => False) dead d) (edges : List EdgeId) :
    Removing c n dead d edges edges d :=
  ⟨h.rewired (h.wired.undue h.chronicle h.dated fun _ hx => hx.elim), .of_loaded (.refl h.agreed),
    fun _ he => .inl he⟩

theorem Removing.step (h : Sound c n due dead d) {edges rest : List EdgeId} {e : EdgeId}
    {nodes : OrdSet NodeId} (hdead : ∀ m, dead m ↔ nodes.contains m = true)
    (hcopies : ∀ m, dead m → (∃ b, d.draft.copy? (.node m) = some b) ∨ d.look (.node m) = none)
    (hpaired : d.Paired c edges) (he : e ∈ edges)
    (hr : Removing c n dead d edges (e :: rest) d') :
    Work.Ends (Reclaim.removeEdge nodes e) d' (fun _ d'' => Removing c n dead d edges rest d'')
      fun _ _ => False := by
  have hdue : ∀ x, x ∈ e :: rest → x = e ∨ x ∈ rest := fun x hx => List.mem_cons.1 hx
  refine (hr.sound.removeEdge hdead ?_ hdue ?_).imp ?_
  · intro m hm
    rcases hcopies m hm with ⟨b, hb⟩ | hn
    · exact hr.shrinks.copies hb
    · exact .inr (hr.shrinks.unseen hn)
  · intro t ht
    rcases hpaired e he t (hr.shrinks.twins ht) with hin | hlapsed
    · rcases hr.done t hin with hin | hn
      · rcases List.mem_cons.1 hin with rfl | hin
        · exact .inl rfl
        · exact .inr (.inl hin)
      · exact .inr (.inr ((hr.sound.unseen_iff.2 hn).lapsed hr.sound.dated))
    · exact .inr (.inr (hlapsed.shrinks h hr.sound hr.shrinks))
  · rintro _ d₂ ⟨h₂, hs₂, hn₂⟩
    refine ⟨h₂, hr.shrinks.trans hs₂, fun x hx => ?_⟩
    rcases hr.done x hx with hin | hn
    · rcases List.mem_cons.1 hin with rfl | hin
      · exact .inr hn₂
      · exact .inl hin
    · exact .inr (hs₂.unseen hn)

theorem Removing.finish {edges : List EdgeId} (h : Removing c n dead d edges [] d') :
    Sound c n (fun _ => False) dead d' ∧ d.Shrinks d' ∧ ∀ e ∈ edges, d'.look (.edge e) = none := by
  refine ⟨h.sound.rewired (h.sound.wired.undue h.sound.chronicle h.sound.dated ?_), h.shrinks, ?_⟩
  · intro x hx
    cases hx
  · intro e he
    rcases h.done e he with hin | hn
    · cases hin
    · exact hn

/-- Removing a node none of whose edges is seen. -/
theorem deleteNode (h : Sound c n (fun _ => False) dead d) {m : NodeId}
    (hm : ∀ {a r}, d.look (.node m) = some a → a.node? = some r →
      a.type ≠ rootType ∧ ∀ p, ∀ e ∈ r.edgesAt p, d.look (.edge e) = none) :
    Work.Ends (Desk.delete (.node m)) d (fun _ d' => Sound c n (fun _ => False) dead d' ∧
      d.Shrinks d' ∧ d'.look (.node m) = none) fun _ _ => False := by
  refine (Desk.remove_ends h.agreed (.node m)).imp ?_
  rintro _ d₂ (⟨hn, hl⟩ | ⟨a, d₁, hlook, hl, ha, rfl⟩)
  · exact ⟨h.loaded hl, .of_loaded hl, (hl.look_eq _).trans hn⟩
  · have h₁ := h.loaded hl
    obtain ⟨r, hr⟩ := h.node_of_look hlook
    obtain ⟨hty, hun⟩ := hm hlook hr
    refine ⟨h₁.buried ha ?_, (Desk.Shrinks.of_loaded hl).trans (h₁.shrinks_bury ha), ?_⟩
    · refine h₁.wired.buryNode h.lineage h₁.dated ⟨ha, hr⟩ hty fun p e he => ?_
      exact h₁.unseen_iff.2 ((hl.look_eq _).trans (hun p e he))
    · rw [h₁.look_bury ha, if_pos rfl]

/-! ## Twins -/

/-- A committed edge has the ends and the twin of the copy, or of the stored
anchor, that is seen. -/
theorem wasEdge_of_look (h : Sound c n due dead d) {e : EdgeId} {r : EdgeRecord}
    (hl : d.look (.edge e) = some a) (hr : a.edge? = some r) (hv : a.version ≠ 0) :
    ∃ b s, c.WasEdge e b s ∧ r.Alike s := by
  obtain ⟨_, hcopy | ⟨_, hst⟩⟩ := Desk.look_eq_some hl
  · obtain ⟨p, hp, hid, _⟩ := h.dated.based hcopy hv
    obtain ⟨s, hs⟩ := (h.lineage.fits hp).edge hid
    exact ⟨p, s, ⟨hp, hid, hs⟩, h.wired.alike ⟨hcopy, hr⟩ ⟨hp, hid, hs⟩⟩
  · rw [h.stored] at hst
    obtain ⟨hp, hid⟩ := h.chronicle.stored_past hst
    exact ⟨a, r, ⟨hp, hid, hr⟩, .refl r⟩

/-- Only copies of new edges have version zero. -/
theorem copy?_of_look_zero (h : Sound c n due dead d) {id : ObjectId} (hl : d.look id = some a)
    (hv : a.version = 0) : d.draft.copy? id = some a := by
  obtain ⟨_, hcopy | ⟨_, hst⟩⟩ := Desk.look_eq_some hl
  · exact hcopy
  · rw [h.stored] at hst
    exact absurd hv (h.chronicle.positive (h.chronicle.stored_past hst).1)

/-- The twin of an edge, if it is seen, runs opposite and has that edge as its
twin. -/
theorem mirrors_of_look (h : Sound c n (fun _ => False) dead d) {e t : EdgeId} {r s : EdgeRecord}
    (ha : d.look (.edge e) = some a) (hr : a.edge? = some r) (ht : r.twin = some t)
    (hb : d.look (.edge t) = some b) (hs : b.edge? = some s) : s.Mirrors r e := by
  by_cases hv : a.version = 0
  · obtain ⟨_, htwin⟩ := h.wired.attached ⟨h.copy?_of_look_zero ha hv, hr⟩ hv id
    obtain ⟨b', s', hb', _, hmir⟩ := htwin t ht
    rw [h.look_of_copy? hb'.1] at hb
    cases hb
    rw [hb'.2] at hs
    cases hs
    exact hmir
  · obtain ⟨x, u, hx, htw, hends⟩ := h.wasEdge_of_look ha hr hv
    obtain ⟨y, w, hy, hmir⟩ := h.lineage.twins hx (htw ▸ ht)
    -- a committed twin has no new copy
    have hbv : b.version ≠ 0 := fun hz =>
      (h.dated.born (h.copy?_of_look_zero hb hz) hz).2.1 hy.committed
    obtain ⟨z, v, hz, htw', hends'⟩ := h.wasEdge_of_look hb hs hbv
    obtain ⟨htw'', hends''⟩ := h.lineage.alike hz hy
    refine ⟨htw'.trans (htw''.trans hmir.1), fun p => ?_⟩
    rw [hends' p, hends'' p, hmir.2 p, hends p.flip]

/-- The twin of the twin is the edge itself. -/
theorem twins_back (h : Sound c n (fun _ => False) dead d) {e t x : EdgeId} (ht : d.Twins e t)
    (hx : d.Twins t x) : x = e := by
  obtain ⟨a, r, ha, hr, ht⟩ := ht
  obtain ⟨b, s, hb, hs, hx⟩ := hx
  have hmir := h.mirrors_of_look ha hr ht hb hs
  rw [hmir.1] at hx
  cases hx
  rfl

end Sound

end Wayfarer
