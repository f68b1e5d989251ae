import Wayfarer.Proofs.Discretion
import Wayfarer.Proofs.View.Finite

/-!
# What can be reached from a node

The nodes that `Actor.reachable` answers with are those to which a chain of
steps leads. A step goes along an edge that a node lists among those that leave
it, if both the edge and the node at its other end may be read (`View.Admits`).
Where two such edges of one pair are in the same list, a search follows only the
first of them (`View.Follows`); if twins are mirrored, this makes no difference.

* `Actor.Spreading` is what holds all through a search,
  `Actor.Spreading.advance` is one node of it and `Actor.spread_ends` the whole
  search.
* `Desk.reaching_is_exact`: which nodes are reached, and that the search never
  fails.
-/

namespace Wayfarer

namespace View

/-- A node lists an edge that leaves it for another node, and the other node is
there. -/
def Admits (w : View) (n m : NodeId) : Prop := w.Offers n m ∧ ∃ b, w (.node m) = some b

/-- The same for an edge that comes first of its pair in the list. -/
def Follows (w : View) (n m : NodeId) : Prop :=
  ∃ a r e, NodeIn w n a r ∧ e ∈ r.outgoing ∧ w.Leading r.outgoing e ∧
    (∃ b s, EdgeIn w e b s ∧ s.target = m) ∧ ∃ b, w (.node m) = some b

variable {v w : View} {root : RootId} {n m : NodeId}

theorem Follows.admits (h : w.Follows n m) : w.Admits n m := by
  obtain ⟨a, r, e, ha, he, -, ⟨b, s, hs, htarget⟩, hm⟩ := h
  exact ⟨⟨a, r, e, b, s, ha, he, hs, htarget⟩, hm⟩

/-- If twins are mirrored, an edge that does not come first of its pair leads
back to where it starts. -/
theorem Mirrored.follows_of_admits (hm : v.Mirrored)
    (hleave : ∀ {n a r e b s}, NodeIn v n a r → e ∈ r.outgoing → EdgeIn v e b s → s.source = n)
    (h : (v.shown root).Admits n m) : n = m ∨ (v.shown root).Follows n m := by
  obtain ⟨⟨a, r, e, b, s, ha, he, hs, htarget⟩, hthere⟩ := h
  by_cases hnm : n = m
  · exact .inl hnm
  · have hlist : ∀ {f c u}, f ∈ r.edgesAt .out → EdgeIn v f c u → u.endAt .out = n :=
      fun hf hu => hleave (nodeIn_shown.1 ha).1 hf hu
    have hother : s.endAt .into ≠ n := fun hn => hnm (hn.symm.trans htarget)
    exact .inr ⟨a, r, e, ha, he, hm.leading hlist he (edgeIn_shown.1 hs).1 hother,
      ⟨b, s, hs, htarget⟩, hthere⟩

/-- If twins are mirrored, the same nodes are reached along all edges and along
those that come first. -/
theorem Mirrored.reaches_iff (hm : v.Mirrored)
    (hleave : ∀ {n a r e b s}, NodeIn v n a r → e ∈ r.outgoing → EdgeIn v e b s → s.source = n) :
    Relation.ReflTransGen (v.shown root).Follows n m ↔
      Relation.ReflTransGen (v.shown root).Admits n m := by
  constructor
  · exact Relation.ReflTransGen.mono (fun _ _ h => Follows.admits h) n m
  · intro h
    induction h with
    | refl => exact .refl
    | tail _ hstep ih =>
      rcases hm.follows_of_admits hleave hstep with rfl | hf
      · exact ih
      · exact ih.tail hf

end View

namespace Actor

open Desk (Fetched)

variable {σ : Type} [Durable σ] {t : Tier σ} {d₀ d : Desk σ} {actor : Actor} {w : View}
  {start n m : NodeId} {seen : OrdSet NodeId} {waiting next : List NodeId}

/-! ## One step of a search -/

/-- The neighbors along outgoing edges are the nodes that a search follows from
here. -/
theorem neighbors_ends (h : Fetched t d₀ d) {a : Anchor} {r : NodeRecord}
    (ha : NodeIn ((d₀.view t).shown actor.requester) n a r) :
    Work.Ends (actor.neighbors n .outgoing) d (fun found d₁ => Fetched t d₀ d₁ ∧
      ∀ m, m ∈ found ↔ ((d₀.view t).shown actor.requester).Follows n m) fun _ _ => False := by
  refine .bind ((actor.matching_ends h n .outgoing).mono ?_ fun _ _ hno => hno a r ha)
  rintro _ d₁ ⟨h₁, a', r', ha', rfl⟩
  refine .pure ⟨h₁, fun m => ?_⟩
  have hlisted : ∀ e, (e, m) ∈ actor.listing ((d₀.view t).shown actor.requester) .outgoing r' ↔ _ :=
    fun e => mem_listing_side (p := .out) rfl
  constructor
  · intro hm
    obtain ⟨⟨e, _⟩, hx, rfl⟩ := List.mem_map.1 hm
    obtain ⟨he, hlead, ⟨b, s, hs, hend, -⟩, c, hc, -⟩ := (hlisted e).1 hx
    exact ⟨a', r', e, ha', he, hlead, ⟨b, s, hs, hend⟩, c, hc⟩
  · rintro ⟨a'', r'', e, ha'', he, hlead, ⟨b, s, hs, hend⟩, c, hc⟩
    obtain ⟨-, rfl⟩ := ha'.unique ha''
    exact List.mem_map.2 ⟨(e, m), (hlisted e).2 ⟨he, hlead, ⟨b, s, hs, hend, rfl⟩, c, hc, rfl⟩, rfl⟩

theorem meet_seen : (meet seen waiting next).1.contains m = true ↔
    seen.contains m = true ∨ m ∈ next := by
  induction next generalizing seen waiting with
  | nil => simp [meet]
  | cons n rest ih =>
    rw [meet]
    split
    · rename_i hn
      rw [ih, List.mem_cons]
      constructor
      · exact fun h => h.imp id .inr
      · rintro (h | rfl | h)
        · exact .inl h
        · exact .inl hn
        · exact .inr h
    · rw [ih, OrdSet.contains_add, List.mem_cons, or_comm (a := m = n), or_assoc]

theorem meet_waiting : m ∈ (meet seen waiting next).2 ↔
    m ∈ waiting ∨ m ∈ next ∧ ¬ seen.contains m = true := by
  induction next generalizing seen waiting with
  | nil => simp [meet]
  | cons n rest ih =>
    rw [meet]
    split
    · rename_i hn
      rw [ih, List.mem_cons]
      refine or_congr_right (and_congr_left fun hnew => (or_iff_right ?_).symm)
      rintro rfl
      exact hnew hn
    · rename_i hn
      rw [ih, List.mem_append, List.mem_singleton, OrdSet.contains_add, List.mem_cons]
      by_cases hmn : m = n
      · subst hmn
        simp [hn]
      · simp [hmn]

/-! ## A whole search -/

/-- A search from `start`. Every node that it has seen can be reached, and
whatever follows a node that it has seen was seen as well, unless the node still
waits. -/
structure Spreading (w : View) (start : NodeId) (seen : OrdSet NodeId) (waiting : List NodeId) :
    Prop where
  begun : seen.contains start = true
  reached : ∀ {n}, seen.contains n = true → Relation.ReflTransGen w.Follows start n
  there : ∀ {n}, n ∈ waiting → ∃ b, w (.node n) = some b
  closed : ∀ {n m}, seen.contains n = true → w.Follows n m → n ∈ waiting ∨ seen.contains m = true
  waits : ∀ {n}, n ∈ waiting → seen.contains n = true

theorem Spreading.begin {b : Anchor} (h : w (.node start) = some b) :
    Spreading w start (OrdSet.ofList [start]) [start] where
  begun := (OrdSet.contains_ofList ..).2 (List.mem_singleton.2 rfl)
  reached hn := by
    rw [List.mem_singleton.1 ((OrdSet.contains_ofList ..).1 hn)]
  there hn := ⟨b, by rw [List.mem_singleton.1 hn, h]⟩
  closed hn _ := .inl ((OrdSet.contains_ofList ..).1 hn)
  waits hn := (OrdSet.contains_ofList ..).2 hn

/-- One node of a search: all that follow it are met. -/
theorem Spreading.advance (h : Spreading w start seen (n :: waiting))
    (hnext : ∀ m, m ∈ next ↔ w.Follows n m) :
    Spreading w start (meet seen waiting next).1 (meet seen waiting next).2 where
  begun := meet_seen.2 (.inl h.begun)
  reached := by
    intro m hm
    rcases meet_seen.1 hm with hm | hm
    · exact h.reached hm
    · exact (h.reached (h.waits (List.mem_cons_self ..))).tail ((hnext m).1 hm)
  there := by
    intro m hm
    rcases meet_waiting.1 hm with hm | ⟨hm, -⟩
    · exact h.there (List.mem_cons_of_mem _ hm)
    · exact ((hnext m).1 hm).admits.2
  closed := by
    intro k m hk hkm
    rw [meet_waiting, meet_seen]
    -- of the nodes that were seen before only this one waits no longer, and those that
    -- are new wait
    by_cases hold : seen.contains k = true
    · rcases h.closed hold hkm with hin | hm
      · rcases List.mem_cons.1 hin with rfl | hin
        · exact .inr (.inr ((hnext m).2 hkm))
        · exact .inl (.inl hin)
      · exact .inr (.inl hm)
    · exact .inl (.inr ⟨(meet_seen.1 hk).resolve_left hold, hold⟩)
  waits := by
    intro m hm
    rw [meet_seen]
    rcases meet_waiting.1 hm with hm | ⟨hm, -⟩
    · exact .inl (h.waits (List.mem_cons_of_mem _ hm))
    · exact .inr hm

/-- A search that has come to its end has seen all that can be reached. -/
theorem Spreading.finished (h : Spreading w start seen []) :
    seen.contains m = true ↔ Relation.ReflTransGen w.Follows start m := by
  refine ⟨h.reached, fun hreach => ?_⟩
  induction hreach with
  | refl => exact h.begun
  | tail _ hstep ih => exact (h.closed ih hstep).resolve_left (List.not_mem_nil)

/-- A search with enough fuel comes to its end. -/
theorem spread_ends (h : Fetched t d₀ d)
    (hnodes : ∀ {n a}, d₀.view t (.node n) = some a → ∃ r, a.node? = some r) {fuel : Nat}
    (hfuel : ahead (d₀.findable t) seen waiting ≤ fuel)
    (hs : Spreading ((d₀.view t).shown actor.requester) start seen waiting) :
    Work.Ends (actor.spread fuel seen waiting) d (fun seen' _ => ∀ m, seen'.contains m = true ↔
      Relation.ReflTransGen ((d₀.view t).shown actor.requester).Follows start m)
        fun _ _ => False := by
  induction fuel generalizing d seen waiting with
  | zero =>
    cases waiting with
    | nil => exact .pure fun m => hs.finished
    | cons n rest =>
      unfold ahead at hfuel
      rw [List.length_cons] at hfuel
      omega
  | succ fuel ih =>
    cases waiting with
    | nil => exact .pure fun m => hs.finished
    | cons n rest =>
      obtain ⟨a, ha⟩ := hs.there (List.mem_cons_self ..)
      obtain ⟨r, hr⟩ := hnodes (View.shown_eq_some.1 ha).1
      refine (neighbors_ends h ⟨ha, hr⟩).andThen ?_
      rintro next d₁ ⟨h₁, hnext⟩
      -- a node costs one unit of fuel, and only nodes that can be found are met, each
      -- of them once
      have hfound : ∀ m ∈ next, m ∈ d₀.findable t := by
        intro m hm
        obtain ⟨b, hb⟩ := ((hnext m).1 hm).admits.2
        exact Desk.mem_findable (View.shown_eq_some.1 hb).1
      have hle := ahead_meet hfound seen rest
      refine ih h₁ ?_ (hs.advance hnext)
      unfold ahead at hle hfuel ⊢
      rw [List.length_cons] at hfuel
      omega

theorem reachable_ends (hd : d.Over t)
    (hnodes : ∀ {n a}, d.view t (.node n) = some a → ∃ r, a.node? = some r) {b : Anchor}
    (hb : (d.view t).shown actor.requester (.node start) = some b) :
    Work.Ends (actor.reachable start) d (fun found _ => found.Nodup ∧ ∀ m, m ∈ found ↔
      Relation.ReflTransGen ((d.view t).shown actor.requester).Follows start m)
        fun _ _ => False := by
  obtain ⟨hseen, hread⟩ := View.shown_eq_some.1 hb
  refine (((Fetched.refl hd).check actor (.node start) .read).mono (fun _ _ hc => hc.2.2)
    fun _ _ hc => hc.1 b hseen hread).andThen fun _ d₁ h₁ => .bind (.get ?_)
  have hview := h₁.same_view
  rw [← hview] at hnodes hb ⊢
  refine (spread_ends (.refl h₁.above) hnodes (ahead_le_bound h₁.above start)
    (Spreading.begin hb)).andThen fun seen d₂ hseen => .pure ⟨Table.nodup_keys seen, fun m => ?_⟩
  rw [Table.mem_keys_iff_contains]
  exact hseen m

end Actor

/-- If all nodes of a view have records, whoever may read a node gets all that
can be reached from it, each once: the nodes to which a chain of edges leads
that may be read, as the nodes in between may be, and that come first of their
pairs in the lists they are taken from. If twins are mirrored and the edges that
a node lists as outgoing leave it, those are the nodes to which any chain of
such edges leads. -/
theorem Desk.reaching_is_exact {σ : Type} [Durable σ] {t : Tier σ} {d : Desk σ} (hd : d.Over t)
    (hnodes : ∀ {n a}, d.view t (.node n) = some a → ∃ r, a.node? = some r) (actor : Actor)
    {start : NodeId} {a : Anchor} (ha : d.view t (.node start) = some a)
    (hread : a.permits actor.requester .read = true) :
    ∃ found d', actor.reachable start d = .ok found d' ∧ found.Nodup ∧
      (∀ m, m ∈ found ↔
        Relation.ReflTransGen ((d.view t).shown actor.requester).Follows start m) ∧
      ((d.view t).Mirrored →
        (∀ {n a r e b s}, NodeIn (d.view t) n a r → e ∈ r.outgoing → EdgeIn (d.view t) e b s →
          s.source = n) →
        ∀ m, m ∈ found ↔
          Relation.ReflTransGen ((d.view t).shown actor.requester).Admits start m) := by
  obtain ⟨found, d', hrun, hnodup, hfound⟩ :=
    (Actor.reachable_ends hd hnodes (View.shown_eq_some.2 ⟨ha, hread⟩)).exists_ok
  exact ⟨found, d', hrun, hnodup, hfound, fun hm hleave m =>
    (hfound m).trans (hm.reaches_iff hleave)⟩

/-- Along a lane one gets from either place to the other. -/
theorem Desk.reaching_follows_lane : ∃ found d',
    Lane.actor.reachable ⟨⟨1⟩⟩ Lane.desk = .ok found d' ∧ ⟨⟨2⟩⟩ ∈ found := by
  have hc := Lane.view_consistent
  have hstart : Lane.desk.view (.shelved Lane.anchors) (.node ⟨⟨1⟩⟩) = some _ := opening_seen rfl
  obtain ⟨found, d', hrun, -, -, hexact⟩ := reaching_is_exact (Desk.opening_over _ _) hc.nodes
    Lane.actor hstart rfl
  have hleave : ∀ {n a r e b s}, NodeIn (Lane.desk.view (.shelved Lane.anchors)) n a r →
      e ∈ r.outgoing → EdgeIn (Lane.desk.view (.shelved Lane.anchors)) e b s → s.source = n :=
    fun ha he hb => hc.endAt_eq (p := .out) ha he hb
  refine ⟨found, d', hrun, (hexact Lane.view_mirrored hleave _).2 (.single ⟨?_, ?_⟩)⟩
  · exact ⟨_, _, ⟨⟨3⟩⟩, _, _, View.nodeIn_shown.2 ⟨⟨opening_seen rfl, rfl⟩, rfl⟩, by decide,
      View.edgeIn_shown.2 ⟨⟨opening_seen rfl, rfl⟩, rfl⟩, rfl⟩
  · exact ⟨_, View.shown_eq_some.2 ⟨opening_seen rfl, rfl⟩⟩

namespace FalseTwins

/-- A place from which two edges lead to different places, each of them naming
the other as its twin. -/
def anchors : List Anchor :=
  [.place default ⟨⟨1⟩⟩ [⟨⟨3⟩⟩, ⟨⟨4⟩⟩] [], .place default ⟨⟨2⟩⟩ [] [⟨⟨3⟩⟩],
    .place default ⟨⟨5⟩⟩ [] [⟨⟨4⟩⟩], .path default ⟨⟨3⟩⟩ ⟨⟨1⟩⟩ ⟨⟨2⟩⟩ (some ⟨⟨4⟩⟩),
    .path default ⟨⟨4⟩⟩ ⟨⟨1⟩⟩ ⟨⟨5⟩⟩ (some ⟨⟨3⟩⟩)]

def desk : Desk Vault := .opening ⟨⟨0⟩, 0⟩ anchors

end FalseTwins

/-- If twins are not mirrored, a search may leave out a node at the other end of
an edge. -/
theorem Desk.false_twins_hide_a_node :
    ∃ (t : Tier Vault) (d : Desk Vault) (actor : Actor) (start m : NodeId) (a : Anchor),
      d.Over t ∧ (∀ {n b}, d.view t (.node n) = some b → ∃ r, b.node? = some r) ∧
      d.view t (.node start) = some a ∧ a.permits actor.requester .read = true ∧
      ((d.view t).shown actor.requester).Admits start m ∧
      ∃ found d', actor.reachable start d = .ok found d' ∧ m ∉ found := by
  have hc : (FalseTwins.desk.view (.shelved FalseTwins.anchors)).Consistent :=
    opening_consistent (by decide)
  have hbranch :
      ((FalseTwins.desk.view (.shelved FalseTwins.anchors)).shown Lane.actor.requester).Admits
      ⟨⟨1⟩⟩ ⟨⟨5⟩⟩ :=
    ⟨⟨_, _, ⟨⟨4⟩⟩, _, _, View.nodeIn_shown.2 ⟨⟨opening_seen rfl, rfl⟩, rfl⟩, by decide,
      View.edgeIn_shown.2 ⟨⟨opening_seen rfl, rfl⟩, rfl⟩, rfl⟩, _,
      View.shown_eq_some.2 ⟨opening_seen rfl, rfl⟩⟩
  have hrun : ∃ d', Lane.actor.reachable ⟨⟨1⟩⟩ FalseTwins.desk = .ok [⟨⟨1⟩⟩, ⟨⟨2⟩⟩] d' := ⟨_, rfl⟩
  obtain ⟨d', hrun⟩ := hrun
  exact ⟨.shelved FalseTwins.anchors, FalseTwins.desk, Lane.actor, ⟨⟨1⟩⟩, ⟨⟨5⟩⟩, _,
    Desk.opening_over _ _, hc.nodes,
    opening_seen rfl, rfl, hbranch, _, d', hrun, by decide⟩

end Wayfarer
