import Mathlib.Data.List.Nodup
import Wayfarer.Proofs.View.Finite
import Wayfarer.Proofs.View.Listing

/-!
# Edges in the answers of queries

What queries answer about one edge: asked at one end or at the other, for the
edges that leave a node, for those that enter it or for both.

* `Desk.queries_are_dual`: the query for outgoing edges at `a` and the one for
  incoming edges at `b` agree on what leads from `a` to `b`, and each of them
  lists an undirected link once.
* `Desk.links_are_listed_once`: no query lists an edge twice, or both halves of
  a link, but for a directed edge from a node to itself.
-/

namespace Wayfarer

namespace NodeRecord

/-- Of two edges the same one comes first in both lists of a node. -/
def SameFirst (r : NodeRecord) (e f : EdgeId) : Prop :=
  r.outgoing.find? (fun x => x = e ∨ x = f) = r.incoming.find? fun x => x = e ∨ x = f

theorem SameFirst.at {r : NodeRecord} {e f : EdgeId} (h : r.SameFirst e f) (p p' : Port) :
    (r.edgesAt p).find? (fun x => x = e ∨ x = f) = (r.edgesAt p').find? fun x => x = e ∨ x = f := by
  cases p <;> cases p'
  · rfl
  · exact h
  · exact h.symm
  · rfl

end NodeRecord

namespace View

variable {v : View} {root : RootId} {n : NodeId} {a b c : Anchor} {r : NodeRecord}
  {s u : EdgeRecord}
  {e f k : EdgeId} {p : Port}

/-- An edge to another node comes first of its pair in the list of either
end. -/
theorem Consistent.leading (hc : v.Consistent) (hm : v.Mirrored) (ha : NodeIn v n a r)
    (he : e ∈ r.edgesAt p) (hb : EdgeIn v e b s) (hend : s.endAt p.flip ≠ n) :
    (v.shown root).Leading (r.edgesAt p) e :=
  hm.leading (fun hf hu => hc.endAt_eq ha hf hu) he hb hend

/-- Whether an edge comes first of its pair is the same in two lists, if it is
in both and in both the same one of the pair comes first. -/
theorem Mirrored.leading_of_find? (hm : v.Mirrored) (hb : EdgeIn v e b s) {l l' : List EdgeId}
    (he : e ∈ l')
    (hsame : ∀ t, s.twin = some t →
      l.find? (fun x => x = e ∨ x = t) = l'.find? fun x => x = e ∨ x = t)
    (hl : (v.shown root).Leading l e) : (v.shown root).Leading l' e := by
  intro k hk
  obtain ⟨b', s', t, hb', ht, hname⟩ := pairOf_eq_some.1 hk
  obtain ⟨-, rfl⟩ := hb.unique (edgeIn_shown.1 hb').1
  by_cases hshown : (v.shown root).pairOf t = some k
  · -- both halves are shown, so the test is whether an edge is one of them
    have htest : (fun f => decide ((v.shown root).pairOf f = some k)) =
        fun f => decide (f = e ∨ f = t) := by
      funext f
      refine decide_eq_decide.2 ⟨fun hf => ?_, ?_⟩
      · exact hm.eq_or_twin hb ht (pairOf_of_shown hk) (pairOf_of_shown hf)
      · rintro (rfl | rfl)
        · exact hk
        · exact hshown
    have hfirst := hl k hk
    rw [htest] at hfirst ⊢
    rw [← hsame t ht, hfirst]
  · refine find?_eq_of_unique he (decide_eq_true hk) fun f _ hf => ?_
    have hpair := of_decide_eq_true hf
    refine (hm.eq_or_twin hb ht (pairOf_of_shown hk) (pairOf_of_shown hpair)).resolve_right ?_
    rintro rfl
    exact hshown hpair

end View

/-! ## One edge, asked for at both ends -/

namespace Actor

/-- An undirected link from one node to another, in two halves that a tenant may
read and whose types pass a filter. -/
structure Links (actor : Actor) (v : View) (type : Option TypeId) (a b : NodeId)
    (h k : EdgeId) : Prop where
  half : ∃ x s, EdgeIn v h x s ∧ s.source = a ∧ s.target = b ∧ s.twin = some k ∧
    x.permits actor.requester .read = true ∧ actor.passes s.type type = true
  other : ∃ x s, EdgeIn v k x s ∧ x.permits actor.requester .read = true ∧
    actor.passes s.type type = true

variable {actor : Actor} {v : View} {type : Option TypeId} {a b : NodeId} {h k : EdgeId}

/-- The halves of a link belong to one pair, to which no other edge belongs. -/
theorem Links.pair (hl : actor.Links v type a b h k) (hm : v.Mirrored) :
    ∃ name, ∀ f, (v.shown actor.requester).pairOf f = some name ↔ f = h ∨ f = k := by
  obtain ⟨x, s, hx, -, -, ht, hread, -⟩ := hl.half
  obtain ⟨y, u, hy, hread', -⟩ := hl.other
  have hh : (v.shown actor.requester).pairOf h = some (pairName h k) := by
    rw [View.pairOf_of_edgeIn (View.edgeIn_shown.2 ⟨hx, hread⟩), ht, Option.map_some]
  have hk : (v.shown actor.requester).pairOf k = some (pairName h k) := by
    obtain ⟨y', u', hy', htwin, -⟩ := hm hx ht
    obtain ⟨-, rfl⟩ := hy.unique hy'
    rw [View.pairOf_of_edgeIn (View.edgeIn_shown.2 ⟨hy, hread'⟩), htwin, Option.map_some,
      pairName_comm]
  refine ⟨pairName h k, fun f => ⟨fun hf => ?_, ?_⟩⟩
  · exact hm.eq_or_twin hx ht (View.pairOf_of_shown hh) (View.pairOf_of_shown hf)
  · rintro (rfl | rfl)
    · exact hh
    · exact hk

/-- The other half of a link leads back. -/
theorem Links.symm (hl : actor.Links v type a b h k) (hm : v.Mirrored) :
    actor.Links v type b a k h := by
  obtain ⟨x, s, hx, hsource, htarget, ht, hread, hpass⟩ := hl.half
  obtain ⟨y, u, hy, hread', hpass'⟩ := hl.other
  obtain ⟨y', u', hy', htwin, hends⟩ := hm hx ht
  obtain ⟨-, rfl⟩ := hy.unique hy'
  exact ⟨⟨y, u, hy, (hends .out).trans htarget, (hends .into).trans hsource, htwin, hread', hpass'⟩,
    x, s, hx, hread, hpass⟩

end Actor

namespace Desk

variable {σ : Type} [Durable σ] {t : Tier σ} {d : Desk σ} {actor : Actor} {type : Option TypeId}
  {a b : NodeId} {x y : Anchor} {r s : NodeRecord}

/-- What a query for the edges of one direction lists that lead to a node which
is shown. -/
theorem mem_listing_end {v : View} (hc : v.Consistent) (ha : NodeIn v a x r)
    (hb : (v.shown actor.requester) (.node b) = some y) (p : Port) (e : EdgeId) :
    (e, b) ∈ actor.listing (v.shown actor.requester) ⟨p.side, type, none⟩ r ↔
      (v.shown actor.requester).Leading (r.edgesAt p) e ∧
        ∃ c u, EdgeIn (v.shown actor.requester) e c u ∧ u.endAt p = a ∧ u.endAt p.flip = b ∧
          actor.passes u.type type = true := by
  rw [Actor.mem_listing_side rfl]
  constructor
  · rintro ⟨he, hlead, ⟨c, u, hu, hend, hpass⟩, -⟩
    exact ⟨hlead, c, u, hu, hc.endAt_eq ha he (View.edgeIn_shown.1 hu).1, hend, hpass⟩
  · rintro ⟨hlead, c, u, hu, hend, hend', hpass⟩
    exact ⟨(hc.listed_iff ha).2 ⟨c, u, (View.edgeIn_shown.1 hu).1, hend⟩, hlead,
      ⟨c, u, hu, hend', hpass⟩, y, hb, rfl⟩

/-- Seen from one end and from the other, the same edges lead from a node to
another. -/
theorem mem_listing_dual {v : View} (hc : v.Consistent) (hm : v.Mirrored)
    (ha : NodeIn (v.shown actor.requester) a x r) (hb : NodeIn (v.shown actor.requester) b y s)
    (e : EdgeId)
    (hloop : a = b → ∀ c u k, EdgeIn v e c u → u.twin = some k → r.SameFirst e k) :
    (e, b) ∈ actor.listing (v.shown actor.requester) ⟨.outgoing, type, none⟩ r ↔
      (e, a) ∈ actor.listing (v.shown actor.requester) ⟨.incoming, type, none⟩ s := by
  have hra := (View.nodeIn_shown.1 ha).1
  have hsb := (View.nodeIn_shown.1 hb).1
  refine (mem_listing_end hc hra hb.1 .out e).trans
    (Iff.trans ?_ (mem_listing_end hc hsb ha.1 .into e).symm)
  have hleading : ∀ c u, EdgeIn (v.shown actor.requester) e c u → u.source = a → u.target = b →
      ((v.shown actor.requester).Leading r.outgoing e ↔
        (v.shown actor.requester).Leading s.incoming e) := by
    intro c u hu hsource htarget
    have huv := (View.edgeIn_shown.1 hu).1
    have hout : e ∈ r.edgesAt .out := (hc.listed_iff hra).2 ⟨c, u, huv, hsource⟩
    have hin : e ∈ s.edgesAt .into := (hc.listed_iff hsb).2 ⟨c, u, huv, htarget⟩
    by_cases hab : a = b
    · subst hab
      obtain ⟨-, rfl⟩ := hra.unique hsb
      have hfirst := fun k hk => hloop rfl c u k huv hk
      exact ⟨hm.leading_of_find? huv hin fun k hk => (hfirst k hk).at .out .into,
        hm.leading_of_find? huv hout fun k hk => (hfirst k hk).at .into .out⟩
    · have hfar : u.endAt .into ≠ a := fun h => hab (h.symm.trans htarget)
      have hnear : u.endAt .out ≠ b := fun h => hab (hsource.symm.trans h)
      exact iff_of_true (hc.leading hm hra hout huv hfar) (hc.leading hm hsb hin huv hnear)
  constructor
  · rintro ⟨hlead, c, u, hu, hsource, htarget, hpass⟩
    exact ⟨(hleading c u hu hsource htarget).1 hlead, c, u, hu, htarget, hsource, hpass⟩
  · rintro ⟨hlead, c, u, hu, htarget, hsource, hpass⟩
    exact ⟨(hleading c u hu hsource htarget).2 hlead, c, u, hu, hsource, htarget, hpass⟩

/-- Of the two halves of a link to another node a list holds one, so that is the
first. -/
theorem find?_half {v w : View} (hc : v.Consistent) (hm : v.Mirrored)
    (ha : NodeIn v a x r) {p : Port} {g o name : EdgeId} {c : Anchor} {u : EdgeRecord}
    (hu : EdgeIn v g c u) (htwin : u.twin = some o) (hend : u.endAt p = a)
    (hfar : u.endAt p.flip ≠ a) (hpair : ∀ f, w.pairOf f = some name ↔ f = g ∨ f = o) :
    (r.edgesAt p).find? (fun f => w.pairOf f = some name) = some g := by
  have hin : g ∈ r.edgesAt p := (hc.listed_iff ha).2 ⟨c, u, hu, hend⟩
  refine find?_eq_of_unique hin (decide_eq_true ((hpair g).2 (.inl rfl))) fun f hf hname => ?_
  refine ((hpair f).1 (of_decide_eq_true hname)).resolve_right ?_
  rintro rfl
  obtain ⟨c', u', hu', hmirror⟩ := hm hu htwin
  exact hfar ((hmirror.2 p).symm.trans (hc.endAt_eq ha hf hu'))

/-- Of a link to another node a query lists the half that is in the list which
it looks at first. -/
theorem listing_half {v : View} (hc : v.Consistent) (hm : v.Mirrored) (ha : NodeIn v a x r)
    (hb : (v.shown actor.requester) (.node b) = some y) (hab : a ≠ b) {side : Direction} {p : Port}
    {rest : List Port} (hports : NeighborQuery.ports ⟨side, type, none⟩ = p :: rest)
    {g o name : EdgeId} {c : Anchor} {u : EdgeRecord} (hu : EdgeIn (v.shown actor.requester) g c u)
    (htwin : u.twin = some o) (hnear : u.endAt p = a) (hfar : u.endAt p.flip = b)
    (hpass : actor.passes u.type type = true)
    (hpair : ∀ f, (v.shown actor.requester).pairOf f = some name ↔ f = g ∨ f = o) :
    (actor.listing (v.shown actor.requester) ⟨side, type, none⟩ r).filter
      (fun z => (v.shown actor.requester).pairOf z.1 = some name) = [(g, b)] := by
  have hfirst := find?_half hc hm ha (View.edgeIn_shown.1 hu).1 htwin hnear
    (fun h => hab (h.symm.trans hfar)) hpair
  have hentry : actor.entryOf (v.shown actor.requester) ⟨side, type, none⟩ (g, p.side) =
      some (g, b) :=
    Actor.entryOf_eq_some.2 ⟨⟨c, u, hu, hfar, hpass⟩, y, hb, rfl⟩
  rw [Actor.listing_pair, NeighborQuery.find?_candidates hports hfirst, Option.bind_some, hentry,
    Option.toList_some]

/-- Every query on a node lists a link to another node once, by the half that it
meets first. -/
theorem listing_link {v : View} (hc : v.Consistent) (hm : v.Mirrored) (ha : NodeIn v a x r)
    (hb : (v.shown actor.requester) (.node b) = some y) (hab : a ≠ b) {h k : EdgeId}
    (hl : actor.Links v type a b h k) (side : Direction) :
    (actor.listing (v.shown actor.requester) ⟨side, type, none⟩ r).filter
      (fun z => z.1 = h ∨ z.1 = k) = [(if side = .incoming then k else h, b)] := by
  obtain ⟨name, hpair⟩ := hl.pair hm
  obtain ⟨c, u, hu, hsource, htarget, htwin, hread, hpass⟩ := hl.half
  obtain ⟨c', u', hu', hsource', htarget', htwin', hread', hpass'⟩ := (hl.symm hm).half
  have hhalf := View.edgeIn_shown.2 ⟨hu, hread⟩
  have hother := View.edgeIn_shown.2 ⟨hu', hread'⟩
  -- whatever is of the pair is one of the two halves, so at most one entry is left
  have htest : (fun z : EdgeId × NodeId => decide (z.1 = h ∨ z.1 = k)) =
      fun z => decide ((v.shown actor.requester).pairOf z.1 = some name) :=
    funext fun z => decide_eq_decide.2 (hpair z.1).symm
  rw [htest]
  cases side with
  | outgoing =>
    exact listing_half (p := .out) hc hm ha hb hab rfl hhalf htwin hsource htarget hpass hpair
  | incoming =>
    exact listing_half (p := .into) hc hm ha hb hab rfl hother htwin' htarget' hsource' hpass'
      fun f => (hpair f).trans or_comm
  | both =>
    exact listing_half (p := .out) hc hm ha hb hab rfl hhalf htwin hsource htarget hpass hpair

/-- Whoever may read two nodes gets answers about both of them that fit
together. An edge is listed with `b` among those that leave `a` if and only if
it is listed with `a` among those that enter `b`; for an undirected link from a
node to itself this takes that its halves come in the same order in both lists
of the node. Of an undirected link between different nodes each query on `a`
lists one half, and leads to `b` by it. -/
theorem queries_are_dual (hd : d.Over t) (hc : (d.view t).Consistent) (hm : (d.view t).Mirrored)
    (actor : Actor) (type : Option TypeId) (ha : NodeIn (d.view t) a x r)
    (hx : x.permits actor.requester .read = true) (hb : NodeIn (d.view t) b y s)
    (hy : y.permits actor.requester .read = true) :
    ∃ atA atB : Direction → List (EdgeId × NodeId),
      (∀ side, actor.Answers d a ⟨side, type, none⟩ (atA side)) ∧
      (∀ side, actor.Answers d b ⟨side, type, none⟩ (atB side)) ∧
      (∀ e, (a = b → ∀ c u k, EdgeIn (d.view t) e c u → u.twin = some k → r.SameFirst e k) →
        ((e, b) ∈ atA .outgoing ↔ (e, a) ∈ atB .incoming)) ∧
      ∀ h k, a ≠ b → actor.Links (d.view t) type a b h k → ∀ side,
        (atA side).filter (fun z => z.1 = h ∨ z.1 = k) =
          [(if side = .incoming then k else h, b)] := by
  have ha' : NodeIn ((d.view t).shown actor.requester) a x r := View.nodeIn_shown.2 ⟨ha, hx⟩
  have hb' : NodeIn ((d.view t).shown actor.requester) b y s := View.nodeIn_shown.2 ⟨hb, hy⟩
  exact ⟨_, _, fun side => actor.answers_listing hd ha' _,
    fun side => actor.answers_listing hd hb' _,
    fun e hloop => mem_listing_dual hc hm ha' hb' e hloop,
    fun h k hab hl side => listing_link hc hm ha hb'.1 hab hl side⟩

end Desk

/-- A query for both directions has the place at the other end of an undirected
link once. -/
theorem Desk.queries_list_lane_once : ∃ found,
    Lane.actor.Answers Lane.desk ⟨⟨1⟩⟩ ⟨.both, none, none⟩ found ∧
      (found.filter fun z => z.1 = ⟨⟨3⟩⟩ ∨ z.1 = ⟨⟨4⟩⟩).map (·.2) = [⟨⟨2⟩⟩] := by
  have hlink : Lane.actor.Links (Lane.desk.view (.shelved Lane.anchors)) none ⟨⟨1⟩⟩ ⟨⟨2⟩⟩
      ⟨⟨3⟩⟩ ⟨⟨4⟩⟩ :=
    ⟨⟨_, _, ⟨opening_seen rfl, rfl⟩, rfl, rfl, rfl, rfl, rfl⟩,
      _, _, ⟨opening_seen rfl, rfl⟩, rfl, rfl⟩
  obtain ⟨atA, _, hA, _, _, honce⟩ := queries_are_dual (Desk.opening_over _ _) Lane.view_consistent
    Lane.view_mirrored Lane.actor none (a := ⟨⟨1⟩⟩) (b := ⟨⟨2⟩⟩) ⟨opening_seen rfl, rfl⟩ rfl
    ⟨opening_seen rfl, rfl⟩ rfl
  refine ⟨atA .both, hA .both, ?_⟩
  rw [honce _ _ (by decide) hlink .both]
  rfl

namespace SelfLink

/-- A place with an undirected link to itself, whose halves come in different
orders in its two lists. -/
def anchors : List Anchor :=
  [.place default ⟨⟨1⟩⟩ [⟨⟨3⟩⟩, ⟨⟨4⟩⟩] [⟨⟨4⟩⟩, ⟨⟨3⟩⟩],
    .path default ⟨⟨3⟩⟩ ⟨⟨1⟩⟩ ⟨⟨1⟩⟩ (some ⟨⟨4⟩⟩), .path default ⟨⟨4⟩⟩ ⟨⟨1⟩⟩ ⟨⟨1⟩⟩ (some ⟨⟨3⟩⟩)]

def desk : Desk Vault := .opening ⟨⟨0⟩, 0⟩ anchors

end SelfLink

/-- Of a link from a node to itself the query for outgoing edges may list one
half and the query for incoming edges the other. -/
theorem Desk.self_link_breaks_duality :
    ∃ (t : Tier Vault) (d : Desk Vault) (actor : Actor) (n : NodeId) (a : Anchor) (r : NodeRecord),
      d.Over t ∧ (d.view t).Consistent ∧ (d.view t).Mirrored ∧ NodeIn (d.view t) n a r ∧
      a.permits actor.requester .read = true ∧ ∃ (e : EdgeId) (out into : List (EdgeId × NodeId)),
        actor.Answers d n ⟨.outgoing, none, none⟩ out ∧
        actor.Answers d n ⟨.incoming, none, none⟩ into ∧ (e, n) ∈ out ∧ (e, n) ∉ into := by
  have hview : SelfLink.desk.view (.shelved SelfLink.anchors) = View.ofList SelfLink.anchors :=
    view_opening ..
  have hn : NodeIn (SelfLink.desk.view (.shelved SelfLink.anchors)) ⟨⟨1⟩⟩
      (.place default ⟨⟨1⟩⟩ [⟨⟨3⟩⟩, ⟨⟨4⟩⟩] [⟨⟨4⟩⟩, ⟨⟨3⟩⟩])
      ⟨⟨⟨4⟩⟩, Fields.empty, [⟨⟨3⟩⟩, ⟨⟨4⟩⟩], [⟨⟨4⟩⟩, ⟨⟨3⟩⟩]⟩ := ⟨opening_seen rfl, rfl⟩
  have hd : SelfLink.desk.Over (.shelved SelfLink.anchors) := Desk.opening_over _ _
  have hanswers := fun side => Lane.actor.answers_listing hd (View.nodeIn_shown.2 ⟨hn, rfl⟩)
    ⟨side, none, none⟩
  refine ⟨_, SelfLink.desk, Lane.actor, _, _, _, hd, opening_consistent (by decide),
    opening_mirrored (by decide), hn, rfl, ⟨⟨3⟩⟩, _, _, hanswers .outgoing, hanswers .incoming,
    ?_, ?_⟩
  · rw [hview]
    decide +kernel
  · rw [hview]
    decide +kernel

/-! ## How often an edge is listed -/

/-- No edge is listed twice, nor are both halves of a link; but a directed edge
from a node to itself is listed twice by a query for both directions. -/
structure View.ListedOnce (v : View) (side : Direction) (found : List EdgeId) : Prop where
  there : ∀ {e}, e ∈ found → ∃ a s, EdgeIn v e a s
  halves : ∀ {e k a s}, e ∈ found → EdgeIn v e a s → s.twin = some k → k ≠ e → k ∉ found
  once : ∀ {e a s}, e ∈ found → EdgeIn v e a s →
    side ≠ .both ∨ s.twin ≠ none ∨ s.source ≠ s.target → found.count e = 1
  twice : ∀ {e a s}, e ∈ found → EdgeIn v e a s → side = .both → s.twin = none →
    s.source = s.target → found.count e = 2

namespace Desk

variable {σ : Type} [Durable σ] {t : Tier σ} {d : Desk σ} {actor : Actor} {v : View} {n : NodeId}
  {q : NeighborQuery} {a c : Anchor} {r : NodeRecord} {s : EdgeRecord} {e k : EdgeId}

theorem count_listing (w : View) : ((actor.listing w q r).map (·.1)).count e =
    ((actor.listing w q r).filter fun z => z.1 = e).length := by
  rw [List.count_eq_countP, List.countP_map, List.countP_eq_length_filter]
  rfl

/-- Of a pair only one edge is listed. -/
theorem eq_of_pair {w : View} {f name : EdgeId}
    (he : e ∈ (actor.listing w q r).map (·.1)) (hf : f ∈ (actor.listing w q r).map (·.1))
    (hpair : w.pairOf e = some name) (hpair' : w.pairOf f = some name) : e = f := by
  obtain ⟨y, hy, rfl⟩ := List.mem_map.1 he
  obtain ⟨z, hz, rfl⟩ := List.mem_map.1 hf
  have hfirst : ∀ x ∈ actor.listing w q r, w.pairOf x.1 = some name →
      ((q.candidates r).find? fun x => w.pairOf x.1 = some name).bind (actor.entryOf w q) =
        some x := by
    intro x hx hname
    rw [← Option.mem_toList, ← Actor.listing_pair]
    exact List.mem_filter.2 ⟨hx, decide_eq_true hname⟩
  exact congrArg (·.1) (Option.some.inj ((hfirst y hy hpair).symm.trans (hfirst z hz hpair')))

theorem count_listing_pair {w : View} {name : EdgeId} (he : w.pairOf e = some name) :
    ((actor.listing w q r).map (·.1)).count e ≤ 1 := by
  have hpair : ((actor.listing w q r).filter fun z => w.pairOf z.1 = some name).length ≤ 1 := by
    rw [Actor.listing_pair]
    exact Option.length_toList_le
  rw [count_listing, ← List.countP_eq_length_filter]
  refine Nat.le_trans (List.countP_mono_left fun z _ hz => ?_)
    ((List.countP_eq_length_filter ..).trans_le hpair)
  rw [of_decide_eq_true hz]
  exact decide_eq_true he

/-- An edge that belongs to no pair is listed once for each time that a node
names it at a port. -/
theorem count_listing_single {w : View} (he : w.pairOf e = none) :
    ((actor.listing w q r).map (·.1)).count e = (q.ports.flatMap fun p =>
      if (actor.entryOf w q (e, p.side)).isSome then r.edgesAt p else []).count e := by
  have hport : ∀ p : Port, ((r.edgesAt p).map fun f => (f, p.side)).countP
      (fun x => (actor.entryOf w q x).isSome && decide (x.1 = e)) =
        (if (actor.entryOf w q (e, p.side)).isSome then r.edgesAt p else []).count e := by
    intro p
    rw [List.countP_map]
    split
    · rename_i hsome
      rw [List.count_eq_countP]
      refine List.countP_congr fun f _ => ?_
      by_cases hf : f = e
      · simp [hf, hsome]
      · simp [hf]
    · rename_i hnone
      refine List.countP_eq_zero.2 fun f _ => ?_
      by_cases hf : f = e
      · simp [hf, hnone]
      · simp [hf]
  rw [count_listing, Actor.listing_single he, List.length_filterMap_eq_countP, List.countP_filter,
    NeighborQuery.candidates_eq]
  induction q.ports with
  | nil => rfl
  | cons p rest ih =>
    rw [List.flatMap_cons, List.flatMap_cons, List.countP_append, List.count_append, hport, ih]

theorem entryOf_loop {w : View} (hs : EdgeIn w e c s) (hloop : s.source = s.target) (p p' : Port) :
    actor.entryOf w q (e, p.side) = actor.entryOf w q (e, p'.side) := by
  have hends : ∀ side side', actor.neighborOf w q side s = actor.neighborOf w q side' s := by
    intro side side'
    unfold Actor.neighborOf
    simp only [hloop, ite_self]
  unfold Actor.entryOf
  rw [View.edge?_eq_some.2 ⟨c, hs⟩, Option.bind_some, Option.bind_some, hends p.side p'.side]

/-- An edge that is listed is shown, and the node names it at a port. -/
theorem shown_of_listed {w : View} (he : e ∈ (actor.listing w q r).map (·.1)) :
    ∃ p c s, e ∈ r.edgesAt p ∧ EdgeIn w e c s ∧ (actor.entryOf w q (e, p.side)).isSome := by
  obtain ⟨⟨_, m⟩, hz, rfl⟩ := List.mem_map.1 he
  obtain ⟨p, -, hin, hleads⟩ := Actor.leads_of_mem_listing hz
  obtain ⟨c, s, hs, -⟩ := hleads.edge
  exact ⟨p, c, s, hin, hs, by rw [Actor.entryOf_eq_some.2 hleads]; rfl⟩

/-- A directed edge between two nodes is listed once. -/
theorem count_listing_directed (hc : v.Consistent) (ha : NodeIn v n a r)
    (hnodup : ∀ p, (r.edgesAt p).Nodup) (hs : EdgeIn v e c s)
    (hsingle : (v.shown actor.requester).pairOf e = none)
    (hside : q.direction ≠ .both ∨ s.source ≠ s.target) :
    ((actor.listing (v.shown actor.requester) q r).map (·.1)).count e ≤ 1 := by
  have hport : ∀ p, (if (actor.entryOf (v.shown actor.requester) q (e, p.side)).isSome then
      r.edgesAt p else []).count e ≤ (r.edgesAt p).count e := by
    intro p
    split
    · exact Nat.le_refl _
    · exact Nat.zero_le _
  have hcount : ∀ p, (r.edgesAt p).count e ≤ 1 :=
    fun p => List.nodup_iff_count_le_one.1 (hnodup p) e
  have hout := hport .out
  have hinto := hport .into
  have hout' := hcount .out
  have hinto' := hcount .into
  rw [count_listing_single hsingle]
  unfold NeighborQuery.ports
  split
  · rw [List.flatMap_singleton]
    omega
  · rw [List.flatMap_singleton]
    omega
  · rename_i hboth
    -- the two lists cannot both have the edge
    have hapart : (r.edgesAt .out).count e = 0 ∨ (r.edgesAt .into).count e = 0 := by
      rw [List.count_eq_zero, List.count_eq_zero, ← not_and_or]
      rintro ⟨hin, hin'⟩
      exact hside.resolve_left (fun h => h hboth)
        ((hc.endAt_eq ha hin hs).trans (hc.endAt_eq ha hin' hs).symm)
    rw [List.flatMap_cons, List.flatMap_singleton, List.count_append]
    omega

/-- A directed edge from a node to itself is listed for each of its ends. -/
theorem count_listing_loop (hc : v.Consistent) (ha : NodeIn v n a r)
    (hnodup : ∀ p, (r.edgesAt p).Nodup) (hs : EdgeIn v e c s)
    (hsingle : (v.shown actor.requester).pairOf e = none) (hboth : q.direction = .both)
    (hloop : s.source = s.target)
    (he : e ∈ (actor.listing (v.shown actor.requester) q r).map (·.1)) :
    ((actor.listing (v.shown actor.requester) q r).map (·.1)).count e = 2 := by
  obtain ⟨p, c', s', hin, hs', hsome⟩ := shown_of_listed he
  -- it was met at one port, so it starts and ends at the node, which lists it at the
  -- other port as well
  have hends : ∀ p', s.endAt p' = n := by
    intro p'
    rw [← hc.endAt_eq ha hin hs]
    cases p <;> cases p'
    · rfl
    · exact hloop.symm
    · exact hloop
    · rfl
  have hport : ∀ p', (if (actor.entryOf (v.shown actor.requester) q (e, p'.side)).isSome then
      r.edgesAt p' else []).count e = 1 := by
    intro p'
    obtain ⟨-, rfl⟩ := hs.unique (View.edgeIn_shown.1 hs').1
    rw [if_pos (entryOf_loop hs' hloop p p' ▸ hsome)]
    exact List.count_eq_one_of_mem (hnodup p') ((hc.listed_iff ha).2 ⟨c, s, hs, hends p'⟩)
  have hports : q.ports = [.out, .into] := by rw [NeighborQuery.ports, hboth]
  rw [count_listing_single hsingle, hports, List.flatMap_cons, List.flatMap_singleton,
    List.count_append, hport, hport]

theorem listing_listedOnce (hc : v.Consistent) (hm : v.Mirrored) (ha : NodeIn v n a r)
    (hnodup : ∀ p, (r.edgesAt p).Nodup) :
    v.ListedOnce q.direction ((actor.listing (v.shown actor.requester) q r).map (·.1)) := by
  have hpair : ∀ {f c s}, f ∈ (actor.listing (v.shown actor.requester) q r).map (·.1) →
      EdgeIn v f c s → (v.shown actor.requester).pairOf f = s.twin.map (Actor.pairName f) := by
    intro f c s hf hs
    obtain ⟨-, c', s', -, hs', -⟩ := shown_of_listed hf
    obtain ⟨-, rfl⟩ := hs.unique (View.edgeIn_shown.1 hs').1
    exact View.pairOf_of_edgeIn hs'
  refine ⟨fun {e} he => ?_, fun {e k c s} he hs ht hne hk => ?_, fun {e c s} he hs hone => ?_,
    fun {e c s} he hs hboth htwin hloop => ?_⟩
  · obtain ⟨-, c, s, -, hs, -⟩ := shown_of_listed he
    exact ⟨c, s, (View.edgeIn_shown.1 hs).1⟩
  · obtain ⟨c', s', hs', htwin, -⟩ := hm hs ht
    have he' := hpair he hs
    have hk' := hpair hk hs'
    rw [ht, Option.map_some] at he'
    rw [htwin, Option.map_some, Actor.pairName_comm] at hk'
    exact hne (eq_of_pair hk he hk' he')
  · refine Nat.le_antisymm ?_ (List.count_pos_iff.2 he)
    have he' := hpair he hs
    cases htwin : s.twin with
    | some k =>
      rw [htwin] at he'
      exact count_listing_pair he'
    | none =>
      rw [htwin] at he' hone
      exact count_listing_directed hc ha hnodup hs he' (hone.imp id
        fun h => h.resolve_left (absurd rfl))
  · have he' := hpair he hs
    rw [htwin] at he'
    exact count_listing_loop hc ha hnodup hs he' hboth hloop he

/-- Whoever may read a node gets an answer to every query for its edges. If the
node names each edge once at a port, the answer has every edge once and of a
link one half, except that a query for both directions lists a directed edge
from the node to itself twice. -/
theorem links_are_listed_once (hd : d.Over t) (hc : (d.view t).Consistent)
    (hm : (d.view t).Mirrored) (actor : Actor) (ha : NodeIn (d.view t) n a r)
    (hread : a.permits actor.requester .read = true) (hnodup : ∀ p, (r.edgesAt p).Nodup)
    (q : NeighborQuery) :
    ∃ found d', actor.edges n q d = .ok found d' ∧ (d.view t).ListedOnce q.direction found := by
  obtain ⟨d', hrun⟩ := (actor.answers_listing hd (View.nodeIn_shown.2 ⟨ha, hread⟩) q).edges
  exact ⟨_, d', hrun, listing_listedOnce hc hm ha hnodup⟩

end Desk

/-- Of a link a query for both directions lists one half, the one that
leaves. -/
theorem Desk.outgoing_half_of_lane_is_listed : ∃ found d',
    Lane.actor.edges ⟨⟨1⟩⟩ ⟨.both, none, none⟩ Lane.desk = .ok found d' ∧
      ⟨⟨3⟩⟩ ∈ found ∧ ⟨⟨4⟩⟩ ∉ found := by
  obtain ⟨found, d', hrun, honce⟩ :=
    links_are_listed_once (Desk.opening_over _ _) Lane.view_consistent
    Lane.view_mirrored Lane.actor (n := ⟨⟨1⟩⟩) ⟨opening_seen rfl, rfl⟩ rfl
    (fun p => by cases p <;> decide) ⟨.both, none, none⟩
  have hlisted : ∃ d'', Lane.actor.edges ⟨⟨1⟩⟩ ⟨.both, none, none⟩ Lane.desk =
      .ok [⟨⟨3⟩⟩] d'' := ⟨_, rfl⟩
  obtain ⟨d'', hlisted⟩ := hlisted
  have hhalf : ⟨⟨3⟩⟩ ∈ found := by
    cases hrun.symm.trans hlisted
    exact List.mem_singleton_self _
  exact ⟨found, d', hrun, hhalf, honce.halves hhalf ⟨opening_seen rfl, rfl⟩ rfl (by decide)⟩

namespace SelfLoop

/-- A place with a directed edge to itself. -/
def anchors : List Anchor :=
  [.place default ⟨⟨1⟩⟩ [⟨⟨3⟩⟩] [⟨⟨3⟩⟩], .path default ⟨⟨3⟩⟩ ⟨⟨1⟩⟩ ⟨⟨1⟩⟩ none]

def desk : Desk Vault := .opening ⟨⟨0⟩, 0⟩ anchors

end SelfLoop

/-- A query for both directions lists a directed edge from a node to itself
twice. -/
theorem Desk.self_loop_is_listed_twice :
    ∃ (t : Tier Vault) (d : Desk Vault) (actor : Actor) (n : NodeId) (a : Anchor) (r : NodeRecord),
      d.Over t ∧ (d.view t).Consistent ∧ (d.view t).Mirrored ∧ NodeIn (d.view t) n a r ∧
      a.permits actor.requester .read = true ∧ (∀ p, (r.edgesAt p).Nodup) ∧ ∃ found d',
        actor.edges n ⟨.both, none, none⟩ d = .ok found d' ∧ ¬ found.Nodup := by
  have hview : SelfLoop.desk.view (.shelved SelfLoop.anchors) = View.ofList SelfLoop.anchors :=
    view_opening ..
  have hn : NodeIn (SelfLoop.desk.view (.shelved SelfLoop.anchors)) ⟨⟨1⟩⟩
      (.place default ⟨⟨1⟩⟩ [⟨⟨3⟩⟩] [⟨⟨3⟩⟩]) ⟨⟨⟨4⟩⟩, Fields.empty, [⟨⟨3⟩⟩], [⟨⟨3⟩⟩]⟩ :=
    ⟨opening_seen rfl, rfl⟩
  have hd : SelfLoop.desk.Over (.shelved SelfLoop.anchors) := Desk.opening_over _ _
  obtain ⟨d', hrun⟩ := (Lane.actor.answers_listing hd (View.nodeIn_shown.2 ⟨hn, rfl⟩)
    ⟨.both, none, none⟩).edges
  refine ⟨_, SelfLoop.desk, Lane.actor, _, _, _, hd, opening_consistent (by decide),
    opening_mirrored (by decide), hn, rfl, fun p => by cases p <;> decide, _, d', hrun, ?_⟩
  rw [hview]
  decide +kernel

end Wayfarer
