import Wayfarer.Proofs.View.Graph
import Wayfarer.Graph.Reading

/-!
# What is listed next to a node

Which edges and neighbors a query answers with, said without the desk. Of the
edges that a node lists a query looks at those that the tenant may read, and of
each pair of halves only at the one that comes first (`OrdSet.novel`);
`Actor.listing` is what is left of them by the filters.

* `Actor.matching_ends`: a query on a node that can be read is answered with the
  listing, always.
* `Actor.mem_listing_side`: what a query in one direction lists, and with which
  neighbor.
* `Actor.listing_pair`: at most one entry of the listing belongs to a pair, that
  of the half that comes first.
-/

namespace Wayfarer

/-! ## The first of each name -/

section Novel

variable {α κ : Type} [Ord κ] [Std.TransOrd κ] [Std.LawfulEqOrd κ] {name : α → Option κ}

/-- The entries of a list that have no name, and of those that share a name, if
it was not seen before, the first one. -/
def OrdSet.novel (name : α → Option κ) : OrdSet κ → List α → List α
  | _, [] => []
  | seen, x :: rest =>
    match name x with
    | none => x :: novel name seen rest
    | some k =>
      if seen.contains k then novel name seen rest else x :: novel name (seen.add k) rest

namespace OrdSet

theorem novel_none {seen : OrdSet κ} {x : α} {rest : List α} (h : name x = none) :
    seen.novel name (x :: rest) = x :: seen.novel name rest := by
  rw [novel, h]

theorem novel_seen {seen : OrdSet κ} {x : α} {rest : List α} {k : κ} (h : name x = some k)
    (hk : seen.contains k = true) : seen.novel name (x :: rest) = seen.novel name rest := by
  simp only [novel, h, hk, if_true]

theorem novel_new {seen : OrdSet κ} {x : α} {rest : List α} {k : κ} (h : name x = some k)
    (hk : seen.contains k = false) :
    seen.novel name (x :: rest) = x :: (seen.add k).novel name rest := by
  simp only [novel, h, hk, Bool.false_eq_true, if_false]

theorem novel_sublist (seen : OrdSet κ) (l : List α) : (seen.novel name l).Sublist l := by
  induction l generalizing seen with
  | nil => exact .slnil
  | cons x rest ih =>
    cases hx : name x with
    | none =>
      rw [novel_none hx]
      exact (ih seen).cons_cons x
    | some k =>
      cases hk : seen.contains k with
      | true =>
        rw [novel_seen hx hk]
        exact (ih seen).cons x
      | false =>
        rw [novel_new hx hk]
        exact (ih _).cons_cons x

/-- No entry without a name is left out. -/
theorem filter_novel_none (p : α → Bool) (hp : ∀ x, p x = true → name x = none) (seen : OrdSet κ)
    (l : List α) : (seen.novel name l).filter p = l.filter p := by
  induction l generalizing seen with
  | nil => rfl
  | cons x rest ih =>
    cases hx : name x with
    | none => rw [novel_none hx, List.filter_cons, List.filter_cons, ih]
    | some k =>
      have hpx : ¬ p x = true := fun htrue => by
        rw [hp x htrue] at hx
        cases hx
      rw [List.filter_cons_of_neg hpx]
      cases hk : seen.contains k with
      | true => rw [novel_seen hx hk, ih]
      | false => rw [novel_new hx hk, List.filter_cons_of_neg hpx, ih]

variable [DecidableEq κ]

/-- Of the entries with a name that was seen before none is left. -/
theorem filter_novel_seen {k : κ} {seen : OrdSet κ} (hk : seen.contains k = true) (l : List α) :
    (seen.novel name l).filter (fun x => name x = some k) = [] := by
  induction l generalizing seen with
  | nil => rfl
  | cons x rest ih =>
    cases hx : name x with
    | none => rw [novel_none hx, List.filter_cons_of_neg (by simp [hx]), ih hk]
    | some j =>
      cases hj : seen.contains j with
      | true => rw [novel_seen hx hj, ih hk]
      | false =>
        have hne : j ≠ k := fun hjk => by
          rw [hjk, hk] at hj
          cases hj
        rw [novel_new hx hj, List.filter_cons_of_neg (by simpa [hx] using hne),
          ih ((contains_add seen j k).2 (.inr hk))]

/-- Of the entries with a new name the first one is left. -/
theorem filter_novel {k : κ} {seen : OrdSet κ} (hk : seen.contains k = false) (l : List α) :
    (seen.novel name l).filter (fun x => name x = some k) =
      (l.find? fun x => name x = some k).toList := by
  induction l generalizing seen with
  | nil => rfl
  | cons x rest ih =>
    cases hx : name x with
    | none =>
      rw [novel_none hx, List.filter_cons_of_neg (by simp [hx]),
        List.find?_cons_of_neg (by simp [hx]), ih hk]
    | some j =>
      by_cases hjk : j = k
      · subst hjk
        rw [novel_new hx hk, List.filter_cons_of_pos (by simp [hx]),
          List.find?_cons_of_pos (by simp [hx]),
          filter_novel_seen ((contains_add seen j j).2 (.inl rfl)), Option.toList_some]
      rw [List.find?_cons_of_neg (by simpa [hx] using hjk)]
      cases hj : seen.contains j with
      | true => rw [novel_seen hx hj, ih hk]
      | false =>
        have hk' : (seen.add j).contains k = false := by
          refine Bool.eq_false_iff.2 fun hin => ?_
          rcases (contains_add seen j k).1 hin with h | h
          · exact hjk h.symm
          · rw [hk] at h
            cases h
        rw [novel_new hx hj, List.filter_cons_of_neg (by simpa [hx] using hjk), ih hk']

theorem mem_novel {seen : OrdSet κ} {l : List α} {x : α} : x ∈ seen.novel name l ↔
    x ∈ l ∧ ∀ k, name x = some k →
      seen.contains k = false ∧ l.find? (fun y => name y = some k) = some x := by
  cases hx : name x with
  | none =>
    have hfilter : (seen.novel name l).filter (fun y => (name y).isNone) =
        l.filter fun y => (name y).isNone :=
      filter_novel_none _ (fun y hy => Option.isNone_iff_eq_none.1 hy) seen l
    have hmem : ∀ l' : List α, x ∈ l'.filter (fun y => (name y).isNone) ↔ x ∈ l' := by
      intro l'
      rw [List.mem_filter, hx]
      exact and_iff_left rfl
    rw [← hmem, hfilter, hmem]
    simp
  | some k =>
    have hmem : ∀ l' : List α, x ∈ l'.filter (fun y => name y = some k) ↔ x ∈ l' := by
      intro l'
      rw [List.mem_filter, hx]
      exact and_iff_left (decide_eq_true rfl)
    rw [← hmem (seen.novel name l)]
    simp only [Option.some.injEq, forall_eq']
    cases hk : seen.contains k with
    | true => simp [filter_novel_seen hk]
    | false =>
      rw [filter_novel hk, Option.mem_toList]
      exact ⟨fun hfind => ⟨List.mem_of_find?_eq_some hfind, rfl, hfind⟩, fun h => h.2.2⟩

end OrdSet

end Novel

/-- An entry that is the only one in a list to pass a test is the first one to
pass it. -/
theorem find?_eq_of_unique {α : Type} {p : α → Bool} {l : List α} {x : α} (hx : x ∈ l)
    (hp : p x = true) (hunique : ∀ y ∈ l, p y = true → y = x) : l.find? p = some x := by
  cases hfind : l.find? p with
  | none => exact absurd hp (List.find?_eq_none.1 hfind x hx)
  | some y => rw [hunique y (List.mem_of_find?_eq_some hfind) (List.find?_some hfind)]

/-! ## What a tenant is shown -/

/-- What a tenant may read of a view. -/
def View.shown (v : View) (root : RootId) : View :=
  fun id => (v id).filter fun a => a.permits root .read

/-- The name of the pair that an edge is a half of. -/
def View.pairOf (w : View) (e : EdgeId) : Option EdgeId :=
  ((w (.edge e)).bind Anchor.edge?).bind fun r => r.twin.map (Actor.pairName e)

/-- An edge that belongs to no pair, or comes first in a list of all that are of
its pair. -/
def View.Leading (w : View) (edges : List EdgeId) (e : EdgeId) : Prop :=
  ∀ k, w.pairOf e = some k → edges.find? (fun f => w.pairOf f = some k) = some e

namespace View

variable {v w : View} {root : RootId} {id : ObjectId} {a : Anchor} {e f k : EdgeId}

theorem shown_eq_some : v.shown root id = some a ↔ v id = some a ∧ a.permits root .read = true :=
  Option.filter_eq_some_iff

theorem nodeIn_shown {n : NodeId} {r : NodeRecord} :
    NodeIn (v.shown root) n a r ↔ NodeIn v n a r ∧ a.permits root .read = true := by
  rw [NodeIn, shown_eq_some, NodeIn]
  exact and_right_comm

theorem edgeIn_shown {r : EdgeRecord} :
    EdgeIn (v.shown root) e a r ↔ EdgeIn v e a r ∧ a.permits root .read = true := by
  rw [EdgeIn, shown_eq_some, EdgeIn]
  exact and_right_comm

theorem edge?_eq_some {r : EdgeRecord} :
    (w (.edge e)).bind Anchor.edge? = some r ↔ ∃ a, EdgeIn w e a r :=
  Option.bind_eq_some_iff

theorem pairOf_eq_some : w.pairOf e = some k ↔
    ∃ a r t, EdgeIn w e a r ∧ r.twin = some t ∧ Actor.pairName e t = k := by
  unfold pairOf
  simp only [Option.bind_eq_some_iff, Option.map_eq_some_iff, EdgeIn]
  constructor
  · rintro ⟨r, ⟨a, ha, hr⟩, t, ht, hk⟩
    exact ⟨a, r, t, ⟨ha, hr⟩, ht, hk⟩
  · rintro ⟨a, r, t, ⟨ha, hr⟩, ht, hk⟩
    exact ⟨r, ⟨a, ha, hr⟩, t, ht, hk⟩

theorem pairOf_of_edgeIn {r : EdgeRecord} (h : EdgeIn w e a r) :
    w.pairOf e = r.twin.map (Actor.pairName e) := by
  unfold pairOf
  rw [edge?_eq_some.2 ⟨a, h⟩]
  rfl

end View

namespace Actor

/-! ## The name of a pair -/

theorem pairName_comm (e t : EdgeId) : pairName e t = pairName t e := by
  unfold pairName
  cases h : compare e t with
  | lt =>
    have hswap : compare t e = .gt := Std.OrientedCmp.gt_iff_lt.2 h
    simp [hswap]
  | eq =>
    have heq : e = t := Std.LawfulEqCmp.eq_of_compare h
    simp [heq]
  | gt =>
    have hswap : compare t e = .lt := Std.OrientedCmp.gt_iff_lt.1 h
    simp [hswap]

theorem pairName_mem (e t : EdgeId) : pairName e t = e ∨ pairName e t = t := by
  unfold pairName
  split
  · exact .inr rfl
  · exact .inl rfl

end Actor

namespace View

variable {v : View} {root : RootId} {a b : Anchor} {r s : EdgeRecord} {e f k t : EdgeId}

/-- A pair has no edges but an edge and its twin. -/
theorem Mirrored.eq_or_twin (hm : v.Mirrored) (ha : EdgeIn v e a r) (ht : r.twin = some t)
    (hk : v.pairOf e = some k) (hf : v.pairOf f = some k) : f = e ∨ f = t := by
  rw [pairOf_of_edgeIn ha, ht, Option.map_some, Option.some.injEq] at hk
  obtain ⟨b, s, u, hb, hu, hname⟩ := pairOf_eq_some.1 hf
  -- the name of the pair is one of the two halves, whichever edge it is found by
  rcases Actor.pairName_mem e t with hke | hkt
  · rcases Actor.pairName_mem f u with hkf | hku
    · exact .inl (hkf.symm.trans (hname.trans (hk.symm.trans hke)))
    · have heu : u = e := hku.symm.trans (hname.trans (hk.symm.trans hke))
      obtain ⟨c, q, hc, htwin, -⟩ := hm hb (heu ▸ hu)
      obtain ⟨-, rfl⟩ := hc.unique ha
      exact .inr (Option.some.inj (htwin.symm.trans ht))
  · rcases Actor.pairName_mem f u with hkf | hku
    · exact .inr (hkf.symm.trans (hname.trans (hk.symm.trans hkt)))
    · have htu : u = t := hku.symm.trans (hname.trans (hk.symm.trans hkt))
      obtain ⟨c, q, hc, htwin, -⟩ := hm hb (htu ▸ hu)
      obtain ⟨c', q', hc', htwin', -⟩ := hm ha ht
      obtain ⟨-, rfl⟩ := hc.unique hc'
      exact .inl (Option.some.inj (htwin.symm.trans htwin'))

theorem pairOf_of_shown (h : (v.shown root).pairOf e = some k) : v.pairOf e = some k := by
  obtain ⟨a, r, t, ha, ht, hk⟩ := pairOf_eq_some.1 h
  exact pairOf_eq_some.2 ⟨a, r, t, (edgeIn_shown.1 ha).1, ht, hk⟩

/-- What is of the same pair as an edge that is shown, is its twin. -/
theorem Mirrored.of_pair (hm : v.Mirrored) (hb : EdgeIn v e b s)
    (he : (v.shown root).pairOf e = some k) (hf : (v.shown root).pairOf f = some k) :
    f = e ∨ s.twin = some f := by
  obtain ⟨b', s', t, hb', ht, -⟩ := pairOf_eq_some.1 he
  obtain ⟨-, rfl⟩ := hb.unique (edgeIn_shown.1 hb').1
  rcases hm.eq_or_twin hb ht (pairOf_of_shown he) (pairOf_of_shown hf) with hfe | hft
  · exact .inl hfe
  · exact .inr (hft ▸ ht)

/-- Among edges that have one node as their end at a port, an edge to another
node comes first of its pair. -/
theorem Mirrored.leading (hm : v.Mirrored) {n : NodeId} {p : Port} {l : List EdgeId}
    (hl : ∀ {f c u}, f ∈ l → EdgeIn v f c u → u.endAt p = n) (he : e ∈ l) (hb : EdgeIn v e b s)
    (hend : s.endAt p.flip ≠ n) : (v.shown root).Leading l e := by
  intro k hk
  refine find?_eq_of_unique he (decide_eq_true hk) fun f hf hpair => ?_
  refine (hm.of_pair hb hk (of_decide_eq_true hpair)).resolve_right fun ht => hend ?_
  -- the twin leads back, so it would have the other node as its end
  obtain ⟨c, u, hc, hmirror⟩ := hm hb ht
  exact (hmirror.2 p).symm.trans (hl hf hc)

end View

/-! ## The listing -/

/-- The side that an edge is on at a port. -/
def Port.side : Port → Direction
  | .out => .outgoing
  | .into => .incoming

/-- The ports whose edges a query looks at. -/
def NeighborQuery.ports (q : NeighborQuery) : List Port :=
  match q.direction with
  | .outgoing => [.out]
  | .incoming => [.into]
  | .both => [.out, .into]

theorem NeighborQuery.candidates_eq (q : NeighborQuery) (r : NodeRecord) :
    q.candidates r = q.ports.flatMap fun p => (r.edgesAt p).map fun e => (e, p.side) := by
  unfold candidates ports
  cases q.direction with
  | outgoing => exact (List.append_nil _).symm
  | incoming => exact (List.append_nil _).symm
  | both => exact (congrArg _ (List.append_nil _)).symm

/-- The candidate that is met first is in the list of the first port, if there
is one. -/
theorem NeighborQuery.find?_candidates {q : NeighborQuery} {r : NodeRecord} {p : Port}
    {rest : List Port} (hq : q.ports = p :: rest) {test : EdgeId → Bool} {e : EdgeId}
    (h : (r.edgesAt p).find? test = some e) :
    (q.candidates r).find? (fun z => test z.1) = some (e, p.side) := by
  have hport : ((r.edgesAt p).map fun e => (e, p.side)).find? (fun z => test z.1) =
      some (e, p.side) := by
    rw [List.find?_map]
    exact congrArg (Option.map _) h
  rw [candidates_eq, hq, List.flatMap_cons, List.find?_append, hport, Option.some_or]

theorem NeighborQuery.ports_side {q : NeighborQuery} {p : Port} (h : q.direction = p.side) :
    q.ports = [p] := by
  unfold ports
  cases p <;> simp only [h, Port.side]

namespace Actor

variable {w : View} {q : NeighborQuery} {r : NodeRecord} {e k : EdgeId} {m : NodeId} {p : Port}

/-- The neighbor that an edge leads to, if the edge passes the filters and the
neighbor is there. -/
def neighborOf (actor : Actor) (w : View) (q : NeighborQuery) (side : Direction) (e : EdgeRecord) :
    Option NodeId :=
  if !actor.passes e.type q.edgeType then
    none
  else
    let neighbor := if side = .incoming then e.source else e.target
    (w neighbor).bind fun a => if actor.passes a.type q.nodeType then some neighbor else none

/-- An edge with the neighbor that it leads to. -/
def entryOf (actor : Actor) (w : View) (q : NeighborQuery) (x : EdgeId × Direction) :
    Option (EdgeId × NodeId) :=
  ((w (.edge x.1)).bind Anchor.edge?).bind fun e =>
    (actor.neighborOf w q x.2 e).map fun n => (x.1, n)

/-- The entries of a query for edges that a node lists, if some pairs were seen
before. -/
def listingFrom (actor : Actor) (w : View) (q : NeighborQuery) (pairs : OrdSet EdgeId)
    (edges : List (EdgeId × Direction)) : List (EdgeId × NodeId) :=
  (pairs.novel (fun x => w.pairOf x.1) edges).filterMap (actor.entryOf w q)

/-- What a query lists for a node with a given record. -/
def listing (actor : Actor) (w : View) (q : NeighborQuery) (r : NodeRecord) :
    List (EdgeId × NodeId) :=
  actor.listingFrom w q Table.empty (q.candidates r)

variable {actor : Actor}

/-- What an edge at a port has to be to be listed with a neighbor. -/
structure Leads (actor : Actor) (w : View) (q : NeighborQuery) (p : Port) (e : EdgeId)
    (m : NodeId) : Prop where
  edge : ∃ a s, EdgeIn w e a s ∧ s.endAt p.flip = m ∧ actor.passes s.type q.edgeType = true
  neighbor : ∃ b, w (.node m) = some b ∧ actor.passes b.type q.nodeType = true

theorem entryOf_fst {x : EdgeId × Direction} {y : EdgeId × NodeId}
    (h : actor.entryOf w q x = some y) : y.1 = x.1 := by
  obtain ⟨s, _, hs⟩ := Option.bind_eq_some_iff.1 h
  obtain ⟨n, _, rfl⟩ := Option.map_eq_some_iff.1 hs
  rfl

section Cons

variable {pairs noted : OrdSet EdgeId} {x : EdgeId × Direction} {rest : List (EdgeId × Direction)}
  {s : EdgeRecord}

theorem listingFrom_unseen (h : (w (.edge x.1)).bind Anchor.edge? = none) :
    actor.listingFrom w q pairs (x :: rest) = actor.listingFrom w q pairs rest := by
  have hpair : w.pairOf x.1 = none := by rw [View.pairOf, h, Option.bind_none]
  have hentry : actor.entryOf w q x = none := by rw [entryOf, h, Option.bind_none]
  have hkept : pairs.novel (fun x => w.pairOf x.1) (x :: rest) =
      x :: pairs.novel (fun x => w.pairOf x.1) rest := OrdSet.novel_none hpair
  rw [listingFrom, hkept, List.filterMap_cons_none hentry, listingFrom]

theorem listingFrom_noted (h : (w (.edge x.1)).bind Anchor.edge? = some s)
    (hn : notePair pairs x.1 s.twin = none) :
    actor.listingFrom w q pairs (x :: rest) = actor.listingFrom w q pairs rest := by
  cases htwin : s.twin with
  | none =>
    rw [htwin] at hn
    cases hn
  | some t =>
    have hpair : w.pairOf x.1 = some (pairName x.1 t) := by
      rw [View.pairOf, h, Option.bind_some, htwin, Option.map_some]
    simp only [notePair, htwin, ite_eq_left_iff, reduceCtorEq, imp_false, Bool.not_eq_true,
      Bool.not_eq_false] at hn
    have hskipped : pairs.novel (fun x => w.pairOf x.1) (x :: rest) =
        pairs.novel (fun x => w.pairOf x.1) rest := OrdSet.novel_seen hpair hn
    rw [listingFrom, hskipped, listingFrom]

theorem listingFrom_met (h : (w (.edge x.1)).bind Anchor.edge? = some s)
    (hn : notePair pairs x.1 s.twin = some noted) :
    actor.listingFrom w q pairs (x :: rest) =
      ((actor.neighborOf w q x.2 s).map fun n => (x.1, n)).toList ++
        actor.listingFrom w q noted rest := by
  have hentry : actor.entryOf w q x = (actor.neighborOf w q x.2 s).map fun n => (x.1, n) := by
    rw [entryOf, h, Option.bind_some]
  have hmet : pairs.novel (fun x => w.pairOf x.1) (x :: rest) =
      x :: noted.novel (fun x => w.pairOf x.1) rest := by
    cases htwin : s.twin with
    | none =>
      have hpair : w.pairOf x.1 = none := by
        rw [View.pairOf, h, Option.bind_some, htwin, Option.map_none]
      rw [htwin] at hn
      cases hn
      exact OrdSet.novel_none hpair
    | some t =>
      have hpair : w.pairOf x.1 = some (pairName x.1 t) := by
        rw [View.pairOf, h, Option.bind_some, htwin, Option.map_some]
      simp only [notePair, htwin, Option.ite_none_left_eq_some, Bool.not_eq_true,
        Option.some.injEq] at hn
      rw [← hn.2]
      exact OrdSet.novel_new hpair hn.1
  rw [listingFrom, hmet, List.filterMap_cons, hentry, listingFrom]
  cases actor.neighborOf w q x.2 s <;> rfl

end Cons

theorem entryOf_eq_some : actor.entryOf w q (e, p.side) = some (e, m) ↔ actor.Leads w q p e m := by
  have hend : ∀ s : EdgeRecord,
      (if p.side = .incoming then s.source else s.target) = s.endAt p.flip := by
    intro s
    cases p <;> rfl
  have hneighbor : ∀ s : EdgeRecord, actor.neighborOf w q p.side s = some m ↔
      s.endAt p.flip = m ∧ actor.passes s.type q.edgeType = true ∧
        ∃ b, w (.node m) = some b ∧ actor.passes b.type q.nodeType = true := by
    intro s
    unfold neighborOf
    simp only [hend]
    cases actor.passes s.type q.edgeType with
    | false => simp
    | true =>
      simp only [Bool.not_true, Bool.false_eq_true, if_false, Option.bind_eq_some_iff,
        Option.ite_none_right_eq_some, Option.some.injEq]
      constructor
      · rintro ⟨b, hb, hp, rfl⟩
        exact ⟨rfl, trivial, b, hb, hp⟩
      · rintro ⟨rfl, -, b, hb, hp⟩
        exact ⟨b, hb, hp, rfl⟩
  unfold entryOf
  simp only [Option.bind_eq_some_iff, Option.map_eq_some_iff, Prod.mk.injEq, true_and,
    exists_eq_right, hneighbor]
  constructor
  · rintro ⟨s, ⟨a, ha, hs⟩, hm, hp, hb⟩
    exact ⟨⟨a, s, ⟨ha, hs⟩, hm, hp⟩, hb⟩
  · rintro ⟨⟨a, s, ⟨ha, hs⟩, hm, hp⟩, hb⟩
    exact ⟨s, ⟨a, ha, hs⟩, hm, hp, hb⟩

theorem mem_candidates {x : EdgeId × Direction} :
    x ∈ q.candidates r ↔ ∃ p ∈ q.ports, x.1 ∈ r.edgesAt p ∧ x.2 = p.side := by
  rw [NeighborQuery.candidates_eq, List.mem_flatMap]
  refine exists_congr fun p => and_congr_right fun _ => ?_
  rw [List.mem_map]
  constructor
  · rintro ⟨e, he, rfl⟩
    exact ⟨he, rfl⟩
  · rintro ⟨he, hside⟩
    exact ⟨x.1, he, Prod.ext rfl hside.symm⟩

/-- Whatever is listed is an edge that the node lists at a port which the query
looks at. -/
theorem leads_of_mem_listing (h : (e, m) ∈ actor.listing w q r) :
    ∃ p ∈ q.ports, e ∈ r.edgesAt p ∧ actor.Leads w q p e m := by
  obtain ⟨⟨f, side⟩, hx, hentry⟩ := List.mem_filterMap.1 h
  obtain ⟨p, hp, he, rfl⟩ := mem_candidates.1 ((OrdSet.novel_sublist _ _).subset hx)
  obtain rfl : e = f := entryOf_fst hentry
  exact ⟨p, hp, he, entryOf_eq_some.1 hentry⟩

/-- The entries for certain edges come from the candidates for these edges. -/
theorem filter_listingFrom (actor : Actor) (w : View) (q : NeighborQuery) (p : EdgeId → Bool)
    (pairs : OrdSet EdgeId) (l : List (EdgeId × Direction)) :
    (actor.listingFrom w q pairs l).filter (fun y => p y.1) =
      ((pairs.novel (fun x => w.pairOf x.1) l).filter fun x => p x.1).filterMap
        (actor.entryOf w q) := by
  unfold listingFrom
  rw [List.filter_filterMap, List.filterMap_filter]
  refine List.filterMap_congr fun x _ => ?_
  cases hx : actor.entryOf w q x with
  | none => simp
  | some y => simp [Option.filter, entryOf_fst hx]

/-- Of the entries for one pair there is at most one, that of the half which
comes first. -/
theorem listing_pair (k : EdgeId) :
    (actor.listing w q r).filter (fun y => w.pairOf y.1 = some k) =
      (((q.candidates r).find? fun x => w.pairOf x.1 = some k).bind
        (actor.entryOf w q)).toList := by
  have hunseen : Table.contains (Table.empty : OrdSet EdgeId) k = false := rfl
  refine (actor.filter_listingFrom w q (fun e => w.pairOf e = some k) Table.empty
    (q.candidates r)).trans ?_
  rw [OrdSet.filter_novel hunseen]
  cases (q.candidates r).find? fun x => w.pairOf x.1 = some k with
  | none => rfl
  | some x => cases hx : actor.entryOf w q x <;> simp [hx]

/-- An edge that belongs to no pair is listed as often as it is met. -/
theorem listing_single (h : w.pairOf e = none) :
    (actor.listing w q r).filter (fun y => y.1 = e) =
      ((q.candidates r).filter fun x => x.1 = e).filterMap (actor.entryOf w q) := by
  refine (actor.filter_listingFrom w q (fun f => f = e) Table.empty (q.candidates r)).trans ?_
  rw [OrdSet.filter_novel_none]
  intro x hx
  rwa [of_decide_eq_true hx]

/-- What a query in one direction lists, and with which neighbor. -/
theorem mem_listing_side (hq : q.direction = p.side) : (e, m) ∈ actor.listing w q r ↔
    e ∈ r.edgesAt p ∧ w.Leading (r.edgesAt p) e ∧ actor.Leads w q p e m := by
  have hcandidates : q.candidates r = (r.edgesAt p).map fun f => (f, p.side) := by
    rw [NeighborQuery.candidates_eq, NeighborQuery.ports_side hq]
    exact List.append_nil _
  have hfind : ∀ k, (q.candidates r).find? (fun x => w.pairOf x.1 = some k) = some (e, p.side) ↔
      (r.edgesAt p).find? (fun f => w.pairOf f = some k) = some e := by
    intro k
    rw [hcandidates, List.find?_map, Option.map_eq_some_iff]
    simp only [Prod.mk.injEq, and_true, exists_eq_right]
    rfl
  unfold listing listingFrom
  rw [List.mem_filterMap]
  constructor
  · rintro ⟨⟨f, side⟩, hx, hentry⟩
    obtain ⟨hin, hfirst⟩ := OrdSet.mem_novel.1 hx
    obtain rfl : e = f := entryOf_fst hentry
    obtain ⟨g, hg, hpair⟩ := List.mem_map.1 (hcandidates ▸ hin)
    cases hpair
    exact ⟨hg, fun k hk => (hfind k).1 (hfirst k hk).2, entryOf_eq_some.1 hentry⟩
  · rintro ⟨he, hleading, hleads⟩
    refine ⟨(e, p.side), OrdSet.mem_novel.2 ⟨?_, fun k hk => ⟨rfl, (hfind k).2 (hleading k hk)⟩⟩,
      entryOf_eq_some.2 hleads⟩
    rw [hcandidates]
    exact List.mem_map_of_mem he

end Actor

/-! ## What the queries answer -/

namespace Actor

open Desk (Fetched)

variable {σ : Type} [Durable σ] {t : Tier σ} {d₀ d : Desk σ} {actor : Actor}

theorem readable_ends (h : Fetched t d₀ d) (id : ObjectId) :
    Work.Ends (actor.readable id) d (fun found d₁ =>
      found.map Anchor.clean = (d₀.view t).shown actor.requester id ∧ Fetched t d₀ d₁)
      fun _ _ => False := by
  refine (h.load id).andThen ?_
  rintro found d₁ ⟨hv, -, h₁⟩
  refine .pure ⟨?_, h₁⟩
  unfold View.shown
  rw [← hv]
  cases found with
  | none => rfl
  | some a => cases hp : a.permits actor.requester .read <;> simp [Option.filter, hp]

theorem neighborAt_ends (h : Fetched t d₀ d) (q : NeighborQuery) (side : Direction)
    (e : EdgeRecord) :
    Work.Ends (actor.neighborAt q side e) d (fun found d₁ =>
      found = actor.neighborOf ((d₀.view t).shown actor.requester) q side e ∧ Fetched t d₀ d₁)
      fun _ _ => False := by
  unfold neighborAt neighborOf
  split
  · exact .pure ⟨rfl, h⟩
  refine .bind ((readable_ends h _).andThen ?_)
  rintro found d₁ ⟨hshown, h₁⟩
  refine .pure ?_
  dsimp only
  rw [← hshown]
  cases found with
  | none => exact .pure ⟨rfl, h₁⟩
  | some a => exact .pure ⟨rfl, h₁⟩

theorem matchingFrom_ends (h : Fetched t d₀ d) (q : NeighborQuery) (pairs : OrdSet EdgeId)
    (edges : List (EdgeId × Direction)) :
    Work.Ends (actor.matchingFrom q pairs edges) d (fun found d₁ =>
      found = actor.listingFrom ((d₀.view t).shown actor.requester) q pairs edges ∧
        Fetched t d₀ d₁) fun _ _ => False := by
  induction edges generalizing pairs d with
  | nil => exact .pure ⟨rfl, h⟩
  | cons head rest ih =>
    obtain ⟨edge, side⟩ := head
    refine (readable_ends h edge).andThen ?_
    rintro found d₁ ⟨hshown, h₁⟩
    -- what was read and what is shown may differ in the dirty flag, not in the record
    have hedge : found.bind Anchor.edge? =
        ((d₀.view t).shown actor.requester (.edge edge)).bind Anchor.edge? := by
      rw [← hshown]
      cases found <;> rfl
    rw [hedge]
    cases hs : ((d₀.view t).shown actor.requester (.edge edge)).bind Anchor.edge? with
    | none =>
      rw [listingFrom_unseen (x := (edge, side)) hs]
      exact ih h₁ pairs
    | some e =>
      dsimp only
      cases hn : notePair pairs edge e.twin with
      | none =>
        rw [listingFrom_noted (x := (edge, side)) hs hn]
        exact ih h₁ pairs
      | some noted =>
        rw [listingFrom_met (x := (edge, side)) hs hn]
        refine (neighborAt_ends h₁ q side e).andThen ?_
        rintro neighbor d₂ ⟨rfl, h₂⟩
        dsimp only
        cases actor.neighborOf ((d₀.view t).shown actor.requester) q side e with
        | none => exact ih h₂ noted
        | some n =>
          refine (ih h₂ noted).andThen ?_
          rintro more d₃ ⟨rfl, h₃⟩
          exact .pure ⟨rfl, h₃⟩

/-- A query on a node that can be read is answered with the listing; on anything
else it fails. -/
theorem matching_ends (h : Fetched t d₀ d) (n : NodeId) (q : NeighborQuery) :
    Work.Ends (actor.matching n q) d (fun found d₁ => Fetched t d₀ d₁ ∧
      ∃ a r, NodeIn ((d₀.view t).shown actor.requester) n a r ∧
        found = actor.listing ((d₀.view t).shown actor.requester) q r)
      fun _ _ => ∀ a r, ¬ NodeIn ((d₀.view t).shown actor.requester) n a r := by
  have hnode : Work.Ends (actor.node n) d (fun r d₁ => Fetched t d₀ d₁ ∧
      ∃ a, NodeIn ((d₀.view t).shown actor.requester) n a r)
      fun _ _ => ∀ a r, ¬ NodeIn ((d₀.view t).shown actor.requester) n a r := by
    refine .bind ((h.check actor n .read).mono ?_ ?_)
    · rintro b d₁ ⟨hb, hp, h₁⟩
      have hshown : (d₀.view t).shown actor.requester (.node n) = some b.clean :=
        View.shown_eq_some.2 ⟨hb, hp⟩
      cases hr : b.node? with
      | none =>
        refine .throw fun a r ha => ?_
        have hsame : b.clean = a := Option.some.inj (hshown.symm.trans ha.1)
        have hnone := ha.2
        rw [← hsame, Anchor.clean_node?, hr] at hnone
        cases hnone
      | some r => exact .pure ⟨h₁, b.clean, hshown, hr⟩
    · intro _ _ hc a r ha
      exact hc.1 a (View.nodeIn_shown.1 ha).1.1 (View.nodeIn_shown.1 ha).2
  refine hnode.andThen ?_
  rintro r d₁ ⟨h₁, a, ha⟩
  refine (matchingFrom_ends h₁ q _ _).surely.imp ?_
  rintro _ d₂ ⟨rfl, h₂⟩
  exact ⟨h₂, a, r, ha, rfl⟩

/-- The answers to a query on a node: each edge with the neighbor that it leads
to. -/
structure Answers (actor : Actor) (d : Desk σ) (n : NodeId) (q : NeighborQuery)
    (found : List (EdgeId × NodeId)) : Prop where
  edges : ∃ d', actor.edges n q d = .ok (found.map (·.1)) d'
  neighbors : ∃ d', actor.neighbors n q d = .ok (found.map (·.2)) d'

/-- Whoever may read a node gets answers to every query on it. -/
theorem answers_listing (hd : d.Over t) {n : NodeId} {a : Anchor} {r : NodeRecord}
    (ha : NodeIn ((d.view t).shown actor.requester) n a r) (q : NeighborQuery) :
    actor.Answers d n q (actor.listing ((d.view t).shown actor.requester) q r) := by
  have hends : Work.Ends (actor.matching n q) d (fun found _ =>
      found = actor.listing ((d.view t).shown actor.requester) q r) fun _ _ => False := by
    refine (actor.matching_ends (.refl hd) n q).mono ?_ fun _ _ hno => hno a r ha
    rintro found d' ⟨-, b, s, hb, rfl⟩
    obtain ⟨-, rfl⟩ := ha.unique hb
    rfl
  constructor
  · obtain ⟨_, d', hrun, rfl⟩ := (Work.Ends.andThen hends (R := fun answer _ =>
      answer = (actor.listing ((d.view t).shown actor.requester) q r).map (·.1))
      fun found d' hfound => .pure (congrArg _ hfound)).exists_ok
    exact ⟨d', hrun⟩
  · obtain ⟨_, d', hrun, rfl⟩ := (Work.Ends.andThen hends (R := fun answer _ =>
      answer = (actor.listing ((d.view t).shown actor.requester) q r).map (·.2))
      fun found d' hfound => .pure (congrArg _ hfound)).exists_ok
    exact ⟨d', hrun⟩

end Actor

end Wayfarer
