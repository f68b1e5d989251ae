import Mathlib.Data.List.Nodup
import Wayfarer.Proofs.Confinement

/-!
# Adding to a view

New nodes and edges, and longer lists at the nodes that the edges meet:
`View.Grown`. Nodes are put in one at a time; an edge, or an undirected link of
two, comes in together with its entries in the lists of its ends
(`View.linked`). `Desk.Tracks.linkOne` and `Desk.Tracks.linkBoth` say it of the
work that lists new edges at their ends, whatever else is known of the desk.
-/

namespace Wayfarer

namespace View

variable {v v' v'' : View} {root : RootId}

/-! ## Adding -/

/-- What is there stays as it is, except that some nodes may list more edges,
and whatever is new is the tenant's own. New nodes have certain types. -/
structure Grown (root : RootId) (ends : NodeId → Prop) (types : TypeId → Prop) (v v' : View) :
    Prop where
  old : ∀ {id a}, v id = some a → ∃ b, v' id = some b ∧ a.Persists b ∧ b.fields = a.fields ∧
    b.access = a.access
  lists : ∀ {n a r b s}, NodeIn v n a r → NodeIn v' n b s → ¬ ends n →
    ∀ p, s.edgesAt p = r.edgesAt p
  new : ∀ {id b}, v id = none → v' id = some b → b.owner = root ∧ b.access = Access.ownerOnly
  sprouts : ∀ {n b}, v (.node n) = none → v' (.node n) = some b → types b.type

namespace Grown

variable {ends : NodeId → Prop} {types : TypeId → Prop}

theorem refl : v.Grown root ends types v := by
  refine ⟨fun {id a} ha => ⟨a, ha, .refl a, rfl, rfl⟩, fun ha hb _ p => ?_, fun hn hb => ?_,
    fun hn hb => ?_⟩
  · rw [(ha.unique hb).2]
  · cases hn.symm.trans hb
  · cases hn.symm.trans hb

theorem trans (h : v.Grown root ends types v') (h' : v'.Grown root ends types v'') :
    v.Grown root ends types v'' := by
  refine ⟨fun ha => ?_, fun {n a r c u} ha hc hn p => ?_, fun {id c} hn hc => ?_,
    fun {n c} hn hc => ?_⟩
  · obtain ⟨b, hb, hp, hf, hacc⟩ := h.old ha
    obtain ⟨c, hc, hp', hf', hacc'⟩ := h'.old hb
    exact ⟨c, hc, hp.trans hp', hf'.trans hf, hacc'.trans hacc⟩
  · obtain ⟨b, hb, hp, _⟩ := h.old ha.1
    obtain ⟨s, hs⟩ := hp.node ha.2
    rw [h'.lists ⟨hb, hs⟩ hc hn p, h.lists ha ⟨hb, hs⟩ hn p]
  · cases hb : v' id with
    | none => exact h'.new hb hc
    | some b =>
      obtain ⟨c', hc', hp, _, hacc⟩ := h'.old hb
      rw [hc] at hc'
      cases hc'
      obtain ⟨hown, hacc₀⟩ := h.new hn hb
      exact ⟨hp.owner.trans hown, hacc.trans hacc₀⟩
  · cases hb : v' (.node n) with
    | none => exact h'.sprouts hb hc
    | some b =>
      obtain ⟨c', hc', hp, _⟩ := h'.old hb
      cases hc.symm.trans hc'
      exact hp.type ▸ h.sprouts hn hb

theorem confined (h : v.Grown root ends types v')
    (hends : ∀ {n a}, ends n → v (.node n) = some a → a.permits root .connect = true) :
    v.Confined root v' := by
  have hgone : ∀ {id a}, v id = some a → v' id ≠ none := by
    intro id a ha hn
    obtain ⟨b, hb, _⟩ := h.old ha
    rw [hn] at hb
    cases hb
  refine ⟨fun ha hb => ?_, fun ha hb hne => ?_, fun ha hn => (hgone ha hn).elim,
    fun ha hn => (hgone ha.1 hn).elim, fun {n a r b s} ha hb hne => ?_, h.new⟩
  · obtain ⟨c, hc, hp, _⟩ := h.old ha
    rw [hb] at hc
    cases hc
    exact hp
  · obtain ⟨c, hc, _, hf, hacc⟩ := h.old ha
    rw [hb] at hc
    cases hc
    exact (hne.elim (fun hh => hh hf) fun hh => hh hacc).elim
  · by_cases hn : ends n
    · exact .inl (hends hn ha.1)
    · obtain ⟨p, hp⟩ := hne
      exact absurd (h.lists ha hb hn p) hp

/-- A new object that nobody lists. -/
theorem put {id : ObjectId} {a : Anchor} (hn : v id = none) (hown : a.owner = root)
    (hacc : a.access = Access.ownerOnly) (htype : types a.type) :
    v.Grown root ends types (v.put id a) := by
  have hput : ∀ {j x}, v j = some x → v.put id a j = some x := by
    intro j x hx
    refine (if_neg ?_).trans hx
    rintro rfl
    rw [hn] at hx
    cases hx
  have hback : ∀ {j y}, v j = none → v.put id a j = some y → y = a := by
    intro j y hj hy
    unfold View.put at hy
    split at hy
    · exact (Option.some.inj hy).symm
    · cases hj.symm.trans hy
  refine ⟨fun {j x} hx => ⟨x, hput hx, .refl x, rfl, rfl⟩, fun hx hy _ p => ?_, fun hj hy => ?_,
    fun hj hy => ?_⟩
  · rw [(NodeIn.unique ⟨hput hx.1, hx.2⟩ hy).2]
  · exact hback hj hy ▸ ⟨hown, hacc⟩
  · exact hback hj hy ▸ htype

end Grown

theorem Orderly.putNode (h : v.Orderly) {n : NodeId} {a : Anchor} {r : NodeRecord}
    (hn : v (.node n) = none) (hr : a.node? = some r) (hempty : ∀ p, r.edgesAt p = []) :
    (v.put (.node n) a).Orderly := by
  have hedge : ∀ e, v.put (.node n) a (.edge e) = v (.edge e) := fun e => if_neg (by simp)
  have hother : ∀ {m b s}, NodeIn v m b s → NodeIn (v.put (.node n) a) m b s := by
    rintro m b s ⟨hb, hs⟩
    refine ⟨(if_neg ?_).trans hb, hs⟩
    rintro ⟨⟩
    rw [hn] at hb
    cases hb
  -- a node of the larger view is the new one, which lists nothing, or an old one
  have hback : ∀ {m b s}, NodeIn (v.put (.node n) a) m b s →
      (m = n ∧ s = r) ∨ NodeIn v m b s := by
    rintro m b s ⟨hb, hs⟩
    unfold View.put at hb
    split at hb
    · rename_i hm
      cases hb
      rw [hr] at hs
      cases hs
      exact .inl ⟨ObjectId.node.inj hm, rfl⟩
    · exact .inr ⟨hb, hs⟩
  refine ⟨⟨fun {m b} hb => ?_, fun {e b} hb => ?_, fun {e b u} hb p => ?_,
    fun {m b s p e} hb hin => ?_⟩, fun {e b u t} hb ht => ?_⟩
  · unfold View.put at hb
    split at hb
    · cases hb
      exact ⟨r, hr⟩
    · exact h.nodes hb
  · exact h.edges ((hedge e).symm.trans hb)
  · obtain ⟨c, w, hc, hin⟩ := h.ends ⟨(hedge e).symm.trans hb.1, hb.2⟩ p
    exact ⟨c, w, hother hc, hin⟩
  · rcases hback hb with ⟨_, rfl⟩ | hb
    · rw [hempty] at hin
      cases hin
    · obtain ⟨c, w, hc, hend⟩ := h.listed hb hin
      exact ⟨c, w, ⟨(hedge e).trans hc.1, hc.2⟩, hend⟩
  · obtain ⟨c, w, hc, hrest⟩ := h.twinned ⟨(hedge e).symm.trans hb.1, hb.2⟩ ht
    exact ⟨c, w, ⟨(hedge t).trans hc.1, hc.2⟩, hrest⟩

end View

/-! ## Linking -/

/-- The node `n` with some more edges, of those that have it as an end. -/
def NodeRecord.attached (r : NodeRecord) (n : NodeId) (new : List (EdgeId × EdgeRecord)) :
    NodeRecord :=
  { r with
    outgoing := r.outgoing ++ (new.filter fun x => x.2.source = n).map (·.1),
    incoming := r.incoming ++ (new.filter fun x => x.2.target = n).map (·.1) }

theorem NodeRecord.edgesAt_attached (r : NodeRecord) (n : NodeId)
    (new : List (EdgeId × EdgeRecord)) (p : Port) : (r.attached n new).edgesAt p =
      r.edgesAt p ++ (new.filter fun x => x.2.endAt p = n).map (·.1) := by
  cases p <;> rfl

theorem NodeRecord.attached_one (r : NodeRecord) (n : NodeId) (e : EdgeId) (s : EdgeRecord) :
    r.attached n [(e, s)] =
      (fun r : NodeRecord => if s.target = n then r.attachIn e else r)
        (if s.source = n then r.attachOut e else r) := by
  by_cases hsource : s.source = n <;> by_cases htarget : s.target = n <;>
    simp [NodeRecord.attached, NodeRecord.attachOut, NodeRecord.attachIn, hsource, htarget]

theorem NodeRecord.attached_append (r : NodeRecord) (n : NodeId)
    (new more : List (EdgeId × EdgeRecord)) :
    (r.attached n new).attached n more = r.attached n (new ++ more) := by
  refine ext_edgesAt rfl rfl fun p => ?_
  simp only [edgesAt_attached, List.filter_append, List.map_append, List.append_assoc]

theorem NodeRecord.mem_attached {r : NodeRecord} {n : NodeId} {new : List (EdgeId × EdgeRecord)}
    {p : Port} {e : EdgeId} : e ∈ (r.attached n new).edgesAt p ↔
      e ∈ r.edgesAt p ∨ ∃ s, (e, s) ∈ new ∧ s.endAt p = n := by
  rw [edgesAt_attached, List.mem_append]
  simp

theorem NodeIn.put_edge {v : View} {n : NodeId} {a b : Anchor} {r : NodeRecord} {e : EdgeId}
    (h : NodeIn v n a r) : NodeIn (v.put (.edge e) b) n a r := ⟨(if_neg (by simp)).trans h.1, h.2⟩

namespace View

/-- The view with new edges of an owner, listed at their ends. -/
def linked (v : View) (owner : RootId) (new : List (EdgeId × EdgeRecord)) : View
  | .edge e =>
    match new.find? fun x => x.1 = e with
    | some x => some (Anchor.ofEdge e owner x.2).clean
    | none => v (.edge e)
  | .node n => (v (.node n)).map (·.mapNode (·.attached n new))

/-- The view with an edge listed at its ends. -/
def attach (v : View) (e : EdgeId) (r : EdgeRecord) : View :=
  (v.modify (.node r.source) (·.mapNode (·.attachOut e))).modify (.node r.target)
    (·.mapNode (·.attachIn e))

theorem attach_edge {v : View} {e x : EdgeId} {r : EdgeRecord} :
    v.attach e r (.edge x) = v (.edge x) := by
  simp [attach, modify]

theorem attach_node {v : View} {e : EdgeId} {r : EdgeRecord} {n : NodeId} :
    v.attach e r (.node n) = (v (.node n)).map (·.mapNode (·.attached n [(e, r)])) := by
  simp only [attach, modify_node, NodeRecord.attached_one, Option.map_map, Function.comp_def,
    Anchor.mapNode_mapNode]

/-- Putting in a new edge and listing it at its ends links them. -/
theorem attach_put {v : View} {owner : RootId} {e : EdgeId} {r : EdgeRecord} :
    (v.put (.edge e) (Anchor.ofEdge e owner r).clean).attach e r = v.linked owner [(e, r)] := by
  funext id
  cases id with
  | node n =>
    rw [attach_node]
    rfl
  | edge x =>
    rw [attach_edge]
    unfold put linked
    by_cases hx : e = x
    · simp [hx]
    · simp [hx, Ne.symm hx]

/-- The same for the two halves of an undirected link. -/
theorem attach_attach_put_put {v : View} {owner : RootId} {e t : EdgeId} {r s : EdgeRecord} :
    (((v.put (.edge t) (Anchor.ofEdge t owner s).clean).put (.edge e)
      (Anchor.ofEdge e owner r).clean).attach e r).attach t s =
      v.linked owner [(e, r), (t, s)] := by
  funext id
  cases id with
  | node n =>
    rw [attach_node, attach_node, Option.map_map]
    simp only [Function.comp_def, Anchor.mapNode_mapNode, NodeRecord.attached_append]
    rfl
  | edge x =>
    rw [attach_edge, attach_edge]
    unfold put linked
    by_cases hx : e = x
    · simp [hx]
    · by_cases ht : t = x
      · simp [hx, Ne.symm hx, ht]
      · simp [hx, Ne.symm hx, ht, Ne.symm ht]

/-- Edges that can be added to a view together: they are new, their ends are
there, and the twin of each of them is among them. -/
structure Linkable (v : View) (new : List (EdgeId × EdgeRecord)) : Prop where
  nodup : (new.map (·.1)).Nodup
  unseen : ∀ x ∈ new, v (.edge x.1) = none
  ends : ∀ x ∈ new, ∀ p, ∃ a, v (.node (x.2.endAt p)) = some a
  twins : ∀ x ∈ new, ∀ t, x.2.twin = some t → ∃ y ∈ new, y.1 = t ∧ y.2.Mirrors x.2 x.1

section Linked

variable {v : View} {root : RootId} {new : List (EdgeId × EdgeRecord)}

theorem Linkable.one {e : EdgeId} {r : EdgeRecord} (he : v (.edge e) = none) (ht : r.twin = none)
    (hends : ∀ p, ∃ a, v (.node (r.endAt p)) = some a) : v.Linkable [(e, r)] := by
  refine ⟨by simp, ?_, ?_, ?_⟩ <;> simp only [List.mem_singleton] <;> rintro _ rfl
  · exact he
  · exact hends
  · intro t htwin
    cases ht.symm.trans htwin

theorem Linkable.two {e t : EdgeId} {r s : EdgeRecord} (hne : e ≠ t) (he : v (.edge e) = none)
    (ht : v (.edge t) = none) (hs : s.Mirrors r e) (hr : r.Mirrors s t)
    (hends : ∀ p, ∃ a, v (.node (r.endAt p)) = some a) : v.Linkable [(e, r), (t, s)] := by
  refine ⟨by simp [hne], ?_, ?_, ?_⟩ <;> simp only [List.mem_cons, List.not_mem_nil, or_false] <;>
    rintro _ (rfl | rfl)
  · exact he
  · exact ht
  · exact hends
  · exact fun p => hs.2 p ▸ hends p.flip
  · intro x hx
    exact ⟨_, .inr rfl, Option.some.inj (hr.1.symm.trans hx), hs⟩
  · intro x hx
    exact ⟨_, .inl rfl, Option.some.inj (hs.1.symm.trans hx), hr⟩

theorem Linkable.linked_of_mem (h : v.Linkable new) {e : EdgeId} {r : EdgeRecord}
    (hx : (e, r) ∈ new) : v.linked root new (.edge e) = some (Anchor.ofEdge e root r).clean := by
  have hfind : new.find? (fun x => x.1 = e) = some (e, r) := by
    cases hf : new.find? (fun x => x.1 = e) with
    | none => exact absurd (List.find?_eq_none.1 hf _ hx) (by simp)
    | some y =>
      have hy : y.1 = e := by simpa using List.find?_some hf
      exact congrArg some (List.inj_on_of_nodup_map h.nodup (List.mem_of_find?_eq_some hf) hx hy)
  unfold linked
  simp only [hfind]

theorem linked_of_not_mem {e : EdgeId} (hx : ∀ r, (e, r) ∉ new) :
    v.linked root new (.edge e) = v (.edge e) := by
  have hfind : new.find? (fun x => x.1 = e) = none := by
    refine List.find?_eq_none.2 fun y hy hye => hx y.2 ?_
    rw [decide_eq_true_eq] at hye
    exact hye ▸ hy
  unfold linked
  simp only [hfind]

/-- The edges of the linked view are the new ones and those that were there. -/
theorem Linkable.edgeIn (h : v.Linkable new) {e : EdgeId} {a : Anchor} {r : EdgeRecord} :
    EdgeIn (v.linked root new) e a r ↔
      ((e, r) ∈ new ∧ a = (Anchor.ofEdge e root r).clean) ∨ EdgeIn v e a r := by
  constructor
  · rintro ⟨ha, hr⟩
    by_cases hx : ∃ s, (e, s) ∈ new
    · obtain ⟨s, hx⟩ := hx
      rw [h.linked_of_mem hx] at ha
      cases ha
      cases hr
      exact .inl ⟨hx, rfl⟩
    · rw [linked_of_not_mem fun s hs => hx ⟨s, hs⟩] at ha
      exact .inr ⟨ha, hr⟩
  · rintro (⟨hx, rfl⟩ | ha)
    · exact ⟨h.linked_of_mem hx, rfl⟩
    · refine ⟨(linked_of_not_mem fun s hs => ?_).trans ha.1, ha.2⟩
      cases (h.unseen _ hs).symm.trans ha.1

theorem nodeIn_linked {n : NodeId} {b : Anchor} {s : NodeRecord} :
    NodeIn (v.linked root new) n b s ↔ ∃ a r, NodeIn v n a r ∧
      b = a.mapNode (·.attached n new) ∧ s = r.attached n new := nodeIn_mapNode rfl

theorem Linkable.consistent (h : v.Linkable new) (hv : v.Consistent) :
    (v.linked root new).Consistent := by
  have hnode : ∀ {n a}, v (.node n) = some a → ∃ b s, NodeIn v n b s := fun ha =>
    (hv.nodes ha).elim fun r hr => ⟨_, r, ha, hr⟩
  refine ⟨fun {n b} hb => ?_, fun {e a} ha => ?_, fun {e a r} ha p => ?_,
    fun {n b s p e} hb hin => ?_⟩
  · obtain ⟨a, ha, rfl⟩ := Option.map_eq_some_iff.1 hb
    obtain ⟨r, hr⟩ := hv.nodes ha
    exact ⟨_, Anchor.mapNode_node? hr _⟩
  · by_cases hx : ∃ s, (e, s) ∈ new
    · obtain ⟨s, hx⟩ := hx
      rw [h.linked_of_mem hx] at ha
      cases ha
      exact ⟨s, rfl⟩
    · rw [linked_of_not_mem fun s hs => hx ⟨s, hs⟩] at ha
      exact hv.edges ha
  · rcases h.edgeIn.1 ha with ⟨hx, _⟩ | ha
    · obtain ⟨b, hb⟩ := h.ends _ hx p
      obtain ⟨c, s, hc⟩ := hnode hb
      exact ⟨_, _, nodeIn_linked.2 ⟨c, s, hc, rfl, rfl⟩,
        NodeRecord.mem_attached.2 (.inr ⟨r, hx, rfl⟩)⟩
    · obtain ⟨b, s, hb, hin⟩ := hv.ends ha p
      exact ⟨_, _, nodeIn_linked.2 ⟨b, s, hb, rfl, rfl⟩, NodeRecord.mem_attached.2 (.inl hin)⟩
  · obtain ⟨a, r, ha, rfl, rfl⟩ := nodeIn_linked.1 hb
    rcases NodeRecord.mem_attached.1 hin with hin | ⟨u, hu, hend⟩
    · obtain ⟨c, w, hc, hend⟩ := hv.listed ha hin
      exact ⟨c, w, h.edgeIn.2 (.inr hc), hend⟩
    · exact ⟨_, u, h.edgeIn.2 (.inl ⟨hu, rfl⟩), hend⟩

theorem Linkable.mirrored (h : v.Linkable new) (hv : v.Mirrored) :
    (v.linked root new).Mirrored := by
  intro e a r t ha ht
  rcases h.edgeIn.1 ha with ⟨hx, -⟩ | ha
  · obtain ⟨⟨y, u⟩, hy, rfl, hmir⟩ := h.twins _ hx t ht
    exact ⟨_, u, h.edgeIn.2 (.inl ⟨hy, rfl⟩), hmir⟩
  · obtain ⟨b, s, hb, hmir⟩ := hv ha ht
    exact ⟨b, s, h.edgeIn.2 (.inr hb), hmir⟩

theorem Linkable.orderly (h : v.Linkable new) (hv : v.Orderly) : (v.linked root new).Orderly := by
  refine ⟨h.consistent hv.toConsistent, fun {e a r t} ha ht => ?_⟩
  rcases h.edgeIn.1 ha with ⟨hx, rfl⟩ | ha
  · obtain ⟨⟨y, u⟩, hy, rfl, hmir⟩ := h.twins _ hx t ht
    exact ⟨_, u, h.edgeIn.2 (.inl ⟨hy, rfl⟩), hmir, rfl, rfl⟩
  · obtain ⟨b, s, hb, hrest⟩ := hv.twinned ha ht
    exact ⟨b, s, h.edgeIn.2 (.inr hb), hrest⟩

theorem Linkable.grown (h : v.Linkable new) (hv : v.Orderly) {ends : NodeId → Prop}
    {types : TypeId → Prop} (hends : ∀ x ∈ new, ∀ p, ends (x.2.endAt p)) :
    v.Grown root ends types (v.linked root new) := by
  have hnode : ∀ {n b}, v (.node n) = none → v.linked root new (.node n) ≠ some b := by
    intro n b hn hb
    obtain ⟨a, ha, _⟩ := Option.map_eq_some_iff.1 hb
    cases hn.symm.trans ha
  refine ⟨fun {id a} ha => ?_, fun {n a r b s} ha hb hn p => ?_, fun {id b} hn hb => ?_,
    fun hn hb => (hnode hn hb).elim⟩
  · cases id with
    | node n =>
      exact ⟨_, congrArg (Option.map _) ha, .mapNode fun _ => rfl,
        Anchor.mapNode_fields _ fun _ => rfl, Anchor.mapNode_access ..⟩
    | edge e =>
      obtain ⟨r, hr⟩ := hv.edges ha
      exact ⟨a, (h.edgeIn.2 (.inr ⟨ha, hr⟩)).1, .refl a, rfl, rfl⟩
  · obtain ⟨a', r', ha', _, rfl⟩ := nodeIn_linked.1 hb
    obtain ⟨_, rfl⟩ := ha.unique ha'
    have hnone : (new.filter fun x => x.2.endAt p = n) = [] := by
      refine List.filter_eq_nil_iff.2 fun x hx hxn => hn ?_
      rw [decide_eq_true_eq] at hxn
      exact hxn ▸ hends x hx p
    rw [NodeRecord.edgesAt_attached, hnone, List.map_nil, List.append_nil]
  · cases id with
    | node n => exact (hnode hn hb).elim
    | edge e =>
      by_cases hx : ∃ s, (e, s) ∈ new
      · obtain ⟨s, hx⟩ := hx
        rw [h.linked_of_mem hx] at hb
        cases hb
        exact ⟨rfl, rfl⟩
      · rw [linked_of_not_mem fun s hs => hx ⟨s, hs⟩, hn] at hb
        cases hb

end Linked

end View

/-! ## Changing the lists of nodes -/

namespace Desk

variable {σ : Type} [Durable σ] {t : Tier σ} {d₀ d : Desk σ} {n : Nat} {v : View}
  {P : View → Desk σ → Prop}

/-- What holds of a view and a desk, and holds again when an object is
changed. -/
structure Tracks (P : View → Desk σ → Prop) : Prop where
  update? : ∀ {v d}, P v d → ∀ id {change : Anchor → Anchor}, Anchor.Mild change →
    Work.Ends (update? id change) d (fun before d' => before.map Anchor.clean = v id ∧
      P (v.modify id change) d') fun _ _ => False

theorem Reached.tracks : Tracks (Reached t d₀ n) := ⟨fun h id _ hm => h.update? id hm⟩

namespace Tracks

theorem changeNode (hP : Tracks P) (h : P v d) {m : NodeId} (hm : ∃ a r, NodeIn v m a r)
    (f : NodeRecord → NodeRecord) :
    Work.Ends (Actor.changeNode m f) d (fun _ d' => P (v.modify (.node m) (·.mapNode f)) d')
      fun _ _ => False := by
  obtain ⟨a, r, ha, hr⟩ := hm
  refine (hP.update? h _ (.mapNode f)).andThen ?_
  rintro before d₁ ⟨hbefore, h₁⟩
  obtain ⟨b, rfl, rfl⟩ := Option.map_eq_some_iff.1 (hbefore.trans ha)
  rw [Option.bind_some, show b.node? = some r from hr]
  exact .pure h₁

/-- Listing an edge at both its ends. -/
theorem attach (hP : Tracks P) {α : Type} {k : Work σ α} {Q : α → Desk σ → Prop}
    {E : Error → Desk σ → Prop} (h : P v d) {r : EdgeRecord}
    (hends : ∀ p, ∃ a s, NodeIn v (r.endAt p) a s) (e : EdgeId)
    (hk : ∀ d', P (v.attach e r) d' → Work.Ends k d' Q E) :
    Work.Ends (do
      Actor.changeNode r.source (·.attachOut e)
      Actor.changeNode r.target (·.attachIn e)
      k) d Q E := by
  refine (hP.changeNode h (hends .out) _).surely.andThen ?_
  intro _ d₁ h₁
  have htarget : ∃ a s,
      NodeIn (v.modify (.node r.source) (·.mapNode (·.attachOut e))) r.target a s := by
    obtain ⟨a, s, ha⟩ := hends .into
    exact ⟨_, _, (View.nodeIn_mapNode View.modify_node).2 ⟨a, s, ha, rfl, rfl⟩⟩
  refine (hP.changeNode h₁ htarget _).surely.andThen ?_
  exact fun _ d₂ h₂ => hk d₂ h₂

section Halves

variable (hP : Tracks P) {α : Type} {k : Work σ α} {Q : α → Desk σ → Prop}
  {E : Error → Desk σ → Prop}
  {owner : RootId} {e g : EdgeId} {r s : EdgeRecord}
  (hends : ∀ p, ∃ a u, NodeIn v (r.endAt p) a u)

include hP hends

/-- A new edge that is listed at its ends is linked. -/
theorem linkOne (h : P (v.put (.edge e) (Anchor.ofEdge e owner r).clean) d)
    (hk : ∀ d', P (v.linked owner [(e, r)]) d' → Work.Ends k d' Q E) :
    Work.Ends (do
      Actor.changeNode r.source (·.attachOut e)
      Actor.changeNode r.target (·.attachIn e)
      k) d Q E :=
  hP.attach h (fun p => (hends p).imp fun _ ⟨u, ha⟩ => ⟨u, ha.put_edge⟩) e
    fun d' h' => hk d' (View.attach_put ▸ h')

/-- The same for the two halves of an undirected link. If it leads from a node
to itself, the second half finds the lists as the first half left them. -/
theorem linkBoth (h : P ((v.put (.edge g) (Anchor.ofEdge g owner s).clean).put (.edge e)
      (Anchor.ofEdge e owner r).clean) d) (hmir : ∀ p, s.endAt p = r.endAt p.flip)
    (hk : ∀ d', P (v.linked owner [(e, r), (g, s)]) d' → Work.Ends k d' Q E) :
    Work.Ends (do
      Actor.changeNode r.source (·.attachOut e)
      Actor.changeNode r.target (·.attachIn e)
      Actor.changeNode s.source (·.attachOut g)
      Actor.changeNode s.target (·.attachIn g)
      k) d Q E := by
  refine hP.attach h (fun p => ?_) e fun d₁ h₁ => hP.attach h₁ (fun p => ?_) g
    fun d₂ h₂ => hk d₂ (View.attach_attach_put_put ▸ h₂)
  · obtain ⟨a, u, ha⟩ := hends p
    exact ⟨a, u, ha.put_edge.put_edge⟩
  · obtain ⟨a, u, ha⟩ := hends p.flip
    rw [hmir]
    exact ⟨_, _, (View.nodeIn_mapNode View.attach_node).2 ⟨a, u, ha.put_edge.put_edge, rfl, rfl⟩⟩

end Halves

end Tracks

end Desk

end Wayfarer
