import Wayfarer.Proofs.View.Graph

/-!
# Removing from a view

What removing edges and nodes does to a consistent view. The view without some
objects (`View.without`) has the same objects otherwise, and no node lists an
edge that went. While nodes are removed one after another, those that are still
to go keep their lists (`View.pruned`).

* `Desk.Reached.removeEdge` takes one edge away, `Desk.Reached.removeNode` a
  dead node with its edges, `Desk.Reached.removeNodes` all dead nodes.
-/

namespace Wayfarer

/-- The node without the edges among some objects. -/
def NodeRecord.without (r : NodeRecord) (gone : List ObjectId) : NodeRecord :=
  { r with
    outgoing := r.outgoing.filter fun e => ObjectId.edge e ∉ gone,
    incoming := r.incoming.filter fun e => ObjectId.edge e ∉ gone }

namespace View

/-- The view without some objects. Nodes that stay do not list the edges that
went. -/
def without (v : View) (gone : List ObjectId) : View := fun id =>
  if id ∈ gone then none else (v id).map (·.mapNode (·.without gone))

/-- The view without some objects, in which dead nodes list what they listed
before. -/
def pruned (v : View) (dead : OrdSet NodeId) (gone : List ObjectId) : View := fun id =>
  if id ∈ gone then none
  else if id.node?.any dead.contains then v id
  else (v id).map (·.mapNode (·.without gone))

/-- The view after an edge was taken off one of its ends, unless that is
dead. -/
def release (v : View) (e : EdgeId) (dead : OrdSet NodeId) (m : NodeId) : View :=
  if dead.contains m then v else v.modify (.node m) (·.mapNode (·.detach e))

end View

/-! ## Records -/

namespace NodeRecord

theorem mem_incident {r : NodeRecord} {e : EdgeId} :
    e ∈ (OrdSet.ofList (r.outgoing ++ r.incoming)).keys ↔ ∃ p, e ∈ r.edgesAt p := by
  rw [Table.mem_keys_iff_contains, OrdSet.contains_ofList, List.mem_append]
  constructor
  · rintro (he | he)
    · exact ⟨.out, he⟩
    · exact ⟨.into, he⟩
  · rintro ⟨p, he⟩
    cases p with
    | out => exact .inl he
    | into => exact .inr he

theorem edgesAt_detach (r : NodeRecord) (e : EdgeId) (p : Port) :
    (r.detach e).edgesAt p = (r.edgesAt p).filter (fun x => x ≠ e) := by
  cases p <;> rfl

theorem edgesAt_without (r : NodeRecord) (gone : List ObjectId) (p : Port) :
    (r.without gone).edgesAt p = (r.edgesAt p).filter fun e => ObjectId.edge e ∉ gone := by
  cases p <;> rfl

/-- Records with the same type, fields and lists are the same. -/
theorem ext_edgesAt {r s : NodeRecord} (ht : r.type = s.type) (hf : r.fields = s.fields)
    (hl : ∀ p, r.edgesAt p = s.edgesAt p) : r = s := by
  have hout := hl .out
  have hin := hl .into
  cases r
  cases s
  simp_all [edgesAt]

theorem without_nil (r : NodeRecord) : r.without [] = r :=
  ext_edgesAt rfl rfl fun p => by rw [edgesAt_without]; simp

theorem without_congr {gone gone' : List ObjectId} (h : ∀ id, id ∈ gone ↔ id ∈ gone')
    (r : NodeRecord) : r.without gone = r.without gone' := by
  simp only [without, h]

theorem without_append_edge (r : NodeRecord) (gone : List ObjectId) (e : EdgeId) :
    r.without (gone ++ [.edge e]) = (r.without gone).detach e := by
  refine ext_edgesAt rfl rfl fun p => ?_
  rw [edgesAt_detach, edgesAt_without, edgesAt_without, List.filter_filter]
  refine List.filter_congr fun x _ => ?_
  simp [and_comm]

theorem without_append_node (r : NodeRecord) (gone : List ObjectId) (m : NodeId) :
    r.without (gone ++ [.node m]) = r.without gone := by
  refine ext_edgesAt rfl rfl fun p => ?_
  rw [edgesAt_without, edgesAt_without]
  refine List.filter_congr fun x _ => ?_
  simp

theorem detach_detach (r : NodeRecord) (e : EdgeId) : (r.detach e).detach e = r.detach e := by
  refine ext_edgesAt rfl rfl fun p => ?_
  rw [edgesAt_detach, edgesAt_detach, List.filter_filter]
  simp

theorem detach_of_not_mem {r : NodeRecord} {e : EdgeId} (h : ∀ p, e ∉ r.edgesAt p) :
    r.detach e = r := by
  refine ext_edgesAt rfl rfl fun p => ?_
  rw [edgesAt_detach, List.filter_eq_self]
  intro x hx
  rw [decide_eq_true_eq]
  rintro rfl
  exact h p hx

end NodeRecord

namespace Anchor

theorem mapNode_mapNode (a : Anchor) (f g : NodeRecord → NodeRecord) :
    (a.mapNode f).mapNode g = a.mapNode (g ∘ f) := by
  cases hb : a.body <;> simp [mapNode, hb]

theorem mapNode_of_edge? {a : Anchor} {r : EdgeRecord} (h : a.edge? = some r)
    (f : NodeRecord → NodeRecord) : a.mapNode f = a := by
  cases hb : a.body with
  | node s => simp [edge?, hb] at h
  | edge s => simp [mapNode, hb]

theorem mapNode_congr {a : Anchor} {r : NodeRecord} {f g : NodeRecord → NodeRecord}
    (h : a.node? = some r) (hfg : f r = g r) : a.mapNode f = a.mapNode g := by
  cases hb : a.body with
  | node s =>
    simp only [node?, hb, Option.some.injEq] at h
    simp [mapNode, hb, h, hfg]
  | edge s => simp [mapNode, hb]

theorem mapNode_id_eq (a : Anchor) : a.mapNode (fun r => r) = a := by
  unfold mapNode
  split
  · rename_i hb
    rw [← hb]
  · rfl

end Anchor

/-! ## Changed nodes -/

namespace View

theorem modify_node {v : View} {f : NodeRecord → NodeRecord} {m n : NodeId} :
    v.modify (.node m) (·.mapNode f) (.node n) =
      (v (.node n)).map (·.mapNode fun r => if m = n then f r else r) := by
  unfold modify
  by_cases h : m = n
  · simp [h]
  · rw [if_neg fun hh => h (ObjectId.node.inj hh).symm]
    cases v (.node n) <;> simp [h, Anchor.mapNode_id_eq]

/-- The nodes of a view whose node records were changed. -/
theorem nodeIn_mapNode {v v' : View} {f : NodeRecord → NodeRecord} {n : NodeId} {b : Anchor}
    {s : NodeRecord} (h : v' (.node n) = (v (.node n)).map (·.mapNode f)) :
    NodeIn v' n b s ↔ ∃ a r, NodeIn v n a r ∧ b = a.mapNode f ∧ s = f r := by
  constructor
  · rintro ⟨hb, hs⟩
    obtain ⟨a, ha, rfl⟩ := Option.map_eq_some_iff.1 (h.symm.trans hb)
    cases hr : a.node? with
    | none => cases hbody : a.body <;> simp [Anchor.node?, Anchor.mapNode, hbody] at hr hs
    | some r =>
      refine ⟨a, r, ⟨ha, hr⟩, rfl, ?_⟩
      rw [Anchor.mapNode_node? hr] at hs
      exact (Option.some.inj hs).symm
  · rintro ⟨a, r, ha, rfl, rfl⟩
    exact ⟨h.trans (congrArg (Option.map _) ha.1), Anchor.mapNode_node? ha.2 _⟩

end View

/-! ## One edge less -/

namespace View

variable {v : View} {dead : OrdSet NodeId} {gone : List ObjectId} {e x : EdgeId} {m n : NodeId}

theorem pruned_of_mem {id : ObjectId} (h : id ∈ gone) : v.pruned dead gone id = none := if_pos h

theorem pruned_dead (h : ObjectId.node m ∉ gone) (hm : dead.contains m = true) :
    v.pruned dead gone (.node m) = v (.node m) := by
  unfold pruned
  rw [if_neg h, if_pos]
  exact hm

theorem pruned_live (h : ObjectId.node m ∉ gone) (hm : ¬ dead.contains m = true) :
    v.pruned dead gone (.node m) = (v (.node m)).map (·.mapNode (·.without gone)) := by
  unfold pruned
  rw [if_neg h, if_neg]
  exact hm

/-- Edges that have not gone are as they were. -/
theorem Consistent.pruned_edge (hc : v.Consistent) (h : ObjectId.edge e ∉ gone) :
    v.pruned dead gone (.edge e) = v (.edge e) := by
  unfold pruned
  rw [if_neg h, if_neg (by simp [ObjectId.node?])]
  cases ha : v (.edge e) with
  | none => rfl
  | some a =>
    obtain ⟨r, hr⟩ := hc.edges ha
    exact congrArg some (Anchor.mapNode_of_edge? hr _)

theorem without_nil (v : View) : v.without [] = v := by
  funext id
  unfold without
  rw [if_neg (by simp)]
  cases v id with
  | none => rfl
  | some a => simp only [NodeRecord.without_nil, Option.map_some, Anchor.mapNode_id_eq]

theorem without_congr {gone' : List ObjectId} (h : ∀ id, id ∈ gone ↔ id ∈ gone') :
    v.without gone = v.without gone' := by
  funext id
  simp only [without, h, NodeRecord.without_congr h]

theorem pruned_nil (v : View) (dead : OrdSet NodeId) : v.pruned dead [] = v := by
  funext id
  have hnil := congrFun v.without_nil id
  unfold without at hnil
  unfold pruned
  rw [if_neg (by simp)] at hnil ⊢
  split
  · rfl
  · exact hnil

/-- Of what has gone only the objects that were there count. -/
theorem Consistent.pruned_congr (hc : v.Consistent) {gone' : List ObjectId}
    (h : ∀ id a, v id = some a → (id ∈ gone ↔ id ∈ gone')) :
    v.pruned dead gone = v.pruned dead gone' := by
  funext id
  unfold pruned
  cases ha : v id with
  | none => simp
  | some a =>
    have hid := h id a ha
    by_cases hgone : id ∈ gone
    · rw [if_pos hgone, if_pos (hid.1 hgone)]
    rw [if_neg hgone, if_neg fun hh => hgone (hid.2 hh)]
    split
    · rfl
    · refine congrArg some ?_
      cases id with
      | edge e =>
        obtain ⟨r, hr⟩ := hc.edges ha
        exact (Anchor.mapNode_of_edge? hr _).trans (Anchor.mapNode_of_edge? hr _).symm
      | node m =>
        obtain ⟨r, hr⟩ := hc.nodes ha
        refine Anchor.mapNode_congr hr (NodeRecord.ext_edgesAt rfl rfl fun p => ?_)
        rw [NodeRecord.edgesAt_without, NodeRecord.edgesAt_without]
        refine List.filter_congr fun e he => ?_
        obtain ⟨b, s, hb, _⟩ := hc.listed ⟨ha, hr⟩ he
        rw [decide_eq_decide, h _ b hb.1]

theorem pruned_erase_node :
    (v.pruned dead gone).erase (.node m) = v.pruned dead (gone ++ [.node m]) := by
  funext id
  unfold erase
  split
  · rename_i hid
    subst hid
    rw [pruned_of_mem (by simp)]
  · rename_i hid
    unfold pruned
    simp only [List.mem_append, List.mem_singleton, hid, or_false, NodeRecord.without_append_node]

/-- When all dead nodes have gone, nobody lists what has gone. -/
theorem pruned_eq_without (h : ∀ m, dead.contains m = true → ObjectId.node m ∈ gone) :
    v.pruned dead gone = v.without gone := by
  funext id
  unfold pruned without
  by_cases hid : id ∈ gone
  · rw [if_pos hid, if_pos hid]
  · rw [if_neg hid, if_neg hid, if_neg]
    intro hdead
    cases id with
    | node m => exact hid (h m hdead)
    | edge e => simp [ObjectId.node?] at hdead

theorem pruned_empty : v.pruned Table.empty gone = v.without gone :=
  pruned_eq_without (by simp [Table.contains])

theorem without_erase_node :
    (v.without gone).erase (.node m) = v.without (gone ++ [.node m]) := by
  rw [← pruned_empty, ← pruned_empty]
  exact pruned_erase_node

theorem release_edge : v.release e dead m (.edge x) = v (.edge x) := by
  unfold release modify
  split <;> simp

theorem release_node : v.release e dead m (.node n) =
    if n = m ∧ ¬ dead.contains m = true then (v (.node n)).map (·.mapNode (·.detach e))
    else v (.node n) := by
  unfold release modify
  by_cases hdead : dead.contains m = true
  · simp [hdead]
  · by_cases hn : n = m
    · simp [hdead, hn]
    · simp [hdead, hn]

/-- An edge that is taken off two nodes is off both of them, unless they are
dead. They may be the same. -/
theorem release_release_node {k : NodeId} : ((v.release e dead m).release e dead n) (.node k) =
    if (k = m ∨ k = n) ∧ ¬ dead.contains k = true then (v (.node k)).map (·.mapNode (·.detach e))
    else v (.node k) := by
  rw [release_node, release_node]
  by_cases hdead : dead.contains k = true
  · rw [if_neg fun h => h.2 (h.1 ▸ hdead), if_neg fun h => h.2 (h.1 ▸ hdead),
      if_neg fun h => h.2 hdead]
  by_cases hm : k = m
  · subst hm
    by_cases hn : k = n
    · subst hn
      simp [hdead, Function.comp_def, Anchor.mapNode_mapNode, NodeRecord.detach_detach]
    · simp [hdead, hn]
  · by_cases hn : k = n
    · subst hn
      simp [hdead, hm]
    · simp [hm, hn]

/-- A node that is no end of an edge does not list it. -/
theorem Consistent.detach_without (hc : v.Consistent) {a b : Anchor} {r : EdgeRecord}
    {s : NodeRecord} (ha : EdgeIn v e a r) (hb : NodeIn v n b s) (hends : ∀ p, r.endAt p ≠ n) :
    (s.without gone).detach e = s.without gone := by
  refine NodeRecord.detach_of_not_mem fun p hin => ?_
  rw [NodeRecord.edgesAt_without, List.mem_filter] at hin
  obtain ⟨a', r', ha', hend⟩ := hc.listed hb hin.1
  obtain ⟨_, rfl⟩ := ha.unique ha'
  exact hends p hend

/-- An edge that was taken off its ends and removed is out of the view. -/
theorem Consistent.release_erase (hc : v.Consistent) {a : Anchor} {r : EdgeRecord}
    (ha : EdgeIn v e a r) :
    (((v.pruned dead gone).release e dead r.source).release e dead r.target).erase (.edge e) =
      v.pruned dead (gone ++ [.edge e]) := by
  funext id
  cases id with
  | edge x =>
    unfold erase
    by_cases hx : x = e
    · subst hx
      rw [if_pos rfl, pruned_of_mem (by simp)]
    rw [if_neg (by simpa using hx), release_edge, release_edge]
    by_cases hgone : ObjectId.edge x ∈ gone
    · rw [pruned_of_mem hgone, pruned_of_mem (List.mem_append_left _ hgone)]
    · rw [hc.pruned_edge hgone, hc.pruned_edge (by simp [hgone, hx])]
  | node k =>
    unfold erase
    rw [if_neg (by simp), release_release_node]
    by_cases hgone : ObjectId.node k ∈ gone
    · rw [pruned_of_mem hgone, pruned_of_mem (List.mem_append_left _ hgone)]
      simp
    have hgone' : ObjectId.node k ∉ gone ++ [.edge e] := by simp [hgone]
    by_cases hdead : dead.contains k = true
    · rw [pruned_dead hgone hdead, pruned_dead hgone' hdead, if_neg fun hh => hh.2 hdead]
    rw [pruned_live hgone hdead, pruned_live hgone' hdead]
    simp only [NodeRecord.without_append_edge]
    by_cases hend : k = r.source ∨ k = r.target
    · rw [if_pos ⟨hend, hdead⟩, Option.map_map]
      simp only [Function.comp_def, Anchor.mapNode_mapNode]
    · rw [if_neg fun hh => hend hh.1]
      cases hb : v (.node k) with
      | none => rfl
      | some b =>
        obtain ⟨s, hs⟩ := hc.nodes hb
        refine congrArg some (Anchor.mapNode_congr hs (hc.detach_without ha ⟨hb, hs⟩ ?_).symm)
        rintro (_ | _) rfl
        · exact hend (.inl rfl)
        · exact hend (.inr rfl)

end View

/-! ## The work -/

variable {σ : Type} [Durable σ] {t : Tier σ} {d₀ d : Desk σ} {n : Nat} {v : View}
  {dead : OrdSet NodeId} {gone : List ObjectId} {m : NodeId} {rest : List NodeId} {a : Anchor}
  {r : NodeRecord}

theorem Actor.unlink_eq (e : EdgeId) : Actor.unlink (σ := σ) e = (do
    let _ ← Reclaim.removeEdge Table.empty e) := by
  unfold Actor.unlink Reclaim.removeEdge Reclaim.release Actor.detachAt
  rw [bind_assoc]
  congr 1
  funext found
  cases found with
  | none => rfl
  | some r => simp [Table.contains]

/-- The twin of an edge, as it is seen. -/
theorem Desk.Fetched.twinOf (h : Fetched t d₀ d) (e : EdgeId) :
    Work.Ends (Actor.twinOf e) d
      (fun twin d' => twin = ((d₀.view t (.edge e)).bind Anchor.edge?).bind (·.twin) ∧
        Fetched t d₀ d') fun _ _ => False := by
  refine .tryCatch ((h.loadEdge e).surely.andThen ?_)
  rintro _ d₁ ⟨rfl, h₁⟩
  exact .pure ⟨rfl, h₁⟩

/-- The edges to be removed with a node are those that it lists: their twins are
among them. -/
theorem Desk.Fetched.doomed (h : Fetched t d₀ d) (hc : (d₀.view t).Consistent)
    (hm : (d₀.view t).Mirrored) (ha : NodeIn (d₀.view t) m a r) :
    Work.Ends (Actor.doomed r) d (fun edges d' => Fetched t d₀ d' ∧
      ∀ e, e ∈ edges.keys ↔ ∃ p, e ∈ r.edgesAt p) fun _ _ => False := by
  refine (Work.Ends.foldlM_gather (K := fun _ => Fetched t d₀) (fun e k => k = e ∨
    ((d₀.view t (.edge e)).bind Anchor.edge?).bind (·.twin) = some k) h ?_).imp ?_
  · intro e set d₁ h₁
    refine (h₁.twinOf e).andThen ?_
    rintro _ d₂ ⟨rfl, h₂⟩
    refine .pure ⟨h₂, fun k => ?_⟩
    rw [OrdSet.contains_addAll, OrdSet.contains_add, Option.mem_toList]
    tauto
  · rintro edges d₁ ⟨h₁, hedges⟩
    refine ⟨h₁, fun e => ?_⟩
    have hlists : ∀ x, x ∈ r.outgoing ++ r.incoming ↔ ∃ p, x ∈ r.edgesAt p := fun x => by
      rw [← NodeRecord.mem_incident, Table.mem_keys_iff_contains, OrdSet.contains_ofList]
    rw [Table.mem_keys_iff_contains, hedges, ← hlists]
    constructor
    · rintro (hempty | ⟨x, hx, rfl | htwin⟩)
      · simp [Table.contains] at hempty
      · exact hx
      · obtain ⟨p, hin⟩ := (hlists x).1 hx
        obtain ⟨b, s, hb, _⟩ := hc.listed ha hin
        rw [hb.1, Option.bind_some, hb.2, Option.bind_some] at htwin
        exact (hlists e).2 ⟨p.flip, hc.lists_twin hm ha hin hb htwin⟩
    · exact fun he => .inr ⟨e, he, .inl rfl⟩

namespace Desk.Reached

theorem release (h : Reached t d₀ n v d) (e : EdgeId) (m : NodeId) :
    Work.Ends (Reclaim.release e dead m) d (fun _ d' => Reached t d₀ n (v.release e dead m) d')
      fun _ _ => False := by
  unfold Reclaim.release View.release
  split
  · exact .pure h
  · exact (h.update? _ (.mapNode _)).andThen fun _ _ hu => .pure hu.2

/-- Taking an edge away. The answer tells whether it was still there. -/
theorem removeEdge (hc : v.Consistent) (h : Reached t d₀ n (v.pruned dead gone) d) (e : EdgeId) :
    Work.Ends (Reclaim.removeEdge dead e) d (fun was d' =>
      (was = true ↔ ObjectId.edge e ∉ gone ∧ ∃ a r, EdgeIn v e a r) ∧
        Reached t d₀ n (v.pruned dead (gone ++ [.edge e])) d') fun _ _ => False := by
  refine (h.loadEdge e).andThen ?_
  rintro found d₁ ⟨hfound, h₁⟩
  cases found with
  | none =>
    -- an edge that is not found has gone before, or was never there
    have hnot : ¬ (ObjectId.edge e ∉ gone ∧ ∃ a r, EdgeIn v e a r) := by
      rintro ⟨hgone, a, r, ha⟩
      rw [hc.pruned_edge hgone, ha.1, Option.bind_some, ha.2] at hfound
      cases hfound
    refine .pure ⟨iff_of_false Bool.false_ne_true hnot, ?_⟩
    rw [← hc.pruned_congr fun id a (ha : v id = some a) => (?_ : id ∈ gone ↔ _)]
    · exact h₁
    rw [List.mem_append, List.mem_singleton]
    refine ⟨.inl, fun hid => hid.elim (fun hid => hid) ?_⟩
    rintro rfl
    obtain ⟨r, hr⟩ := hc.edges ha
    exact Classical.byContradiction fun hgone => hnot ⟨hgone, a, r, ha, hr⟩
  | some r =>
    obtain ⟨a, ha, hr⟩ := Option.bind_eq_some_iff.1 hfound.symm
    have hgone : ObjectId.edge e ∉ gone := by
      intro hgone
      rw [View.pruned_of_mem hgone] at ha
      cases ha
    rw [hc.pruned_edge hgone] at ha
    refine (h₁.release e r.source).andThen ?_
    intro _ d₂ h₂
    refine (h₂.release e r.target).andThen ?_
    intro _ d₃ h₃
    refine (h₃.delete (.edge e)).andThen ?_
    intro _ d₄ h₄
    rw [hc.release_erase ⟨ha, hr⟩] at h₄
    exact .pure ⟨iff_of_true rfl ⟨hgone, a, r, ha, hr⟩, h₄⟩

/-- Taking an edge away when no node is about to go. -/
theorem unlink (hc : v.Consistent) (h : Reached t d₀ n (v.without gone) d) (e : EdgeId) :
    Work.Ends (Actor.unlink e) d (fun _ d' => Reached t d₀ n (v.without (gone ++ [.edge e])) d')
      fun _ _ => False := by
  rw [Actor.unlink_eq, ← View.pruned_empty]
  rw [← View.pruned_empty] at h
  exact (h.removeEdge hc e).andThen fun _ _ hr => .pure hr.2

/-- Taking several edges away. -/
theorem unlinks (hc : v.Consistent) (edges : List EdgeId) (h : Reached t d₀ n v d) :
    Work.Ends (edges.forM Actor.unlink) d (fun _ d' =>
      Reached t d₀ n (v.without (edges.map .edge)) d') fun _ _ => False := by
  have hstart : ∃ done, edges = done ++ edges ∧
      Reached t d₀ n (v.without (done.map .edge)) d :=
        ⟨[], rfl, by rwa [List.map_nil, View.without_nil]⟩
  refine (Work.Ends.forM (J := fun rest d' => ∃ done, edges = done ++ rest ∧
    Reached t d₀ n (v.without (done.map .edge)) d') hstart ?_).imp ?_
  · rintro e rest d₁ ⟨done, hdone, h₁⟩
    refine (h₁.unlink hc e).imp fun _ d₂ h₂ => ⟨done ++ [e], by simp [hdone], ?_⟩
    rw [List.map_append]
    exact h₂
  · rintro _ d₁ ⟨done, hdone, h₁⟩
    rw [hdone, List.append_nil]
    exact h₁

end Desk.Reached

/-! ## Dead nodes -/

/-- Dead nodes have gone, except for `rest`, and with them the edges at their
ends. -/
structure View.Removed (v : View) (dead : OrdSet NodeId) (rest : List NodeId)
    (gone : List ObjectId) : Prop where
  nodup : gone.Nodup
  nodes : ∀ m, ObjectId.node m ∈ gone ↔ dead.contains m = true ∧ m ∉ rest
  edges : ∀ e, ObjectId.edge e ∈ gone ↔
    ∃ a r p, EdgeIn v e a r ∧ dead.contains (r.endAt p) = true ∧ r.endAt p ∉ rest

/-- A dead node goes after the edges at it that have not gone before. -/
theorem View.Removed.node (hr : v.Removed dead (m :: rest) gone) (hc : v.Consistent)
    (ha : NodeIn v m a r) (hm : dead.contains m = true) (hnodup : (m :: rest).Nodup)
    {removed : List EdgeId} (hkeys : removed.Nodup)
    (hremoved : ∀ e, e ∈ removed ↔ (∃ p, e ∈ r.edgesAt p) ∧ ObjectId.edge e ∉ gone) :
    v.Removed dead rest (gone ++ (removed.map .edge ++ [.node m])) := by
  have hrest := (List.nodup_cons.1 hnodup).1
  refine ⟨?_, fun k => ?_, fun e => ?_⟩
  · have hmap : (removed.map ObjectId.edge).Nodup :=
      List.pairwise_map.2 (hkeys.imp fun hne hh => hne (ObjectId.edge.inj hh))
    have hhere : ObjectId.node m ∉ gone := fun hgone =>
      ((hr.nodes m).1 hgone).2 (List.mem_cons_self ..)
    refine List.nodup_append.2 ⟨hr.nodup, List.nodup_append.2 ⟨hmap, by simp, by simp⟩, ?_⟩
    rintro id hid x hx rfl
    rcases List.mem_append.1 hx with hx | hx
    · obtain ⟨e, he, rfl⟩ := List.mem_map.1 hx
      exact ((hremoved e).1 he).2 hid
    · exact hhere (List.mem_singleton.1 hx ▸ hid)
  · have hsplit : ObjectId.node k ∈ gone ++ (removed.map .edge ++ [.node m]) ↔
        ObjectId.node k ∈ gone ∨ k = m := by simp
    rw [hsplit, hr.nodes, List.mem_cons, not_or]
    constructor
    · rintro (⟨hk, _, hkr⟩ | rfl)
      · exact ⟨hk, hkr⟩
      · exact ⟨hm, hrest⟩
    · rintro ⟨hk, hkr⟩
      exact (Classical.em (k = m)).symm.imp_left fun hne => ⟨hk, hne, hkr⟩
  · have hsplit : ObjectId.edge e ∈ gone ++ (removed.map .edge ++ [.node m]) ↔
        ObjectId.edge e ∈ gone ∨ ∃ p, e ∈ r.edgesAt p := by
      simp only [List.mem_append, List.mem_map, List.mem_singleton, reduceCtorEq, or_false,
        ObjectId.edge.injEq, exists_eq_right, hremoved]
      exact ⟨fun hh => hh.imp_right And.left, fun hh => hh.elim .inl fun hp =>
        (Classical.em _).imp_right fun hgone => ⟨hp, hgone⟩⟩
    -- an edge between the node and one that is still to go is counted once
    rw [hsplit, hr.edges]
    simp only [hc.listed_iff ha, List.mem_cons, not_or]
    constructor
    · rintro (⟨b, s, p, hb, hd, _, hend⟩ | ⟨p, b, s, hb, rfl⟩)
      · exact ⟨b, s, p, hb, hd, hend⟩
      · exact ⟨b, s, p, hb, hm, hrest⟩
    · rintro ⟨b, s, p, hb, hd, hend⟩
      by_cases hk : s.endAt p = m
      · exact .inr ⟨p, b, s, hb, hk⟩
      · exact .inl ⟨b, s, p, hb, hd, hk, hend⟩

namespace Desk.Reached

/-- Several edges go, each of which was there once; those that had not gone
before are the answer. -/
theorem removeEdges (hc : v.Consistent) {edges : List EdgeId} (hnodup : edges.Nodup)
    (hseen : ∀ e ∈ edges, ∃ a r, EdgeIn v e a r) (h : Reached t d₀ n (v.pruned dead gone) d) :
    Work.Ends (edges.filterM (Reclaim.removeEdge dead)) d (fun removed d' =>
      removed = edges.filter (fun e => ObjectId.edge e ∉ gone) ∧
        Reached t d₀ n (v.pruned dead (gone ++ removed.map .edge)) d') fun _ _ => False := by
  have hstart : ∃ done, edges = done ++ edges ∧ [] = done.filter (fun e => ObjectId.edge e ∉ gone) ∧
      Reached t d₀ n (v.pruned dead (gone ++ done.map .edge)) d := ⟨[], rfl, rfl, by simpa using h⟩
  refine (Work.Ends.filterM_acc (K := fun rest acc d' => ∃ done, edges = done ++ rest ∧
    acc = done.filter (fun e => ObjectId.edge e ∉ gone) ∧
    Reached t d₀ n (v.pruned dead (gone ++ done.map .edge)) d') hstart ?_).imp ?_
  · rintro e rest acc d₁ ⟨done, hdone, hacc, h₁⟩
    refine (h₁.removeEdge hc e).imp ?_
    rintro was d₂ ⟨hwas, h₂⟩
    refine ⟨done ++ [e], by simp [hdone], ?_, by simpa using h₂⟩
    have hfresh : e ∉ done := by
      rw [hdone] at hnodup
      exact fun hd => (List.nodup_append.1 hnodup).2.2 e hd e (List.mem_cons_self ..) rfl
    have hthere : ∃ b s, EdgeIn v e b s := hseen e (by rw [hdone]; simp)
    have hwas' : was = true ↔ ObjectId.edge e ∉ gone := by
      rw [hwas, and_iff_left hthere]
      simp [hfresh]
    rw [List.filter_append, ← hacc]
    by_cases hgone : ObjectId.edge e ∈ gone
    · simp [Bool.eq_false_iff.2 fun hw => hwas'.1 hw hgone, hgone]
    · simp [hwas'.2 hgone, hgone]
  · rintro removed d₁ ⟨done, hdone, hremoved, h₁⟩
    rw [List.append_nil] at hdone
    subst hdone
    refine ⟨hremoved, ?_⟩
    rwa [← hc.pruned_congr fun id _ _ => (?_ : id ∈ gone ++ edges.map .edge ↔ _)]
    rw [hremoved]
    simp only [List.mem_append, List.mem_map, List.mem_filter, decide_eq_true_eq]
    constructor
    · rintro (hid | ⟨e, he, rfl⟩)
      · exact .inl hid
      · exact (Classical.em _).imp_right fun hgone => ⟨e, ⟨he, hgone⟩, rfl⟩
    · rintro (hid | ⟨e, he, rfl⟩)
      · exact .inl hid
      · exact .inr ⟨e, he.1, rfl⟩

/-- A dead node goes, and with it the edges at it that have not gone before. -/
theorem removeNode (hc : v.Consistent)
    (hm : dead.contains m = true) (hseen : ∃ a r, NodeIn v m a r) (hnodup : (m :: rest).Nodup)
    (hr : v.Removed dead (m :: rest) gone) (h : Reached t d₀ n (v.pruned dead gone) d) :
    Work.Ends (Reclaim.removeNode dead m) d (fun more d' => v.Removed dead rest (gone ++ more) ∧
      Reached t d₀ n (v.pruned dead (gone ++ more)) d') fun _ _ => False := by
  obtain ⟨a, r, ha⟩ := hseen
  have hhere : ObjectId.node m ∉ gone := fun hgone =>
    ((hr.nodes m).1 hgone).2 (List.mem_cons_self ..)
  refine (h.loadNode m).andThen ?_
  rintro found d₁ ⟨hfound, h₁⟩
  rw [View.pruned_dead hhere hm, ha.1, Option.bind_some, ha.2] at hfound
  subst hfound
  have hkeys : (OrdSet.ofList (r.outgoing ++ r.incoming)).keys.Nodup := Table.nodup_keys _
  have hin : ∀ e ∈ (OrdSet.ofList (r.outgoing ++ r.incoming)).keys, ∃ b s, EdgeIn v e b s := by
    intro e he
    obtain ⟨p, hp⟩ := NodeRecord.mem_incident.1 he
    obtain ⟨b, s, hb, _⟩ := hc.listed ha hp
    exact ⟨b, s, hb⟩
  refine (h₁.removeEdges hc hkeys hin).andThen ?_
  rintro removed d₂ ⟨hremoved, h₂⟩
  refine (h₂.delete (.node m)).andThen ?_
  intro _ d₃ h₃
  rw [View.pruned_erase_node, List.append_assoc] at h₃
  refine .pure ⟨?_, h₃⟩
  refine hr.node hc ha hm hnodup (hremoved ▸ hkeys.filter _) fun e => ?_
  rw [hremoved, List.mem_filter, NodeRecord.mem_incident, decide_eq_true_eq]

/-- All dead nodes go with their edges; the answers list what has gone. -/
theorem removeNodes (hc : v.Consistent)
    (hseen : ∀ m, dead.contains m = true → ∃ a r, NodeIn v m a r)
    (h : Reached t d₀ n v d) :
    Work.Ends (dead.keys.mapM (Reclaim.removeNode dead)) d (fun answers d' =>
      v.Removed dead [] answers.flatten ∧ Reached t d₀ n (v.without answers.flatten) d')
      fun _ _ => False := by
  have hstart : (dead.keys.Nodup ∧ ∀ m ∈ dead.keys, dead.contains m = true) ∧
      v.Removed dead dead.keys ([] : List (List ObjectId)).flatten ∧
      Reached t d₀ n (v.pruned dead ([] : List (List ObjectId)).flatten) d := by
    refine ⟨⟨Table.nodup_keys _, fun m => Table.mem_keys_iff_contains.1⟩, ⟨.nil, ?_, ?_⟩, ?_⟩
    · simp [Table.mem_keys_iff_contains]
    · simp [Table.mem_keys_iff_contains]
    · rwa [List.flatten_nil, View.pruned_nil]
  refine (Work.Ends.mapM_acc (K := fun rest acc d' =>
    (rest.Nodup ∧ ∀ m ∈ rest, dead.contains m = true) ∧ v.Removed dead rest acc.flatten ∧
    Reached t d₀ n (v.pruned dead acc.flatten) d') hstart ?_).imp ?_
  · rintro m rest acc d₁ ⟨⟨hnodup, hdead⟩, hr, h₁⟩
    have hm := hdead m (List.mem_cons_self ..)
    refine (removeNode hc hm (hseen m hm) hnodup hr h₁).imp ?_
    rintro more d₂ ⟨hr₂, h₂⟩
    rw [List.flatten_append, List.flatten_singleton]
    exact ⟨⟨(List.nodup_cons.1 hnodup).2, fun k hk => hdead k (List.mem_cons_of_mem _ hk)⟩, hr₂, h₂⟩
  · rintro answers d₁ ⟨_, hr, h₁⟩
    refine ⟨hr, ?_⟩
    rw [View.pruned_eq_without fun m hm => (hr.nodes m).2 ⟨hm, List.not_mem_nil⟩] at h₁
    exact h₁

end Desk.Reached

end Wayfarer
