import Wayfarer.Proofs.Confinement

/-!
# Changes and removals

What becomes of an orderly view if fields and access lists change
(`View.Edited`), or if objects leave it together with all that hangs on them
(`View.Separable`).
-/

namespace Wayfarer

namespace View

/-! ## Editing -/

/-- Changes of fields and access lists, and of nothing else, at certain
objects. -/
structure Edited (changed : ObjectId → Prop) (v v' : View) : Prop where
  unseen : ∀ {id}, v id = none → v' id = none
  seen : ∀ {id a}, v id = some a → ∃ b, v' id = some b ∧ a.Persists b ∧
    (∀ {r s}, a.node? = some r → b.node? = some s → ∀ p, s.edgesAt p = r.edgesAt p) ∧
    (¬ changed id → b.fields = a.fields ∧ b.access = a.access)

end View

/-- A change of an object that concerns its fields or its access list alone.
What becomes of the access list depends on nothing else. -/
structure Anchor.Cosmetic (change : Anchor → Anchor) : Prop extends Anchor.Mild change where
  persists : ∀ a : Anchor, a.Persists (change a)
  lists : ∀ {a : Anchor} {r s}, a.node? = some r → (change a).node? = some s →
    ∀ p, s.edgesAt p = r.edgesAt p
  access : ∀ {a b : Anchor}, a.access = b.access → (change a).access = (change b).access

theorem Anchor.Cosmetic.setAccess (f : Access → Access) :
    Anchor.Cosmetic fun a => { a with access := f a.access } := by
  refine ⟨⟨fun _ => rfl, fun _ => rfl, fun _ => rfl⟩,
    fun a => ⟨rfl, rfl, rfl, fun {r} hr => ⟨r, hr⟩,
    fun {r} hr => ⟨r, hr, rfl, rfl, rfl, rfl⟩⟩, fun {a r s} hr hs p => ?_, fun h => congrArg f h⟩
  have hsame : s = r := Option.some.inj (hs.symm.trans hr)
  rw [hsame]

theorem Anchor.Cosmetic.setField (field : String) (value : Value) :
    Anchor.Cosmetic fun a => a.withFields (a.fields.set field value) := by
  have hbody : ∀ a : Anchor, (a.withFields (a.fields.set field value)).access = a.access := by
    intro a
    cases hb : a.body <;> simp [Anchor.withFields, hb]
  refine ⟨⟨fun a => ?_, fun a => ?_, fun a => ?_⟩, fun a => ⟨?_, ?_, ?_, fun {r} hr => ?_,
    fun {r} hr => ?_⟩, fun {a r s} hr hs p => ?_, fun h => (hbody _).trans (h.trans (hbody _).symm)⟩
  all_goals cases hb : a.body <;>
    simp_all [Anchor.withFields, Anchor.clean, Anchor.fields, Anchor.type, Anchor.node?,
      Anchor.edge?]
  subst hs hr
  cases p <;> rfl

namespace View

section Edited

variable {v v' v'' : View} {root : RootId} {changed : ObjectId → Prop}

theorem Edited.trans (h : v.Edited changed v') (h' : v'.Edited changed v'') :
    v.Edited changed v'' := by
  refine ⟨fun hn => h'.unseen (h.unseen hn), fun ha => ?_⟩
  obtain ⟨b, hb, hp, hl, hf⟩ := h.seen ha
  obtain ⟨c, hc, hp', hl', hf'⟩ := h'.seen hb
  refine ⟨c, hc, hp.trans hp', fun hr hu p => ?_, fun hn => ?_⟩
  · obtain ⟨s, hs⟩ := hp.node hr
    rw [hl' hs hu p, hl hr hs p]
  · exact ⟨(hf' hn).1.trans (hf hn).1, (hf' hn).2.trans (hf hn).2⟩

theorem Edited.modify {change : Anchor → Anchor} (hc : Anchor.Cosmetic change) {id : ObjectId}
    (hid : changed id) : v.Edited changed (v.modify id change) := by
  refine ⟨fun hn => ?_, fun {j a} ha => ?_⟩
  · unfold View.modify
    rw [hn]
    split <;> rfl
  · unfold View.modify
    rw [ha]
    split
    · rename_i hj
      exact ⟨_, rfl, hc.persists a, hc.lists, fun hn => absurd (hj ▸ hid) hn⟩
    · refine ⟨a, rfl, .refl a, fun {r s} hr hs p => ?_, fun _ => ⟨rfl, rfl⟩⟩
      rw [Option.some.inj (hs.symm.trans hr)]

theorem Edited.confined (h : v.Edited changed v')
    (hc : ∀ {id a}, changed id → v id = some a → a.effective root = some .write) :
    v.Confined root v' := by
  have hgone : ∀ {id a}, v id = some a → v' id ≠ none := by
    intro id a ha hn
    obtain ⟨b, hb, _⟩ := h.seen ha
    cases hb.symm.trans hn
  refine ⟨fun ha hb => ?_, fun {id a b} ha hb hne => ?_, fun ha hn => (hgone ha hn).elim,
    fun ha hn => (hgone ha.1 hn).elim, fun ha hb hne => ?_, fun hn hb => ?_⟩
  · obtain ⟨c, hc', hp, _⟩ := h.seen ha
    cases hb.symm.trans hc'
    exact hp
  · refine hc (Classical.byContradiction fun hn => ?_) ha
    obtain ⟨c, hc', _, _, hf⟩ := h.seen ha
    cases hb.symm.trans hc'
    exact hne.elim (fun hh => hh (hf hn).1) fun hh => hh (hf hn).2
  · obtain ⟨c, hc', _, hl, _⟩ := h.seen ha.1
    cases hb.1.symm.trans hc'
    obtain ⟨p, hp⟩ := hne
    exact absurd (hl ha.2 hb.2 p) hp
  · cases (h.unseen hn).symm.trans hb

/-! What is there after the changes was there before, and the other way round.
-/

theorem Edited.back (h : v.Edited changed v') {id : ObjectId} {b : Anchor} (hb : v' id = some b) :
    ∃ a, v id = some a := by
  cases ha : v id with
  | none => cases (h.unseen ha).symm.trans hb
  | some a => exact ⟨a, rfl⟩

theorem Edited.nodeIn (h : v.Edited changed v') {n : NodeId} {a : Anchor} {r : NodeRecord}
    (ha : NodeIn v n a r) : ∃ b s, NodeIn v' n b s ∧ ∀ p, s.edgesAt p = r.edgesAt p := by
  obtain ⟨b, hb, hp, hl, _⟩ := h.seen ha.1
  obtain ⟨s, hs⟩ := hp.node ha.2
  exact ⟨b, s, ⟨hb, hs⟩, hl ha.2 hs⟩

theorem Edited.edgeIn (h : v.Edited changed v') {e : EdgeId} {a : Anchor} {r : EdgeRecord}
    (ha : EdgeIn v e a r) : ∃ b s, EdgeIn v' e b s ∧ s.Alike r ∧ b.owner = a.owner := by
  obtain ⟨b, hb, hp, _⟩ := h.seen ha.1
  obtain ⟨s, hs, _⟩ := hp.edge ha.2
  exact ⟨b, s, ⟨hb, hs⟩, hp.alike ha.2 hs, hp.owner⟩

theorem Edited.of_nodeIn (h : v.Edited changed v') (hv : v.Consistent) {n : NodeId} {b : Anchor}
    {s : NodeRecord} (hb : NodeIn v' n b s) :
    ∃ a r, NodeIn v n a r ∧ ∀ p, s.edgesAt p = r.edgesAt p := by
  obtain ⟨a, ha⟩ := h.back hb.1
  obtain ⟨r, hr⟩ := hv.nodes ha
  obtain ⟨b', s', hb', hl⟩ := h.nodeIn ⟨ha, hr⟩
  obtain ⟨rfl, rfl⟩ := hb.unique hb'
  exact ⟨a, r, ⟨ha, hr⟩, hl⟩

theorem Edited.of_edgeIn (h : v.Edited changed v') (hv : v.Consistent) {e : EdgeId} {b : Anchor}
    {s : EdgeRecord} (hb : EdgeIn v' e b s) :
    ∃ a r, EdgeIn v e a r ∧ s.Alike r ∧ b.owner = a.owner := by
  obtain ⟨a, ha⟩ := h.back hb.1
  obtain ⟨r, hr⟩ := hv.edges ha
  obtain ⟨b', s', hb', hl⟩ := h.edgeIn ⟨ha, hr⟩
  obtain ⟨rfl, rfl⟩ := hb.unique hb'
  exact ⟨a, r, ⟨ha, hr⟩, hl⟩

theorem Edited.consistent (h : v.Edited changed v') (hv : v.Consistent) : v'.Consistent := by
  refine ⟨fun hb => ?_, fun hb => ?_, fun hb p => ?_, fun {n b s p e} hb hin => ?_⟩
  · obtain ⟨a, ha⟩ := h.back hb
    obtain ⟨r, hr⟩ := hv.nodes ha
    obtain ⟨b', s', hb', _⟩ := h.nodeIn ⟨ha, hr⟩
    cases hb.symm.trans hb'.1
    exact ⟨s', hb'.2⟩
  · obtain ⟨a, ha⟩ := h.back hb
    obtain ⟨r, hr⟩ := hv.edges ha
    obtain ⟨b', s', hb', _⟩ := h.edgeIn ⟨ha, hr⟩
    cases hb.symm.trans hb'.1
    exact ⟨s', hb'.2⟩
  · obtain ⟨a, r, ha, hl, _⟩ := h.of_edgeIn hv hb
    obtain ⟨c, u, hc, hin⟩ := hv.ends ha p
    obtain ⟨c', u', hc', hl'⟩ := h.nodeIn hc
    rw [hl.2 p]
    exact ⟨c', u', hc', (hl' p).symm ▸ hin⟩
  · obtain ⟨a, r, ha, hl⟩ := h.of_nodeIn hv hb
    rw [hl p] at hin
    obtain ⟨c, u, hc, hend⟩ := hv.listed ha hin
    obtain ⟨c', u', hc', hl', _⟩ := h.edgeIn hc
    exact ⟨c', u', hc', (hl'.2 p).trans hend⟩

/-- An orderly view stays orderly if twins still have the same access list. -/
theorem Edited.orderly (h : v.Edited changed v') (hv : v.Orderly)
    (htwins : ∀ {e a r t b b'}, EdgeIn v e a r → r.twin = some t → v' (.edge e) = some b →
      v' (.edge t) = some b' → b'.access = b.access) : v'.Orderly := by
  refine ⟨h.consistent hv.toConsistent, fun {e b s t} hb ht => ?_⟩
  obtain ⟨a, r, ha, hl, hown⟩ := h.of_edgeIn hv.toConsistent hb
  have htwin : r.twin = some t := hl.1.symm.trans ht
  obtain ⟨c, u, hc, hmir, hown', _⟩ := hv.twinned ha htwin
  obtain ⟨c', u', hc', hl', hown''⟩ := h.edgeIn hc
  refine ⟨c', u', hc', ⟨hl'.1.trans hmir.1, fun p => ?_⟩, ?_, htwins ha htwin hb.1 hc'.1⟩
  · rw [hl'.2, hmir.2, hl.2]
  · rw [hown'', hown', hown]

theorem modify_self {id : ObjectId} {change : Anchor → Anchor} :
    v.modify id change id = (v id).map change := if_pos rfl

theorem modify_other {id j : ObjectId} {change : Anchor → Anchor} (h : j ≠ id) :
    v.modify id change j = v j := if_neg h

theorem modify_eq_none {id j : ObjectId} {change : Anchor → Anchor} :
    v.modify id change j = none ↔ v j = none := by
  unfold View.modify
  split <;> simp

/-- A tenant may change the fields and the access list of an object that it may
write, if the object has no twin. -/
theorem Orderly.edited (hv : v.Orderly) {change : Anchor → Anchor} (hc : Anchor.Cosmetic change)
    {id : ObjectId} {a : Anchor} (ha : v id = some a) (hw : a.effective root = some .write)
    (htwin : a.edge?.bind (·.twin) = none) :
    (v.modify id change).Orderly ∧ v.Confined root (v.modify id change) := by
  have he : v.Edited (· = id) (v.modify id change) := .modify hc rfl
  refine ⟨he.orderly hv fun {e x r t b b'} hx ht hb hb' => ?_, he.confined ?_⟩
  · obtain ⟨y, s, hy, hmir, _, hacc⟩ := hv.twinned hx ht
    have hne : ∀ {k z u}, EdgeIn v k z u → ObjectId.edge k = id → u.twin = none := by
      rintro k z u hz rfl
      rw [hz.1] at ha
      cases ha
      rwa [hz.2] at htwin
    rw [modify_other (fun hid => by cases (hne hx hid).symm.trans ht), hx.1] at hb
    rw [modify_other (fun hid => by cases (hne hy hid).symm.trans hmir.1), hy.1] at hb'
    cases hb
    cases hb'
    exact hacc
  · rintro j b rfl hb
    rw [ha] at hb
    cases hb
    exact hw

theorem modify_modify_other {id j k : ObjectId} {change : Anchor → Anchor}
    (h : ¬ (k = id ∨ k = j)) :
    (v.modify id change).modify j change k = v k := by
  rw [not_or] at h
  rw [modify_other h.2, modify_other h.1]

theorem modify_modify_self {id j k : ObjectId} {change : Anchor → Anchor} (hne : id ≠ j)
    (h : k = id ∨ k = j) : (v.modify id change).modify j change k = (v k).map change := by
  rcases h with rfl | rfl
  · rw [modify_other hne, modify_self]
  · rw [modify_self, modify_other hne.symm]

/-- The same for both halves of an undirected link. -/
theorem Orderly.editedTwins (hv : v.Orderly) {change : Anchor → Anchor}
    (hc : Anchor.Cosmetic change) {e t : EdgeId} {a : Anchor} {r : EdgeRecord} (ha : EdgeIn v e a r)
    (ht : r.twin = some t) (hw : a.effective root = some .write) :
    ((v.modify (.edge e) change).modify (.edge t) change).Orderly ∧
      v.Confined root ((v.modify (.edge e) change).modify (.edge t) change) := by
  obtain ⟨c, u, hu, hmir, hown, hacc⟩ := hv.twinned ha ht
  have he : v.Edited (fun id => id = .edge e ∨ id = .edge t)
      ((v.modify (.edge e) change).modify (.edge t) change) :=
    (Edited.modify hc (.inl rfl)).trans (.modify hc (.inr rfl))
  -- the twin of a half of the link is the other half
  have hhalf : ∀ {k x s k'}, EdgeIn v k x s → s.twin = some k' → k = e ∨ k = t →
      (k = e ∧ k' = t) ∨ (k = t ∧ k' = e) := by
    rintro k x s k' hx hk (rfl | rfl)
    · obtain ⟨_, rfl⟩ := hx.unique ha
      exact .inl ⟨rfl, Option.some.inj (hk.symm.trans ht)⟩
    · obtain ⟨_, rfl⟩ := hx.unique hu
      exact .inr ⟨rfl, Option.some.inj (hk.symm.trans hmir.1)⟩
  refine ⟨he.orderly hv fun {k x s k' b b'} hx hk hb hb' => ?_, he.confined ?_⟩
  · obtain ⟨y, w, hy, hmir', _, hacc'⟩ := hv.twinned hx hk
    by_cases hsame : k = k'
    · rw [hsame, hb'] at hb
      cases hb
      rfl
    by_cases hke : k = e ∨ k = t
    · have hkk := hhalf hx hk hke
      have hne : e ≠ t := by
        rintro rfl
        exact hsame (hkk.elim (fun h => h.1.trans h.2.symm) fun h => h.1.trans h.2.symm)
      have hke' : k' = e ∨ k' = t := hkk.elim (fun h => .inr h.2) fun h => .inl h.2
      rw [modify_modify_self (by simpa using hne) (by simpa using hke), hx.1] at hb
      rw [modify_modify_self (by simpa using hne) (by simpa using hke'), hy.1] at hb'
      cases hb
      cases hb'
      exact hc.access hacc'
    · -- another link: both its halves are as they were
      have hke' : ¬ (k' = e ∨ k' = t) := fun h => hke <|
        (hhalf hy hmir'.1 h).elim (fun h => .inr h.2) fun h => .inl h.2
      rw [modify_modify_other (by simpa using hke), hx.1] at hb
      rw [modify_modify_other (by simpa using hke'), hy.1] at hb'
      cases hb
      cases hb'
      exact hacc'
  · rintro id b (rfl | rfl) hb
    · rw [ha.1] at hb
      cases hb
      exact hw
    · rw [hu.1] at hb
      cases hb
      unfold Anchor.effective at hw ⊢
      rwa [hown, hacc]

end Edited

/-! ## Removing -/

section Removing

variable {v : View} {root : RootId} {gone : List ObjectId}

theorem without_of_not_mem {id : ObjectId} (h : id ∉ gone) :
    v.without gone id = (v id).map (·.mapNode (·.without gone)) := if_neg h

theorem without_of_mem {id : ObjectId} (h : id ∈ gone) : v.without gone id = none := if_pos h

/-- What is left is what was there and did not go. -/
theorem without_eq_some {id : ObjectId} {b : Anchor} : v.without gone id = some b ↔
    id ∉ gone ∧ ∃ a, v id = some a ∧ b = a.mapNode (·.without gone) := by
  by_cases hid : id ∈ gone
  · rw [without_of_mem hid]
    exact iff_of_false nofun fun h => h.1 hid
  · rw [without_of_not_mem hid, Option.map_eq_some_iff, and_iff_right hid]
    exact exists_congr fun a => and_congr_right fun _ => eq_comm

theorem mem_of_without_eq_none {id : ObjectId} {a : Anchor} (ha : v id = some a)
    (hn : v.without gone id = none) : id ∈ gone := by
  refine Classical.byContradiction fun hid => ?_
  cases hn.symm.trans (without_eq_some.2 ⟨hid, a, ha, rfl⟩)

theorem nodeIn_without {n : NodeId} {b : Anchor} {s : NodeRecord} :
    NodeIn (v.without gone) n b s ↔ ObjectId.node n ∉ gone ∧ ∃ a r, NodeIn v n a r ∧
      b = a.mapNode (·.without gone) ∧ s = r.without gone := by
  by_cases h : ObjectId.node n ∈ gone
  · refine iff_of_false (fun hb => ?_) fun hh => hh.1 h
    cases (without_of_mem h).symm.trans hb.1
  · rw [and_iff_right h]
    exact nodeIn_mapNode (without_of_not_mem h)

theorem edgeIn_without {e : EdgeId} {a : Anchor} {r : EdgeRecord} :
    EdgeIn (v.without gone) e a r ↔ ObjectId.edge e ∉ gone ∧ EdgeIn v e a r := by
  by_cases h : ObjectId.edge e ∈ gone
  · refine iff_of_false (fun ha => ?_) fun hh => hh.1 h
    cases (without_of_mem h).symm.trans ha.1
  · rw [and_iff_right h]
    constructor
    · rintro ⟨hb, hr⟩
      obtain ⟨a, ha, rfl⟩ := Option.map_eq_some_iff.1 ((without_of_not_mem h).symm.trans hb)
      rw [Anchor.mapNode_edge?] at hr
      rw [Anchor.mapNode_of_edge? hr]
      exact ⟨ha, hr⟩
    · rintro ⟨ha, hr⟩
      refine ⟨(without_of_not_mem h).trans ?_, hr⟩
      rw [ha]
      exact congrArg some (Anchor.mapNode_of_edge? hr _)

/-- Objects that can leave an orderly view together: with a node its edges, with
an edge its twin. -/
structure Separable (v : View) (gone : List ObjectId) : Prop where
  edges : ∀ {e a r p}, EdgeIn v e a r → ObjectId.node (r.endAt p) ∈ gone → ObjectId.edge e ∈ gone
  twins : ∀ {e a r t}, EdgeIn v e a r → r.twin = some t → ObjectId.edge e ∈ gone →
    ObjectId.edge t ∈ gone

theorem Separable.consistent (h : v.Separable gone) (hv : v.Consistent) :
    (v.without gone).Consistent := by
  refine ⟨fun hb => ?_, fun hb => ?_, fun ha p => ?_, fun {n b s p e} hb hin => ?_⟩
  · obtain ⟨_, a, ha, rfl⟩ := without_eq_some.1 hb
    obtain ⟨r, hr⟩ := hv.nodes ha
    exact ⟨_, Anchor.mapNode_node? hr _⟩
  · obtain ⟨_, a, ha, rfl⟩ := without_eq_some.1 hb
    obtain ⟨r, hr⟩ := hv.edges ha
    exact ⟨r, (Anchor.mapNode_edge? ..).trans hr⟩
  · obtain ⟨hgone, ha⟩ := edgeIn_without.1 ha
    obtain ⟨b, s, hb, hin⟩ := hv.ends ha p
    refine ⟨_, _, nodeIn_without.2 ⟨fun hend => hgone (h.edges ha hend), b, s, hb, rfl, rfl⟩, ?_⟩
    rw [NodeRecord.edgesAt_without, List.mem_filter, decide_eq_true_eq]
    exact ⟨hin, hgone⟩
  · obtain ⟨_, a, r, ha, _, rfl⟩ := nodeIn_without.1 hb
    rw [NodeRecord.edgesAt_without, List.mem_filter, decide_eq_true_eq] at hin
    obtain ⟨c, u, hc, hend⟩ := hv.listed ha hin.1
    exact ⟨c, u, edgeIn_without.2 ⟨hin.2, hc⟩, hend⟩

theorem Separable.orderly (h : v.Separable gone) (hv : v.Orderly) : (v.without gone).Orderly := by
  refine ⟨h.consistent hv.toConsistent, fun ha ht => ?_⟩
  obtain ⟨hgone, ha⟩ := edgeIn_without.1 ha
  obtain ⟨b, s, hb, hmir, hrest⟩ := hv.twinned ha ht
  exact ⟨b, s, edgeIn_without.2 ⟨fun htg => hgone (h.twins hb hmir.1 htg), hb⟩, hmir, hrest⟩

/-- Removing objects is confined if the nodes and the edges among them may go,
and if what a node that stays loses is either its tenant's matter or lost with a
node at the other end. -/
theorem Confined.without
    (hnodes : ∀ {n a}, ObjectId.node n ∈ gone → v (.node n) = some a →
      a.effective root = some .write ∧ a.type ≠ rootType)
    (hedges : ∀ {e a r}, ObjectId.edge e ∈ gone → EdgeIn v e a r →
      (∀ p, v.Permits root (r.endAt p) .connect) ∨ ∃ p, v.Permits root (r.endAt p) .write)
    (hlists : ∀ {n a r}, ObjectId.node n ∉ gone → NodeIn v n a r →
      (∃ p, ∃ e ∈ r.edgesAt p, ObjectId.edge e ∈ gone) → a.permits root .connect = true ∨
        ∀ e, ObjectId.edge e ∈ gone ↔ v.Severed (v.without gone) e) :
    v.Confined root (v.without gone) := by
  have hkept : ∀ {id a b}, v id = some a → v.without gone id = some b →
      b = a.mapNode (·.without gone) := by
    intro id a b ha hb
    obtain ⟨_, a', ha', rfl⟩ := without_eq_some.1 hb
    rw [Option.some.inj (ha.symm.trans ha')]
  have hlisted : ∀ e, e ∈ gone.filterMap ObjectId.edge? ↔ ObjectId.edge e ∈ gone := by
    intro e
    rw [List.mem_filterMap]
    constructor
    · rintro ⟨id, hid, hide⟩
      cases id with
      | node m => cases hide
      | edge x => exact Option.some.inj hide ▸ hid
    · exact fun he => ⟨_, he, rfl⟩
  refine ⟨fun ha hb => ?_, fun {id a b} ha hb hne => ?_,
    fun ha hn => hnodes (mem_of_without_eq_none ha hn) ha,
    fun ha hn => hedges (mem_of_without_eq_none ha.1 hn) ha,
    fun {n a r b s} ha hb hne => ?_, fun {id b} hn hb => ?_⟩
  · rw [hkept ha hb]
    exact .mapNode fun _ => rfl
  · have hfields : (a.mapNode (·.without gone)).fields = a.fields :=
      Anchor.mapNode_fields a fun _ => rfl
    rw [hkept ha hb, Anchor.mapNode_access, hfields] at hne
    exact (hne.elim (fun hh => hh rfl) fun hh => hh rfl).elim
  · obtain ⟨hn, a', r', ha', _, rfl⟩ := nodeIn_without.1 hb
    obtain ⟨_, rfl⟩ := ha.unique ha'
    obtain ⟨p, hp⟩ := hne
    rw [NodeRecord.edgesAt_without] at hp
    have hlost : ∃ e ∈ r.edgesAt p, ObjectId.edge e ∈ gone := by
      refine Classical.byContradiction fun hno => hp (List.filter_eq_self.2 fun e he => ?_)
      exact decide_eq_true fun hg => hno ⟨e, he, hg⟩
    refine (hlists hn ha ⟨p, hlost⟩).imp_right fun hsev =>
      ⟨gone.filterMap ObjectId.edge?, fun e => (hlisted e).trans (hsev e), fun q => ?_⟩
    rw [NodeRecord.edgesAt_without]
    refine List.filter_congr fun e _ => ?_
    rw [decide_eq_decide, hlisted]
  · obtain ⟨_, a, ha, _⟩ := without_eq_some.1 hb
    cases hn.symm.trans ha

/-- A tenant may remove nodes of its own choice with all their edges, if it may
write them and they are no roots. -/
theorem Orderly.cascade (hv : v.Orderly)
    (hnodes : ∀ {n a}, ObjectId.node n ∈ gone → v (.node n) = some a →
      a.effective root = some .write ∧ a.type ≠ rootType)
    (hedges : ∀ e, ObjectId.edge e ∈ gone ↔
      ∃ a r, EdgeIn v e a r ∧ ∃ p, ObjectId.node (r.endAt p) ∈ gone) :
    (v.without gone).Orderly ∧ v.Confined root (v.without gone) := by
  refine ⟨Separable.orderly ⟨fun {e a r p} ha hend => (hedges e).2 ⟨a, r, ha, p, hend⟩,
    fun {e a r t} ha ht he => ?_⟩ hv, .without hnodes (fun {e a r} he ha => ?_)
    fun _ _ _ => .inr fun e => ?_⟩
  · obtain ⟨a', r', ha', p, hp⟩ := (hedges e).1 he
    obtain ⟨_, rfl⟩ := ha.unique ha'
    obtain ⟨b, s, hb, hmir, _⟩ := hv.twinned ha ht
    refine (hedges t).2 ⟨b, s, hb, p.flip, ?_⟩
    rwa [hmir.2, Port.flip_flip]
  · obtain ⟨a', r', ha', p, hp⟩ := (hedges e).1 he
    obtain ⟨_, rfl⟩ := ha.unique ha'
    obtain ⟨b, s, hb, _⟩ := hv.ends ha p
    exact .inr ⟨p, b, hb.1, Anchor.permits_of_write (hnodes hp hb.1).1⟩
  · rw [hedges]
    refine exists_congr fun a => exists_congr fun r => and_congr_right fun ha =>
      exists_congr fun p => ⟨without_of_mem, fun hnone => ?_⟩
    obtain ⟨b, s, hb, _⟩ := hv.ends ha p
    exact mem_of_without_eq_none hb.1 hnone

/-- In particular it may remove one node with the edges that it lists. -/
theorem Orderly.removal (hv : v.Orderly) {m : NodeId} {a : Anchor} {r : NodeRecord}
    (ha : NodeIn v m a r) (hw : a.effective root = some .write) (hty : a.type ≠ rootType)
    {edges : List EdgeId} (hedges : ∀ e, e ∈ edges ↔ ∃ p, e ∈ r.edgesAt p) :
    (v.without (edges.map .edge ++ [.node m])).Orderly ∧
      v.Confined root (v.without (edges.map .edge ++ [.node m])) := by
  have hnode : ∀ {k}, ObjectId.node k ∈ edges.map .edge ++ [.node m] ↔ k = m := by simp
  refine hv.cascade (fun hn hb => ?_) fun e => ?_
  · rw [hnode] at hn
    subst hn
    rw [ha.1] at hb
    cases hb
    exact ⟨hw, hty⟩
  · have hedge : ObjectId.edge e ∈ edges.map .edge ++ [.node m] ↔ e ∈ edges := by simp
    rw [hedge, hedges]
    simp only [hnode, hv.listed_iff ha]
    constructor
    · rintro ⟨p, b, s, hb, hend⟩
      exact ⟨b, s, hb, p, hend⟩
    · rintro ⟨b, s, hb, p, hend⟩
      exact ⟨p, b, s, hb, hend⟩

/-- A tenant may remove a link if both its ends allow it. -/
theorem Orderly.unlinked (hv : v.Orderly) {e : EdgeId} {a : Anchor} {r : EdgeRecord}
    (ha : EdgeIn v e a r) (hp : ∀ p, v.Permits root (r.endAt p) .connect) :
    (v.without ((e :: r.twin.toList).map .edge)).Orderly ∧
      v.Confined root (v.without ((e :: r.twin.toList).map .edge)) := by
  have hmem : ∀ {x}, ObjectId.edge x ∈ (e :: r.twin.toList).map ObjectId.edge ↔
      x = e ∨ r.twin = some x := by
    intro x
    simp [eq_comm]
  -- both halves run between the same two nodes
  have hends : ∀ {x b s}, ObjectId.edge x ∈ (e :: r.twin.toList).map ObjectId.edge →
      EdgeIn v x b s → ∀ p, v.Permits root (s.endAt p) .connect := by
    intro x b s hx hb p
    rcases hmem.1 hx with rfl | ht
    · obtain ⟨_, rfl⟩ := ha.unique hb
      exact hp p
    · obtain ⟨c, u, hc, hmir, _⟩ := hv.twinned ha ht
      obtain ⟨_, rfl⟩ := hb.unique hc
      rw [hmir.2]
      exact hp p.flip
  refine ⟨Separable.orderly ⟨fun _ hend => ?_, fun {x b s t} hb ht hx => hmem.2 ?_⟩ hv,
    .without (fun hn => ?_) (fun hx hb => .inl (hends hx hb))
      fun {n b s} _ hb ⟨p, x, hin, hx⟩ => .inl ?_⟩
  · simp at hend
  · rcases hmem.1 hx with rfl | hx
    · obtain ⟨_, rfl⟩ := ha.unique hb
      exact .inr ht
    · obtain ⟨c, u, hc, hmir, _⟩ := hv.twinned ha hx
      obtain ⟨_, rfl⟩ := hb.unique hc
      exact .inl (Option.some.inj (ht.symm.trans hmir.1))
  · simp at hn
  · obtain ⟨c, u, hc, rfl⟩ := hv.listed hb hin
    obtain ⟨b', hb', hperm⟩ := hends hx hc p
    rw [hb.1] at hb'
    cases hb'
    exact hperm

end Removing

end View

end Wayfarer
