import Wayfarer.Proofs.Sound.Operations

/-!
# Reclaiming at the end of a request

The searches of `Reclaim` only read, and the nodes that they find dead are no
roots (`Reclaim.survey_ends`). Removing these nodes afterwards keeps the request
calm, so that `Desk.evictUnreachable` always answers (`Sound.evictUnreachable`).
-/

namespace Wayfarer

variable {c : Setting} {n : Nat} {d d' : Desk Vault} {due : EdgeId → Prop} {dead : NodeId → Prop}

/-! ## Removing what is dead -/

namespace Sound

/-- What is seen of a committed edge has the ends and the twin that it was
committed with. -/
theorem alike_of_look (h : Sound c n due dead d) {e : EdgeId} {a b : Anchor} {r s : EdgeRecord}
    (ha : d.look (.edge e) = some a) (hr : a.edge? = some r) (hb : c.WasEdge e b s) :
    r.Alike s := by
  obtain ⟨_, hcopy | ⟨_, hst⟩⟩ := Desk.look_eq_some ha
  · exact h.wired.alike ⟨hcopy, hr⟩ hb
  · rw [h.stored] at hst
    obtain ⟨hp, hid⟩ := h.chronicle.stored_past hst
    exact h.lineage.alike ⟨hp, hid, hr⟩ hb

/-- With an edge a node also lists its twin, at the other port, unless the twin
has lapsed. -/
theorem twin_of_listed (h : Sound c n (fun _ => False) dead d) {m : NodeId} {a : Anchor}
    {r : NodeRecord} (ha : NodeIn d.draft.copy? m a r) {p : Port} {e t : EdgeId}
    (he : e ∈ r.edgesAt p) (ht : d.Twins e t) : t ∈ r.edgesAt p.flip ∨ Lapsed c d.draft t := by
  obtain ⟨b, s, hb, hs, ht⟩ := ht
  rcases h.wired.listed ha he with ⟨y, u, hy, hver, hin⟩ | ⟨y, u, hy, hz, hend⟩ | ⟨_, hno, hst⟩
  · -- the copy was made from a committed node, which listed both halves
    obtain ⟨z, w, hz, _⟩ := h.lineage.listed hy hin
    have htw : w.twin = some t := (h.alike_of_look hb hs hz).1.symm.trans ht
    rcases h.wired.lost ha hy hver (h.lineage.paired hy hin hz htw) with hin | hg | hf
    · exact .inl hin
    · refine .inr ⟨hg, fun x hx hxz => ?_⟩
      obtain ⟨x', w', hx', _⟩ := h.lineage.twins hz htw
      exact (h.dated.born hx hxz).2.1 hx'.committed
    · exact hf.elim
  · -- a new edge is attached, and so is its twin
    rw [h.look_of_copy? hy.1] at hb
    cases hb
    rw [hy.2] at hs
    cases hs
    obtain ⟨_, htwin⟩ := h.wired.attached hy hz id
    obtain ⟨x, w, hx, hxz, hmir⟩ := htwin t ht
    obtain ⟨hends, _⟩ := h.wired.attached hx hxz id
    obtain ⟨z, v, hz', _, hin⟩ := hends p.flip
    rw [hmir.2 p.flip, Port.flip_flip, hend] at hz'
    obtain ⟨_, rfl⟩ := ha.unique hz'
    exact .inl hin
  -- an edge that is nowhere has no twin
  · rw [← h.stored] at hst
    obtain ⟨_, hcopy | ⟨_, hst'⟩⟩ := Desk.look_eq_some hb
    · rw [hcopy] at hno
      cases hno
    · rw [hst'] at hst
      cases hst

theorem removeNode (h : Sound c n (fun _ => False) dead d) {nodes : OrdSet NodeId}
    (hdead : ∀ m, dead m ↔ nodes.contains m = true)
    (hcopies : ∀ m, dead m → (∃ b, d.draft.copy? (.node m) = some b) ∨ d.look (.node m) = none)
    {m : NodeId} (hm : ∀ {a}, d.look (.node m) = some a → a.type ≠ rootType) :
    Work.Ends (Reclaim.removeNode nodes m) d (fun _ d' => Sound c n (fun _ => False) dead d' ∧
      d.Shrinks d' ∧ d'.look (.node m) = none) fun _ _ => False := by
  refine (h.loadNode m).andThen ?_
  rintro found d₁ ⟨hl, ⟨rfl, hn⟩ | ⟨a, r, rfl, hlook, ha⟩⟩
  · exact .pure ⟨h.loaded hl, .of_loaded hl, (hl.look_eq _).trans hn⟩
  have h₁ := h.loaded hl
  have hs₁ : d.Shrinks d₁ := .of_loaded hl
  have hcopies₁ : ∀ m, dead m →
      (∃ b, d₁.draft.copy? (.node m) = some b) ∨ d₁.look (.node m) = none := by
    intro m hm
    rcases hcopies m hm with ⟨b, hb⟩ | hn
    · exact hs₁.copies hb
    · exact .inr (hs₁.unseen hn)
  -- what is listed at a port has its twin at the other, so no half stays without the
  -- other
  have hpaired : d₁.Paired c (OrdSet.ofList (r.outgoing ++ r.incoming)).keys := by
    intro e he t ht
    obtain ⟨p, hin⟩ := NodeRecord.mem_incident.1 he
    exact (h₁.twin_of_listed ha hin ht).imp (fun hin => NodeRecord.mem_incident.2 ⟨_, hin⟩) id
  have hstart : (∀ e ∈ (OrdSet.ofList (r.outgoing ++ r.incoming)).keys,
      e ∈ (OrdSet.ofList (r.outgoing ++ r.incoming)).keys) ∧
      Removing c n dead d₁ (OrdSet.ofList (r.outgoing ++ r.incoming)).keys
        (OrdSet.ofList (r.outgoing ++ r.incoming)).keys d₁ := ⟨fun _ he => he, .start h₁ _⟩
  have hedges : Work.Ends
      ((OrdSet.ofList (r.outgoing ++ r.incoming)).keys.filterM (Reclaim.removeEdge nodes)) d₁
      (fun _ d' => Removing c n dead d₁ (OrdSet.ofList (r.outgoing ++ r.incoming)).keys [] d')
      fun _ _ => False := by
    refine (Work.Ends.filterM (J := fun rest d' =>
      (∀ e ∈ rest, e ∈ (OrdSet.ofList (r.outgoing ++ r.incoming)).keys) ∧
      Removing c n dead d₁ (OrdSet.ofList (r.outgoing ++ r.incoming)).keys rest d') hstart ?_).mono
      (fun _ _ hd => hd.2) fun _ _ hf => hf
    rintro e rest d₂ ⟨hsub, hr⟩
    refine (hr.step h₁ hdead hcopies₁ hpaired (hsub e (by simp))).imp ?_
    exact fun _ _ hd => ⟨fun x hx => hsub x (by simp [hx]), hd⟩
  refine hedges.andThen ?_
  intro removed d₂ hr
  obtain ⟨h₂, hs₂, hnone⟩ := hr.finish
  -- whatever lists the node now, listed it then, and those edges have all gone
  refine (h₂.deleteNode ?_).andThen ?_
  · intro b s hb hs
    obtain ⟨b', s', hb', hs', hty, hsub⟩ := hs₂.nodes hb hs
    rw [h₁.look_of_copy? ha.1] at hb'
    cases hb'
    rw [ha.2] at hs'
    cases hs'
    refine ⟨hty ▸ hm hlook, fun p e he => hnone e ?_⟩
    exact NodeRecord.mem_incident.2 ⟨p, hsub p he⟩
  · rintro _ d₃ ⟨h₃, hs₃, hn₃⟩
    exact .pure ⟨h₃, (hs₁.trans hs₂).trans hs₃, hn₃⟩

/-- Reclaiming always comes to an end and keeps a request calm. -/
theorem evictUnreachable (h : Calm c n d) (root : RootId) :
    Work.Ends (Desk.evictUnreachable root) d (fun _ d' => Calm c n d') fun _ _ => False := by
  refine .bind
    (.get ((Reclaim.survey_ends (Desk.over_tier h.agreed) h.dated.keyed root).andThen ?_))
  rintro nodes d₁ ⟨hd₁, hcopied, hiff⟩
  have hl := hd₁.loaded
  have hrem : ∀ m, nodes.contains m = true → ∃ a, d₁.draft.copy? (.node m) = some a ∧
      a.type ≠ rootType := by
    intro m hm
    obtain ⟨a, ha⟩ := hcopied m hm
    obtain ⟨b, hb, _, hty⟩ := ((hiff m).1 hm).owned
    have hkeyed := (h.loaded hl).dated.keyed
    rw [← hd₁.same_view, Desk.view_of_copy? (hkeyed.removed?_of_copy? ha) ha] at hb
    cases hb
    exact ⟨a, ha, hty⟩
  -- from here on the surveyed nodes count as dead: they may list edges that have gone
  -- already
  have h₁ : Sound c n (fun _ => False) (fun m => nodes.contains m = true) d₁ :=
    (h.loaded hl).rewired ((h.loaded hl).wired.redead fun _ hm => hm.elim)
  have hstart : Sound c n (fun _ => False) (fun m => nodes.contains m = true) d₁ ∧
      d₁.Shrinks d₁ ∧ (∀ m ∈ nodes.keys, nodes.contains m = true) ∧
      ∀ m, nodes.contains m = true → m ∈ nodes.keys ∨ d₁.look (.node m) = none :=
    ⟨h₁, .of_loaded (.refl h₁.agreed), fun _ hm => Table.mem_keys_iff_contains.1 hm,
      fun _ hm => .inl (Table.mem_keys_iff_contains.2 hm)⟩
  refine (Work.Ends.mapM (J := fun rest d' =>
    Sound c n (fun _ => False) (fun m => nodes.contains m = true) d' ∧ d₁.Shrinks d' ∧
    (∀ m ∈ rest, nodes.contains m = true) ∧
    ∀ m, nodes.contains m = true → m ∈ rest ∨ d'.look (.node m) = none) hstart ?_).andThen ?_
  · rintro m rest d₂ ⟨h₂, hs₂, hsub, hdone⟩
    refine (h₂.removeNode (fun _ => Iff.rfl) ?_ ?_).imp ?_
    · intro x hx
      obtain ⟨b, hb, _⟩ := hrem x hx
      exact hs₂.copies hb
    · intro a ha
      obtain ⟨b, hb, hty⟩ := hrem m (hsub m (by simp))
      obtain ⟨s, hs⟩ := h₂.node_of_look ha
      obtain ⟨b', s', hb', _, hty', _⟩ := hs₂.nodes ha hs
      rw [h₁.look_of_copy? hb] at hb'
      cases hb'
      rwa [hty']
    · rintro _ d₃ ⟨h₃, hs₃, hn₃⟩
      refine ⟨h₃, hs₂.trans hs₃, fun x hx => hsub x (by simp [hx]), fun x hx => ?_⟩
      rcases hdone x hx with hin | hn
      · rcases List.mem_cons.1 hin with rfl | hin
        · exact .inr hn₃
        · exact .inl hin
      · exact .inr (hs₃.unseen hn)
  -- all dead nodes have gone, so none is dead any more
  · rintro _ d₂ ⟨h₂, _, _, hdone⟩
    refine .pure (h₂.rewired (h₂.wired.redead fun m hm => .inr ?_))
    exact h₂.copy?_of_look_none ((hdone m hm).resolve_left (by simp))

end Sound

end Wayfarer
