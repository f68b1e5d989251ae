import Wayfarer.Proofs.Tenancy

/-!
# What the end of a request leaves

Reclaiming starts from the nodes that a request has changed. That is enough, as
long as the tenant's root leads to whatever is stored: a node that has lost its
last path lies below one that was changed, along the stored path, with nothing
but lost nodes in between (`Desk.Attends.anchored_or_condemned`). So the
tenant's root leads to every node that is left (`Desk.Attends.gathered`).
-/

namespace Wayfarer

namespace View

variable {v : View} {gone : List ObjectId} {n : NodeId}

/-- Whatever a root leads to is led to by it still, if nothing on the way is
taken away. -/
theorem Anchored.without (hn : v.Anchored n)
    (hnodes : ∀ {m}, v.Anchored m → ObjectId.node m ∉ gone)
    (hedges : ∀ {e a r}, EdgeIn v e a r → v.Anchored r.source → ObjectId.edge e ∉ gone) :
    (v.without gone).Anchored n := by
  obtain ⟨m, a, ha, hty, hpath⟩ := hn
  have hm : v.Anchored m := .of_root ha hty
  refine ⟨m, _, (without_of_not_mem (hnodes hm)).trans (congrArg _ ha),
    (Anchor.mapNode_type (f := (·.without gone)) a fun _ => rfl).trans hty, ?_⟩
  induction hpath with
  | refl => exact .refl
  | @tail k n hpath hstep ih =>
    obtain ⟨e, b, r, hb, hsource, htarget⟩ := hstep
    have hk : v.Anchored r.source := hsource ▸ ⟨m, a, ha, hty, hpath⟩
    exact ih.tail ⟨e, b, r, edgeIn_without.2 ⟨hedges hb hk, hb⟩, hsource, htarget⟩

end View

namespace Desk

variable {σ : Type} [Durable σ] {t : Tier σ} {root : RootId} {d d' : Desk σ} {n m : NodeId}
  {a : Anchor}

/-- A node that the request has not changed is stored as the request sees it. -/
theorem Attends.stored_of_untouched (h : d.Attends t root) (ha : d.view t (.node n) = some a)
    (hn : ¬ Reclaim.Touched d n) : t.stored (.node n) = some a := by
  obtain ⟨b, hb, rfl⟩ := Option.map_eq_some_iff.1 ha
  obtain ⟨_, hcopy | ⟨_, hst⟩⟩ := Draft.view_eq_some hb
  · have hclean : b.dirty = false := by
      cases hd : b.dirty with
      | false => rfl
      | true => exact absurd ⟨b, hcopy, hd⟩ hn
    have hst : t.stored (.node n) = some b := h.abreast.clean hcopy hclean
    rw [clean_stored hst]
    exact hst
  · rw [clean_stored hst]
    exact hst

/-- A node that the tenant's root leads to in what is stored is led to by it
still, or the request gives it up. -/
theorem Attends.anchored_or_condemned_of_stored (h : d.Attends t root) (ht : t.Settled root)
    (hpath : Relation.ReflTransGen t.stored.Leads root.node n)
    (ha : d.view t (.node n) = some a) : (d.view t).Anchored n ∨ d.Condemned t root n := by
  by_cases hn : (d.view t).Anchored n
  · exact .inl hn
  refine .inr ?_
  have howned : ∀ {m b}, d.view t (.node m) = some b → ¬ (d.view t).Anchored m →
      (d.view t).Owned root m := fun hb hm =>
    h.solitary.owned hb fun hty => hm (.of_root hb hty)
  -- along the stored path: the last step is there still, unless the node itself was
  -- changed
  induction hpath generalizing a with
  | refl =>
    obtain ⟨b, hb⟩ := h.home
    exact absurd (.of_root hb (h.solitary.home hb).1) hn
  | @tail m n _ hstep ih =>
    by_cases hchanged : Reclaim.Touched d n
    · exact .first hchanged (howned ha hn) hn
    obtain ⟨e, x, r, hx, rfl, rfl⟩ := hstep
    have hst := h.stored_of_untouched ha hchanged
    obtain ⟨s, hs⟩ := h.solitary.nodes ha
    have hin := (ht.solitary.listed_iff (p := .into) ⟨hst, hs⟩).2 ⟨x, r, hx, rfl⟩
    obtain ⟨y, u, hy, hend⟩ := h.solitary.listed (p := .into) ⟨ha, hs⟩ hin
    have hsource : u.source = r.source := ((h.persists hx.1 hy.1).alike hx.2 hy.2).2 .out
    have hleads : (d.view t).Leads r.source r.target := ⟨e, y, u, hy, hsource, hend⟩
    obtain ⟨b, w, hb, _⟩ := h.solitary.ends hy .out
    rw [show u.endAt .out = r.source from hsource] at hb
    by_cases hm : (d.view t).Anchored r.source
    · exact absurd (hm.step hleads) hn
    · exact .next (ih hb.1 hm) hleads (howned ha hn) hn

/-- Whatever the request sees is led to by some root, or the request gives it
up. -/
theorem Attends.anchored_or_condemned (h : d.Attends t root) (ht : t.Settled root)
    (ha : d.view t (.node n) = some a) : (d.view t).Anchored n ∨ d.Condemned t root n := by
  by_cases hty : a.type = rootType
  · exact .inl (.of_root ha hty)
  by_cases hchanged : Reclaim.Touched d n
  · by_cases hn : (d.view t).Anchored n
    · exact .inl hn
    · exact .inr (.first hchanged (h.solitary.owned ha hty) hn)
  · exact h.anchored_or_condemned_of_stored ht
      (ht.gathered (h.stored_of_untouched ha hchanged) hty) ha

/-- Once a request has given up what it has to, the tenant's root leads to every
node, and nothing that it led to before is missing. -/
theorem Attends.evictUnreachable (h : d.Attends t root) (ht : t.Settled root) :
    Work.Ends (Desk.evictUnreachable root) d (fun _ d' => d'.Attends t root ∧
      (d'.view t).Gathered root ∧
      ∀ {n}, (d.view t).Anchored n → ∃ a, d'.view t (.node n) = some a) fun _ _ => False := by
  refine (((h.sane.evict (fun _ => False) h.solitary.toOrderly root).and
    (h.sane.evictUnreachable h.solitary.toConsistent root)).mono ?_ fun _ _ hf => hf.1)
  rintro gone d' ⟨hob, hgone, hr⟩
  have h' := h.obeys hob id
  have hspared : ∀ {m}, (d.view t).Anchored m → (d'.view t).Anchored m := by
    intro m hm
    rw [hr.view_eq]
    exact hm.without (fun hk => (hgone.spares hk).1) fun hb hk => (hgone.spares hk).2 hb rfl
  refine ⟨h', fun {n a} ha hty => ?_, fun {n} hn => ?_⟩
  · refine h'.solitary.leads_of_anchored (hspared ?_) ha hty
    rw [hr.view_eq, View.without] at ha
    split at ha
    · cases ha
    · rename_i hkept
      obtain ⟨b, hb, _⟩ := Option.map_eq_some_iff.1 ha
      refine (h.anchored_or_condemned ht hb).resolve_right fun hc => hkept ((hgone.nodes n).2 hc)
  · obtain ⟨m, b, hb, _, hpath⟩ := hspared hn
    rcases Relation.ReflTransGen.cases_tail hpath with rfl | ⟨k, _, e, c, r, hc, _, rfl⟩
    · exact ⟨b, hb⟩
    · obtain ⟨x, _, hx, _⟩ := h'.solitary.ends hc .into
      exact ⟨x, hx.1⟩

end Desk

end Wayfarer
