import Wayfarer.Proofs.Pruning
import Wayfarer.Proofs.Sound.Operations
import Wayfarer.Proofs.Sound.Reclaiming
import Wayfarer.Proofs.Twins

/-!
# Operations on twins

Every operation leaves a request even, also when it fails (`Op.run_even`). There
are three ways.

* Operations that read and operations that remove only ever take edges out of
  sight (`Desk.Thins`).
* `Sound.link_even`: a new undirected link comes with both its halves.
* `Sound.updateLinked_even`: a change to one half is made to the other one next.
  If that is not there the operation fails and leaves a change to one half
  behind, but then the link was withdrawn.
-/

namespace Wayfarer

variable {c : Setting} {n : Nat} {past : Anchor → Prop} {d d' : Desk Vault} {e t : EdgeId}
  {a b : Anchor} {r s : EdgeRecord}

/-! ## Changes to some edges -/

namespace Desk.Even

/-- A request stays even when some edges change, if with one half of a link the
other one is among them and what is changed is even. -/
theorem change (touched : EdgeId → Prop) (he : d.Even past) (hst : d'.stored = d.stored)
    (hold : ∀ k, ¬ touched k → d'.look (.edge k) = d.look (.edge k))
    (hclosed : ∀ {k t a r b s}, EdgeIn d.look k a r → r.twin = some t → EdgeIn d.look t b s →
      touched t → touched k)
    (hnew : ∀ {k a r t}, touched k → EdgeIn d'.look k a r → r.twin = some t →
      (∃ b s, EdgeIn d'.look t b s ∧ b.dirty = true ∧ (b.version = a.version →
        OtherHalf k a r b s)) ∨ d.Withdrawn past k) : d'.Even past := by
  have hgone : ∀ {k}, d.Withdrawn past k → d'.Withdrawn past k := fun hg =>
    ⟨hg.1, by rw [hst]; exact hg.2⟩
  intro k a r t ha hdirty ht
  by_cases hk : touched k
  · exact (hnew hk ha ht).imp id hgone
  · have ha' : EdgeIn d.look k a r := ⟨hold k hk ▸ ha.1, ha.2⟩
    rcases he ha' hdirty ht with ⟨b, s, hb, hrest⟩ | hg
    · exact .inl ⟨b, s, ⟨(hold t fun ht' => hk (hclosed ha' ht hb ht')).trans hb.1, hb.2⟩, hrest⟩
    · exact .inr (hgone hg)

/-- A request that sees the edges as before is as even as before. -/
theorem same (he : d.Even past) (hst : d'.stored = d.stored)
    (hlook : ∀ k, d'.look (.edge k) = d.look (.edge k)) : d'.Even past :=
  he.change (fun _ => False) hst (fun k _ => hlook k) (fun _ _ _ hf => hf)
    fun hf => hf.elim

theorem loaded (he : d.Even past) (hl : d.Loaded d') : d'.Even past :=
  he.same hl.stored_eq fun _ => hl.look_eq _

end Desk.Even

/-! ## Operations that take edges out of sight -/

/-- A desk at which edges are seen as before or not at all. -/
structure Desk.Thins (c : Setting) (d d' : Desk Vault) : Prop where
  agreed : d'.shared.Agreed
  stored : d'.stored = c.stored
  born : ∀ {e a}, d'.draft.copy? (.edge e) = some a → a.version = 0 →
    d'.stored.get? (.edge e) = none
  edges : ∀ e, d'.look (.edge e) = d.look (.edge e) ∨ d'.look (.edge e) = none

namespace Desk.Thins

theorem loaded {d₀ : Desk Vault} (hc : Chronicle c.past c.stored) (h : d₀.Thins c d)
    (hl : d.Loaded d') : d₀.Thins c d' := by
  refine ⟨hl.agreed, hl.stored_eq.trans h.stored, fun {e a} ha hz => ?_, fun e => ?_⟩
  · rcases hl.volatile (.edge e) with hsame | ⟨_, _, b, hb, hcopy⟩
    · rw [hl.stored_eq]
      exact h.born (hsame.symm.trans ha) hz
    · rw [show d'.draft.copy? (.edge e) = some b from hcopy] at ha
      cases ha
      rw [h.stored] at hb
      exact absurd hz (hc.positive (hc.stored_past hb).1)
  · rw [hl.look_eq]
    exact h.edges e

/-- Changing a node does not touch the edges. -/
theorem mapNode {d₀ : Desk Vault} (hc : Chronicle c.past c.stored) (f : NodeRecord → NodeRecord)
    (m : NodeId) : Work.Keeps (d₀.Thins c) (Desk.update? m (·.mapNode f)) := by
  intro d h
  refine (Desk.change_ends h.agreed (.node m) _).mono ?_ fun _ _ hf => hf.elim
  rintro _ d' ⟨_, ⟨_, hl⟩ | ⟨a, d₁, _, hl, _, rfl⟩⟩
  · exact h.loaded hc hl
  · have h₁ := h.loaded hc hl
    have hcopy : ∀ k : EdgeId, (d₁.keep (.node m) { a.mapNode f with dirty := true }).draft.copy?
        (.edge k) = d₁.draft.copy? (.edge k) := fun k =>
      (Desk.keep_copy? ..).trans (if_neg (by simp))
    refine ⟨h₁.agreed, h₁.stored, fun {k x} hx => ?_, fun k => ?_⟩
    · rw [hcopy] at hx
      exact h₁.born hx
    · rw [Desk.look_congr (hcopy k) rfl rfl]
      exact h₁.edges k

theorem delete {d₀ : Desk Vault} (hc : Chronicle c.past c.stored) (id : ObjectId) :
    Work.Keeps (d₀.Thins c) (Desk.delete id) := by
  intro d h
  refine (Desk.remove_ends h.agreed id).mono ?_ fun _ _ hf => hf.elim
  rintro _ d' (⟨_, hl⟩ | ⟨a, d₁, _, hl, ha, rfl⟩)
  · exact h.loaded hc hl
  have h₁ := h.loaded hc hl
  refine ⟨h₁.agreed, h₁.stored, fun {k x} hx hz => ?_, fun k => ?_⟩
  · rw [Desk.bury_copy?] at hx
    split at hx
    · cases hx
    · exact h₁.born hx hz
  · by_cases hk : ObjectId.edge k = id
    · subst hk
      exact .inr ((Desk.look_bury fun hz => h₁.born ha hz).trans (if_pos rfl))
    · rw [Desk.look_congr ((Desk.bury_copy? ..).trans (if_neg hk))
        ((Desk.bury_removed? ..).trans (if_neg fun hh => hk hh.1)) rfl]
      exact h₁.edges k

theorem prunes (hc : Chronicle c.past c.stored) (d : Desk Vault) : Desk.Prunes (d.Thins c) := by
  refine ⟨fun id d' h => ?_, fun e m => mapNode hc _ m, delete hc⟩
  exact (Desk.read_ends h.agreed id).mono (fun _ _ hr => h.loaded hc hr.2.1) fun _ _ hf => hf.elim

theorem changeNode {d₀ : Desk Vault} (hc : Chronicle c.past c.stored) (m : NodeId)
    (f : NodeRecord → NodeRecord) : Work.Keeps (d₀.Thins c) (Actor.changeNode m f) := by
  refine .bind (mapNode hc f m) fun found => ?_
  split
  · exact .pure _
  · exact .throw _

end Desk.Thins

namespace Sound

theorem thins (h : Calm c n d) : d.Thins c d := by
  refine ⟨h.agreed, h.stored, fun ha hz => ?_, fun _ => .inl rfl⟩
  rw [h.stored]
  exact h.chronicle.stored_eq_none (h.dated.born ha hz).2.1

/-- Work that only takes edges out of sight leaves a calm request even. -/
theorem thinned {α : Type} {w : Work Vault α} {k : Nat} (hcalm : Calm c n d) (he : d.Even c.past)
    (hw : Whole c.stored) (hthin : Work.Keeps (d.Thins c) w)
    (h : Work.Ends w d (fun _ => Calm c k) fun _ => Calm c k) :
    Work.Ends w d (fun _ d' => d'.Even c.past) fun _ d' => d'.Even c.past := by
  have hend : ∀ {d'}, Calm c k d' ∧ d.Thins c d' → d'.Even c.past := fun h' =>
    he.thin h'.1 hw (h'.2.stored.trans hcalm.stored.symm) h'.2.edges
  exact (h.and (hthin d hcalm.thins)).mono (fun _ _ => hend) fun _ _ => hend

/-! ## New links -/

theorem unseen_of_fresh (h : Calm c n d) {k : Nat} {id : ObjectId} (hf : Fresh c k d id) :
    d.look id = none := by
  refine Desk.look_eq_none_iff.2 (.inr ⟨Draft.copy?_of_unmentioned hf.unmentioned, ?_⟩)
  rw [h.stored]
  exact h.chronicle.stored_eq_none hf.uncommitted

theorem create_even (he : d.Even c.past) (h : Calm c (n + 1) d) (actor : Actor) (type : String)
    (fields : Fields) : Work.Ends (actor.create type fields) d (fun _ d' => d'.Even c.past)
      fun _ d' => d'.Even c.past := by
  refine .bind ((h.reads (.resolve actor .node type)).mono ?_ fun _ _ hd => he.loaded hd.1)
  rintro typeId d₁ ⟨hl₁, h₁⟩
  have he₁ := he.loaded hl₁
  split
  · exact .throw he₁
  refine .bind ((h₁.reads (.fillFields actor typeId fields)).mono ?_ fun _ _ hd => he₁.loaded hd.1)
  rintro filled d₂ ⟨hl₂, h₂⟩
  refine h₂.mintNode.surely.andThen ?_
  rintro m d₃ ⟨rfl, _⟩
  refine .bind (.modify (.pure ((he₁.loaded hl₂).same rfl fun k => ?_)))
  exact Desk.look_staged.trans (if_neg ObjectId.noConfusion)

/-- The halves of a new link. -/
theorem otherHalf_new (e t : EdgeId) (owner : RootId) (type : TypeId) (fields : Fields)
    (source target : NodeId) :
    OtherHalf e (Anchor.ofEdge e owner ⟨type, fields, source, target, false, some t⟩)
      ⟨type, fields, source, target, false, some t⟩
      (Anchor.ofEdge t owner ⟨type, fields, target, source, false, some e⟩)
      ⟨type, fields, target, source, false, some e⟩ :=
  ⟨⟨rfl, fun p => by cases p <;> rfl⟩, rfl, ⟨rfl, rfl⟩, rfl, rfl, rfl⟩

end Sound

/-- Staging an object that is not stored. -/
theorem Desk.Thins.staged (h : d.Thins c d) (hnew : d.stored.get? a.id = none) :
    (d.staged a).Thins c (d.staged a) := by
  refine ⟨h.agreed, h.stored, fun {k x} hx hz => ?_, fun _ => .inl rfl⟩
  rw [show (d.staged a).draft.copy? (.edge k) = _ from Draft.stage_copy? ..] at hx
  split at hx
  · rename_i hk
    exact hk ▸ hnew
  · exact h.born hx hz

/-- Staging a new edge without a twin. -/
theorem Desk.Even.staged (he : d.Even past) (hid : a.id = .edge e) (hnew : d.look (.edge e) = none)
    (hr : a.edge? = some r) (ht : r.twin = none) : (d.staged a).Even past := by
  refine he.change (· = e) rfl (fun k hk => ?_) ?_ ?_
  · refine Desk.look_staged.trans (if_neg ?_)
    rw [hid]
    simpa using hk
  · rintro k t x q b s _ _ hb rfl
    rw [hb.1] at hnew
    cases hnew
  · rintro k x q t rfl hx htq
    rw [EdgeIn, Desk.look_staged, if_pos hid.symm, Option.some.injEq] at hx
    obtain ⟨rfl, hq⟩ := hx
    rw [show ({ a with dirty := true } : Anchor).edge? = a.edge? from rfl, hr] at hq
    cases hq
    rw [ht] at htq
    cases htq

/-- Staging both halves of a new link. -/
theorem Desk.Even.coupled (he : d.Even past) (hide : a.id = .edge e) (hidt : b.id = .edge t)
    (hne : e ≠ t) (hnewe : d.look (.edge e) = none) (hnewt : d.look (.edge t) = none)
    (hr : a.edge? = some r) (hs : b.edge? = some s) (hrt : r.twin = some t)
    (hhalf : OtherHalf e a r b s) : ((d.staged b).staged a).Even past := by
  have hlook : ∀ k : EdgeId, ((d.staged b).staged a).look (.edge k) =
      if k = e then some { a with dirty := true }
      else if k = t then some { b with dirty := true } else d.look (.edge k) := by
    intro k
    rw [Desk.look_staged, Desk.look_staged, hide, hidt]
    simp only [ObjectId.edge.injEq]
  have hine : EdgeIn ((d.staged b).staged a).look e { a with dirty := true } r :=
    ⟨(hlook e).trans (if_pos rfl), hr⟩
  have hint : EdgeIn ((d.staged b).staged a).look t { b with dirty := true } s :=
    ⟨(hlook t).trans ((if_neg hne.symm).trans (if_pos rfl)), hs⟩
  refine he.change (fun k => k = e ∨ k = t) rfl (fun k hk => ?_) ?_ ?_
  · rw [hlook, if_neg fun h => hk (.inl h), if_neg fun h => hk (.inr h)]
  · rintro k u x q y w _ _ hy (rfl | rfl)
    · rw [hy.1] at hnewe
      cases hnewe
    · rw [hy.1] at hnewt
      cases hnewt
  · rintro k x q u (rfl | rfl) hx hu
    · obtain ⟨rfl, rfl⟩ := hx.unique hine
      rw [hrt] at hu
      cases hu
      exact .inl ⟨_, s, hint, rfl, fun _ => hhalf.marked⟩
    · obtain ⟨rfl, rfl⟩ := hx.unique hint
      rw [hhalf.mirrors.1] at hu
      cases hu
      exact .inl ⟨_, r, hine, rfl, fun _ => (hhalf.symm hrt).marked⟩

namespace Sound

/-- A new link has both its halves, or it is directed. -/
theorem link_even (he : d.Even c.past) (h : Calm c (n + 2) d) (hw : Whole c.stored) (actor : Actor)
    (type : TypeId) (fields : Fields) (directed : Bool) {source target : NodeId}
    (hs : d.Sees (.node source)) (ht : d.Sees (.node target)) :
    Work.Ends (actor.link source target type fields directed) d (fun _ d' => d'.Even c.past)
      fun _ d' => d'.Even c.past := by
  have hc := h.chronicle
  have hunstored : ∀ {k : Nat} {x : EdgeId} {d' : Desk Vault}, Fresh c k d' (.edge x) →
      d.stored.get? (.edge x) = none := fun hf => h.stored ▸ hc.stored_eq_none hf.uncommitted
  -- once the edges are staged nothing changes but lists of nodes
  have hrest : ∀ {d₁ : Desk Vault} {w : Work Vault EdgeId}, d₁.Even c.past → d₁.Thins c d₁ →
      Work.Keeps (d₁.Thins c) w → Work.Ends w d₁
        (fun _ d' => ∃ d₁ : Desk Vault, d₁.Even c.past ∧ d₁.stored = c.stored ∧ d₁.Thins c d')
        fun _ d' => ∃ d₁ : Desk Vault, d₁.Even c.past ∧ d₁.stored = c.stored ∧ d₁.Thins c d' :=
    fun he₁ hthin hkeeps => (hkeeps _ hthin).mono (fun _ _ hd => ⟨_, he₁, hthin.stored, hd⟩)
      fun _ _ hd => ⟨_, he₁, hthin.stored, hd⟩
  have hstaged : Work.Ends (actor.link source target type fields directed) d
      (fun _ d' => ∃ d₁ : Desk Vault, d₁.Even c.past ∧ d₁.stored = c.stored ∧ d₁.Thins c d')
      fun _ d' => ∃ d₁ : Desk Vault, d₁.Even c.past ∧ d₁.stored = c.stored ∧ d₁.Thins c d' := by
    refine h.mintEdge.surely.andThen ?_
    rintro e d₁ ⟨rfl, hfe, _⟩
    have he₁ : d.minted.Even c.past := he.same rfl fun _ => rfl
    cases directed with
    | true =>
      refine .bind (.modify (hrest ?_ ?_ ?_))
      · exact he₁.staged rfl (h.minted.unseen_of_fresh hfe) rfl rfl
      · exact h.minted.thins.staged (hunstored hfe)
      · exact .bind (Desk.Thins.changeNode hc source _) fun _ =>
          .bind (Desk.Thins.changeNode hc target _) fun _ => .pure _
    | false =>
      refine h.minted.mintEdge.surely.andThen ?_
      rintro t d₂ ⟨rfl, hft, hnamed⟩
      have h₂ := h.minted.minted
      have hne : e ≠ t := by
        rintro rfl
        exact hfe.unnamed (Nat.succ_pos n) hnamed
      refine .bind (.modify (.bind (.modify (hrest ?_ ?_ ?_))))
      · have he₂ : d.minted.minted.Even c.past := he₁.same rfl fun _ => rfl
        exact he₂.coupled rfl rfl hne (h₂.unseen_of_fresh hfe.minted) (h₂.unseen_of_fresh hft)
          rfl rfl rfl (otherHalf_new e t actor.requester type fields source target)
      · exact Desk.Thins.staged (Desk.Thins.staged h₂.thins (hunstored hft)) (hunstored hfe)
      · exact .bind (Desk.Thins.changeNode hc source _) fun _ =>
          .bind (Desk.Thins.changeNode hc target _) fun _ =>
          .bind (Desk.Thins.changeNode hc target _) fun _ =>
          .bind (Desk.Thins.changeNode hc source _) fun _ => .pure _
  refine ((h.link actor type fields directed hs ht).and hstaged).mono ?_ fun _ _ hf => hf.1.elim
  rintro _ d' ⟨⟨h', _⟩, d₁, he₁, hst, hthin⟩
  exact he₁.thin h' hw (hthin.stored.trans hst.symm) hthin.edges

end Sound

/-! ## Changes to both halves -/

/-- A tame change that keeps the halves of a link alike. -/
structure Desk.Impartial (change : Anchor → Anchor) : Prop extends Desk.Tame change where
  halves : ∀ {e a r b s r' s'}, a.edge? = some r → b.edge? = some s → OtherHalf e a r b s →
    (change a).edge? = some r' → (change b).edge? = some s' →
    OtherHalf e (change a) r' (change b) s'

/-- Setting a field. -/
theorem Desk.Impartial.setField (name : String) (value : Value) :
    Desk.Impartial fun a => a.withFields (a.fields.set name value) := by
  refine ⟨.withFields _, fun {e a r b s r' s'} hr hs h hr' hs' => ?_⟩
  have hrecord : ∀ {a : Anchor} {r : EdgeRecord}, a.edge? = some r →
      a.withFields (a.fields.set name value) =
        { a with body := .edge { r with fields := r.fields.set name value } } := by
    intro a r hr
    cases hb : a.body with
    | node m => simp [Anchor.edge?, hb] at hr
    | edge x =>
      have hxr : x = r := by simpa [Anchor.edge?, hb] using hr
      simp [Anchor.withFields, Anchor.fields, hb, hxr]
  simp only [hrecord hr] at hr' ⊢
  simp only [hrecord hs] at hs' ⊢
  cases hr'
  cases hs'
  refine ⟨⟨h.mirrors.1, fun p => ?_⟩, h.type, h.undirected, by simp [h.fields], h.owner, h.access⟩
  cases p with
  | out => exact h.mirrors.2 .out
  | into => exact h.mirrors.2 .into

/-- Changing the access list. -/
theorem Desk.Impartial.access (f : Access → Access) :
    Desk.Impartial fun a => { a with access := f a.access } := by
  refine ⟨.access _, fun {e a r b s r' s'} hr hs h hr' hs' => ?_⟩
  obtain rfl : r = r' := Option.some.inj (hr.symm.trans hr')
  obtain rfl : s = s' := Option.some.inj (hs.symm.trans hs')
  exact ⟨h.mirrors, h.type, h.undirected, h.fields, h.owner, by simp [h.access]⟩

namespace Desk.Even

variable (he : d.Even c.past) (h : Calm c n d)

include he h

/-- A change to an edge without a twin. -/
theorem single (hst : d'.stored = d.stored) (ha : EdgeIn d.look e a r) (ht : r.twin = none)
    (hold : ∀ k, k ≠ e → d'.look (.edge k) = d.look (.edge k))
    (hnew : ∀ {x q}, EdgeIn d'.look e x q → q.twin = none) : d'.Even c.past := by
  refine he.change (· = e) hst hold ?_ ?_
  · rintro k t x q b s hx hq _ rfl
    have hback := (h.mirrors_of_look hx.1 hx.2 hq ha.1 ha.2).1
    rw [ht] at hback
    cases hback
  · rintro k x q t rfl hx hq
    rw [hnew hx] at hq
    cases hq

/-- A change to an edge and its twin. -/
theorem pair (hst : d'.stored = d.stored) (ha : EdgeIn d.look e a r) (ht : r.twin = some t)
    (hold : ∀ k, k ≠ e → k ≠ t → d'.look (.edge k) = d.look (.edge k))
    (hnew : ∀ {k x q u}, k = e ∨ k = t → EdgeIn d'.look k x q → q.twin = some u →
      (∃ y w, EdgeIn d'.look u y w ∧ y.dirty = true ∧ (y.version = x.version →
        OtherHalf k x q y w)) ∨ d.Withdrawn c.past k) : d'.Even c.past := by
  refine he.change (fun k => k = e ∨ k = t) hst
    (fun k hk => hold k (fun hke => hk (.inl hke)) fun hkt => hk (.inr hkt)) ?_ hnew
  rintro k u x q y w hx hq hy (rfl | rfl)
  · exact .inr (h.twins_back ⟨x, q, hx.1, hx.2, hq⟩ ⟨a, r, ha.1, ha.2, ht⟩).symm
  · have hback := h.mirrors_of_look hx.1 hx.2 hq hy.1 hy.2
    have hback' := h.mirrors_of_look ha.1 ha.2 ht hy.1 hy.2
    exact .inl (Option.some.inj (hback.1.symm.trans hback'.1))

/-- The halves of a link after both were changed in the same way. -/
theorem changed (hw : Whole c.stored) (hp : Twinned c.WasEdge) {change : Anchor → Anchor}
    (hi : Desk.Impartial change) (ha : EdgeIn d.look e a r) (ht : r.twin = some t)
    (hb : EdgeIn d.look t b s) (he' : d'.look (.edge e) = some { change a with dirty := true })
    (ht' : d'.look (.edge t) = some { change b with dirty := true }) {x : Anchor}
    {q : EdgeRecord} {u : EdgeId} (hx : EdgeIn d'.look e x q) (hq : q.twin = some u) :
    (∃ y w, EdgeIn d'.look u y w ∧ y.dirty = true ∧ (y.version = x.version →
      OtherHalf e x q y w)) ∨ d.Withdrawn c.past e := by
  obtain ⟨r', hr', _, halike⟩ := hi.edge ha.2
  obtain ⟨s', hs', _, _⟩ := hi.edge hb.2
  obtain ⟨rfl, rfl⟩ := hx.unique ⟨he', hr'⟩
  obtain rfl : t = u := Option.some.inj (ht.symm.trans (halike.1.symm.trans hq))
  by_cases hv : b.version = a.version
  · rcases he.halves h hw hp ha ht hb hv with hhalf | hgone
    · exact .inl ⟨_, s', ⟨ht', hs'⟩, rfl, fun _ => (hi.halves ha.2 hb.2 hhalf hr' hs').marked⟩
    · exact .inr hgone
  · refine .inl ⟨_, s', ⟨ht', hs'⟩, rfl, fun hv' => absurd ?_ hv⟩
    exact (hi.version b).symm.trans (hv'.trans (hi.version a))

/-- An edge that is its own twin after it was changed twice. -/
theorem changed_twice (hw : Whole c.stored) (hp : Twinned c.WasEdge) {change : Anchor → Anchor}
    (hi : Desk.Impartial change) (ha : EdgeIn d.look e a r) (ht : r.twin = some e)
    (he' : d'.look (.edge e) =
      some { change { change a with dirty := true } with dirty := true }) {x : Anchor}
    {q : EdgeRecord} {u : EdgeId} (hx : EdgeIn d'.look e x q) (hq : q.twin = some u) :
    (∃ y w, EdgeIn d'.look u y w ∧ y.dirty = true ∧ (y.version = x.version →
      OtherHalf e x q y w)) ∨ d.Withdrawn c.past e := by
  obtain ⟨r', hr', _, halike⟩ := hi.edge ha.2
  have hr₁ : ({ change a with dirty := true } : Anchor).edge? = some r' := hr'
  obtain ⟨r'', hr'', _, halike'⟩ := hi.edge hr₁
  obtain ⟨rfl, rfl⟩ := hx.unique ⟨he', hr''⟩
  obtain rfl : e = u :=
    Option.some.inj (ht.symm.trans (halike.1.symm.trans (halike'.1.symm.trans hq)))
  rcases he.halves h hw hp ha ht ha rfl with hhalf | hgone
  · have hhalf' := (hi.halves ha.2 ha.2 hhalf hr' hr').marked
    exact .inl ⟨_, _, hx, rfl, fun _ => (hi.halves hr₁ hr₁ hhalf' hr'' hr'').marked⟩
  · exact .inr hgone

/-- An edge without a twin was changed. -/
theorem alone {change : Anchor → Anchor} (hi : Desk.Impartial change) (ha : EdgeIn d.look e a r)
    (ht : r.twin = none) (hst : d'.stored = d.stored)
    (hlook : ∀ k, d'.look (.edge k) =
      if k = e then some { change a with dirty := true } else d.look (.edge k)) :
    d'.Even c.past := by
  refine he.single h hst ha ht (fun k hk => (hlook k).trans (if_neg hk)) fun {x q} hx => ?_
  obtain ⟨r', hr', _, halike⟩ := hi.edge ha.2
  obtain ⟨_, rfl⟩ := hx.unique ⟨(hlook e).trans (if_pos rfl), hr'⟩
  exact halike.1.trans ht

/-- One half of a link was changed, and the other is not there. -/
theorem bereft (hw : Whole c.stored) {change : Anchor → Anchor} (ha : EdgeIn d.look e a r)
    (ht : r.twin = some t) (hst : d'.stored = d.stored)
    (hlook : ∀ k, d'.look (.edge k) =
      if k = e then some { change a with dirty := true } else d.look (.edge k))
    (hnone : d'.look (.edge t) = none) : d'.Even c.past := by
  refine he.pair h hst ha ht (fun k hke _ => (hlook k).trans (if_neg hke)) ?_
  rintro k x q u (rfl | rfl) hx _
  · have hte : t ≠ k := by
      rintro rfl
      rw [hlook, if_pos rfl] at hnone
      cases hnone
    exact .inr (h.withdrawn_of_unseen hw ha ht
      (((hlook t).trans (if_neg hte)).symm.trans hnone))
  · cases hnone.symm.trans hx.1

/-- The halves of a link were changed one after the other, or an edge that is
its own twin was changed twice. -/
theorem both (hw : Whole c.stored) (hp : Twinned c.WasEdge) {change : Anchor → Anchor}
    (hi : Desk.Impartial change) (ha : EdgeIn d.look e a r) (ht : r.twin = some t)
    {between : EdgeId → Option Anchor} (hst : d'.stored = d.stored)
    (hfirst : ∀ k, between k =
      if k = e then some { change a with dirty := true } else d.look (.edge k))
    (hb : between t = some b)
    (hsecond : ∀ k, d'.look (.edge k) =
      if k = t then some { change b with dirty := true } else between k) : d'.Even c.past := by
  have hlookt := (hsecond t).trans (if_pos rfl)
  refine he.pair h hst ha ht (fun k hke hkt => ?_) fun {k x q u} hk hx hq => ?_
  · rw [hsecond, if_neg hkt, hfirst, if_neg hke]
  by_cases hte : t = e
  · subst hte
    rw [hfirst, if_pos rfl, Option.some.injEq] at hb
    subst hb
    obtain rfl : k = t := hk.elim id id
    exact he.changed_twice h hw hp hi ha ht hlookt hx hq
  · have hlooke := (hsecond e).trans
      ((if_neg (Ne.symm hte)).trans ((hfirst e).trans (if_pos rfl)))
    have hlb : d.look (.edge t) = some b := ((hfirst t).trans (if_neg hte)).symm.trans hb
    obtain ⟨s, hs⟩ := h.edge_of_look hlb
    have hback := (h.mirrors_of_look ha.1 ha.2 ht hlb hs).1
    rcases hk with rfl | rfl
    · exact he.changed h hw hp hi ha ht ⟨hlb, hs⟩ hlooke hlookt hx hq
    · exact he.changed h hw hp hi ⟨hlb, hs⟩ hback ha hlookt hlooke hx hq

end Desk.Even

namespace Sound

/-- A change to one half of a link goes to the other half as well, if the
request sees that. -/
theorem updateLinked_even (he : d.Even c.past) (h : Calm c n d) (hw : Whole c.stored)
    (hp : Twinned c.WasEdge) {change : Anchor → Anchor} (hi : Desk.Impartial change)
    (id : ObjectId) :
    Work.Ends (Actor.updateLinked id change) d (fun _ d' => d'.Even c.past)
      fun _ d' => d'.Even c.past := by
  refine (Desk.change_ends h.agreed id change).surely.andThen ?_
  rintro found d₂ ⟨rfl, ⟨hnone, hl⟩ | ⟨a, d₁, hfound, hl, ha, rfl⟩⟩
  · rw [hnone]
    exact .bind (.throw (he.loaded hl))
  rw [hfound]
  refine .bind (.pure ?_)
  have h₁ := h.loaded hl
  have he₁ := he.loaded hl
  have hla := h₁.look_of_copy? ha
  -- only the object itself is another one now; what is due to its twin depends on the
  -- kind of object
  have hlook : ∀ j, (d₁.keep id { change a with dirty := true }).look j =
      if j = id then some { change a with dirty := true } else d₁.look j := fun j =>
    Desk.look_keep (h₁.dated.keyed.removed?_of_copy? ha)
  cases id with
  | node m =>
    obtain ⟨r, hr⟩ := h₁.node_of_look hla
    have hedge : a.edge? = none := by
      cases hb : a.body with
      | node q => simp [Anchor.edge?, hb]
      | edge q => simp [Anchor.node?, hb] at hr
    rw [hedge]
    exact .pure (he₁.same rfl fun k => (hlook _).trans (if_neg (by simp)))
  | edge e =>
    obtain ⟨r, hr⟩ := h₁.edge_of_look hla
    have hae : EdgeIn d₁.look e a r := ⟨hla, hr⟩
    have hfirst : ∀ k, (d₁.keep (.edge e) { change a with dirty := true }).look (.edge k) =
        if k = e then some { change a with dirty := true } else d₁.look (.edge k) := fun k => by
      simp only [hlook, ObjectId.edge.injEq]
    rw [hr, Option.bind_some]
    cases ht : r.twin with
    | none => exact .pure (he₁.alone h₁ hi hae ht rfl hfirst)
    | some t =>
      have hagreed : (d₁.keep (.edge e) { change a with dirty := true }).shared.Agreed := h₁.agreed
      refine (Desk.change_ends hagreed (.edge t) change).surely.andThen ?_
      rintro found d₃ ⟨rfl, ⟨hnone, hl₃⟩ | ⟨b, d₃, hfound, hl₃, hb, rfl⟩⟩
      · rw [hnone]
        exact .bind (.throw (he₁.bereft h₁ hw hae ht hl₃.stored_eq
          (fun k => (hl₃.look_eq _).trans (hfirst k)) ((hl₃.look_eq _).trans hnone)))
      · rw [hfound]
        have hrem : d₃.draft.removed? (.edge t) = none :=
          (Desk.look_eq_some ((hl₃.look_eq _).trans hfound)).1
        refine .bind (.pure (.pure (he₁.both h₁ hw hp hi hae ht hl₃.stored_eq hfirst hfound
          fun k => ?_)))
        simp only [Desk.look_keep hrem, hl₃.look_eq, ObjectId.edge.injEq]

theorem setField_even (he : d.Even c.past) (h : Calm c n d) (hw : Whole c.stored)
    (hp : Twinned c.WasEdge) (actor : Actor) (id : ObjectId) (field : String) (value : Value) :
    Work.Ends (actor.setField id field value) d (fun _ d' => d'.Even c.past)
      fun _ d' => d'.Even c.past := by
  refine .bind ((h.check actor id .write).mono ?_ fun _ _ hl => he.loaded hl)
  rintro a d₁ ⟨hl₁, _⟩
  simp only
  split
  · exact .throw (he.loaded hl₁)
  · have hupdate :=
      updateLinked_even (he.loaded hl₁) (h.loaded hl₁) hw hp (.setField field value) id
    exact hupdate.andThen fun _ _ hd => .pure hd

theorem changeAccess_even (he : d.Even c.past) (h : Calm c n d) (hw : Whole c.stored)
    (hp : Twinned c.WasEdge) (actor : Actor) (id : ObjectId) (change : Access → Access) :
    Work.Ends (actor.changeAccess id change) d (fun _ d' => d'.Even c.past)
      fun _ d' => d'.Even c.past := by
  refine .bind ((h.check actor id .write).mono ?_ fun _ _ hl => he.loaded hl)
  rintro a d₁ ⟨hl₁, _⟩
  have hupdate := updateLinked_even (he.loaded hl₁) (h.loaded hl₁) hw hp (.access change) id
  exact hupdate.andThen fun _ _ hd => .pure hd

/-- Being even goes along with being calm. -/
theorem Standing.even (hw : Whole c.stored) : Standing c fun d => d.Even c.past :=
  ⟨Desk.Even.loaded, fun actor type fields h he => create_even he h actor type fields,
    fun actor type fields directed _ _ h he => link_even he h hw actor type fields directed⟩

end Sound

/-! ## All operations -/

/-- Every operation leaves a calm request even, also when it fails. -/
theorem Op.run_even (op : Op) (actor : Actor) (h : Calm c (n + op.mints) d) (he : d.Even c.past)
    (hw : Whole c.stored) (hp : Twinned c.WasEdge) :
    Work.Ends (op.run actor) d (fun _ d' => d'.Even c.past) fun _ d' => d'.Even c.past := by
  have hstanding := Sound.Standing.even hw
  have hprunes := (Desk.Thins.prunes h.chronicle d).culls
  have hcalm := op.run_calm actor h
  cases op with
  | create type fields => exact Sound.create_even he h actor type fields
  | createLinked source type fields edgeType =>
    exact (Sound.createLinked hstanding h he actor source type fields edgeType).mono
      (fun _ _ hd => hd.2) fun _ _ hd => hd.2
  | connect source target edgeType fields directed =>
    exact (Sound.connect hstanding h he actor source target edgeType fields directed).mono
      (fun _ _ hd => hd.2) fun _ _ hd => hd.2
  | connectMany source targets edgeType fields directed =>
    exact (Sound.connectMany hstanding actor source edgeType fields directed h he).mono
      (fun _ _ hd => hd.2) fun _ _ hd => hd.2
  | disconnect e => exact Sound.thinned h he hw (hprunes.disconnect actor e) hcalm
  | destroy m => exact Sound.thinned h he hw (hprunes.destroy actor m) hcalm
  | destroyIsolated m => exact Sound.thinned h he hw (hprunes.destroyIsolated actor m) hcalm
  | setField id field value => exact Sound.setField_even he h hw hp actor id field value
  | grant id level =>
    exact (Sound.changeAccess_even he h hw hp actor id _).andThen fun _ _ hd => .pure hd
  | revoke id =>
    exact (Sound.changeAccess_even he h hw hp actor id _).andThen fun _ _ hd => .pure hd
  | allow id root level =>
    exact (Sound.changeAccess_even he h hw hp actor id _).andThen fun _ _ hd => .pure hd
  | disallow id root =>
    exact (Sound.changeAccess_even he h hw hp actor id _).andThen fun _ _ hd => .pure hd
  | _ => exact Sound.thinned h he hw (hprunes.browses.run rfl actor) hcalm

/-- So does the reclaiming before a commit. -/
theorem Sound.evictUnreachable_even (he : d.Even c.past) (h : Calm c n d) (hw : Whole c.stored)
    (root : RootId) : Work.Ends (Desk.evictUnreachable root) d (fun _ d' => d'.Even c.past)
      fun _ d' => d'.Even c.past :=
  h.thinned he hw ((Desk.Thins.prunes h.chronicle d).culls.evictUnreachable root)
    ((h.evictUnreachable root).mono (fun _ _ hd => hd) fun _ _ hf => hf.elim)

end Wayfarer
